import Yalnix.PipeShape
import Yalnix.Proofs.PipeRun

/-!
# The steps at a pipe in shape

At a pipe in shape a reader can always be served, and a writer can always fill the buffer; here is all
that they change, and that the shape stays.
-/

namespace Yalnix

open Intrusive

variable {hw : Hardware} {k k' : Kernel} {s s' : QueueId → List PcbPtr} {i j n : Nat}

/-! ## Everything that a step does -/

/-- What happens at the pipe in slot `i` with the process `p`: afterwards they are `pipe` and `pcb`. -/
structure AtPipe (i : Nat) (p : PcbPtr) (k k' : Kernel) (pcb : Pcb) (pipe : Pipe) (e : PipeEvent) :
    Prop where
  object : k'.pipe i = some pipe
  pcb : k'.pcb p = pcb
  others : ∀ q, q ≠ p → k'.pcb q = k.pcb q
  table : ∀ j, j ≠ i → k'.sync_table j = k.sync_table j
  history : k'.pipeHistory = k.pipeHistory ++ [e]

/-- The bytes that the reader `r` takes from the pipe. -/
def takes (k : Kernel) (r : PcbPtr) (pipe : Pipe) : Int :=
  min (k.pcb r).pipe_len pipe.bytes_in_buffer

/-- The bytes that the writer `w` puts into the pipe. -/
def pours (hw : Hardware) (k : Kernel) (w : PcbPtr) (pipe : Pipe) : Nat :=
  min (hw.PIPE_BUFFER_LEN - pipe.bytes_in_buffer).toNat
    ((k.pcb w).pipe_len - (k.pcb w).write_loc).toNat

/-- One step of the drain loops, with all that it changes. -/
inductive DrainCase (hw : Hardware) (i : Nat) (k : Kernel) (s : QueueId → List PcbPtr) (k' : Kernel) :
    (QueueId → List PcbPtr) → Prop where
  | serve {r : PcbPtr} {xs : List PcbPtr} {pipe : Pipe} {out : List UInt8}
      (hs : s (.wait (.pipeReaders i)) = r :: xs) (hp : k.pipe i = some pipe)
      (hpos : pipe.bytes_in_buffer > 0) (hout : out.length = (takes k r pipe).toNat)
      (hat : AtPipe i r k k' { k.pcb r with
        user_context := (k.pcb r).user_context.setReg0 (takes k r pipe)
        waiting_pipe_id := -1
        state := .processReady } (pipe.drop hw (takes k r pipe).toNat) (.delivered i r out)) :
      DrainCase hw i k s k' (woken s (.pipeReaders i) r xs)
  | finish {w : PcbPtr} {xs : List PcbPtr} {pipe : Pipe} {out : List UInt8}
      (hs : s (.wait (.pipeWriters i)) = w :: xs) (hp : k.pipe i = some pipe)
      (hout : out.length = pours hw k w pipe)
      (hdone : (k.pcb w).pipe_len ≤ (k.pcb w).write_loc + pours hw k w pipe)
      (hat : AtPipe i w k k' { k.pcb w with
        user_context := (k.pcb w).user_context.setReg0 (k.pcb w).pipe_len
        pipe_buffer := none
        pipe_len := 0
        write_loc := 0
        waiting_pipe_id := -1
        state := .processReady } (pipe.putAll hw out) (.accepted i w out)) :
      DrainCase hw i k s k' (woken s (.pipeWriters i) w xs)
  | refill {w : PcbPtr} {xs : List PcbPtr} {pipe : Pipe} {out : List UInt8}
      (hs : s (.wait (.pipeWriters i)) = w :: xs) (hp : k.pipe i = some pipe)
      (hout : out.length = pours hw k w pipe)
      (hleft : (k.pcb w).write_loc + pours hw k w pipe < (k.pcb w).pipe_len)
      (hat : AtPipe i w k k' { k.pcb w with write_loc := (k.pcb w).write_loc + pours hw k w pipe }
        (pipe.putAll hw out) (.accepted i w out)) : DrainCase hw i k s k' s

/-- A reader at a pipe in shape can be served. -/
theorem PipeShape.served (h : PipeShape hw k s i) {r : PcbPtr}
    (hr : r ∈ s (.wait (.pipeReaders i))) {pipe : Pipe} (hp : k.pipe i = some pipe) :
    ∃ k₁ out, serveReader hw k i pipe r = some k₁ ∧ out.length = (takes k r pipe).toNat ∧
      AtPipe i r k k₁ { k.pcb r with
        user_context := (k.pcb r).user_context.setReg0 (takes k r pipe)
        waiting_pipe_id := -1
        state := .processDefault } (pipe.drop hw (takes k r pipe).toNat) (.delivered i r out) := by
  obtain ⟨d, hd, hlive⟩ := h.reader r hr
  have hrun := serveReader_eq (k := k) (i := i) hd hlive (h.sound pipe hp).read_lt _ rfl
  refine ⟨_, _, hrun, Ring.length_contents, ?_, ?_, ?_, ?_, rfl⟩
  · exact pipe_setObject hp _
  · exact Function.update_self ..
  · exact (serveReader_frame hrun).2.2
  · exact (serveReader_effect hrun).2

/-- A writer at a pipe in shape can fill the buffer. -/
theorem PipeShape.poured (h : PipeShape hw k s i) {w : PcbPtr}
    (hmem : w ∈ s (.wait (.pipeWriters i))) {pipe : Pipe} (hp : k.pipe i = some pipe) :
    ∃ k₁ out, fillFromWriter hw k i pipe w = some k₁ ∧ out.length = pours hw k w pipe ∧
      AtPipe i w k k₁ { k.pcb w with write_loc := (k.pcb w).write_loc + pours hw k w pipe }
        (pipe.putAll hw out) (.accepted i w out) := by
  obtain ⟨⟨b, hb, hlive⟩, hloc⟩ := h.writer w hmem
  generalize hm : pours hw k w pipe = m
  generalize hout : (List.range m).map (fun j => k.kbuf b ((k.pcb w).write_loc.toNat + j)) = out
  have hrun := fillFromWriter_eq (k := k) (i := i) hb hlive hloc m hm.symm out hout.symm
  refine ⟨_, out, hrun, by simp [← hout], ?_, ?_, ?_, ?_, rfl⟩
  · exact pipe_setObject hp _
  · exact Function.update_self ..
  · exact (fillFromWriter_frame hrun).2.2
  · exact (fillFromWriter_effect hrun).2

theorem AtPipe.ready {p : PcbPtr} {k₁ : Kernel} {pcb : Pcb} {pipe : Pipe} {e : PipeEvent}
    (h : AtPipe i p k k₁ pcb pipe e) (q : Heap QueueId PcbPtr) :
    AtPipe i p k { k₁.setState p .processReady with queues := q }
      { pcb with state := .processReady } pipe e := by
  refine ⟨h.object, ?_, fun n hn => ?_, h.table, h.history⟩
  · simp [Kernel.setState, Kernel.modifyPcb, h.pcb]
  · simp [Kernel.setState, Kernel.modifyPcb, hn, h.others n hn]

/-- What a step does at a pipe in shape. -/
theorem DrainStep.cases (hstep : DrainStep hw i k s k' s') (h : PipeShape hw k s i) :
    DrainCase hw i k s k' s' := by
  cases hstep with
  | @serve r xs pipe k₁ q hs hp hpos hrun hc =>
    obtain ⟨k₂, out, hrun', hout, hat⟩ := h.served (r := r) (by simp [hs]) hp
    obtain rfl := Option.some.inj (hrun.symm.trans hrun')
    exact .serve hs hp hpos hout (hat.ready q)
  | @finish w xs pipe k₁ q hs hp hrun hdone hc =>
    obtain ⟨k₂, out, hrun', hout, hat⟩ := h.poured (w := w) (by simp [hs]) hp
    obtain rfl := Option.some.inj (hrun.symm.trans hrun')
    rw [hat.pcb] at hdone
    refine .finish hs hp hout (by simpa using hdone) ?_
    have hfin : AtPipe i w k (finishWriter k₁ w) { k.pcb w with
        user_context := (k.pcb w).user_context.setReg0 (k.pcb w).pipe_len
        pipe_buffer := none
        pipe_len := 0
        write_loc := 0
        waiting_pipe_id := -1
        state := .processDefault } (pipe.putAll hw out) (.accepted i w out) := by
      refine ⟨hat.object, ?_, fun n hn => ?_, hat.table, hat.history⟩
      · simp [finishWriter, Kernel.setReg0, Kernel.modifyPcb, hat.pcb]
      · simp [finishWriter, Kernel.setReg0, Kernel.modifyPcb, hn, hat.others n hn]
    exact hfin.ready q
  | @refill w xs pipe k₁ q hs hp hrun hleft hc =>
    obtain ⟨k₂, out, hrun', hout, hat⟩ := h.poured (w := w) (by simp [hs]) hp
    obtain rfl := Option.some.inj (hrun.symm.trans hrun')
    rw [hat.pcb] at hleft
    exact .refill hs hp hout hleft ⟨hat.object, hat.pcb, hat.others, hat.table, hat.history⟩

/-! ## The steps keep the shape -/

/-- The pipes of a run of pipe calls are in shape. -/
theorem PipesInv.shape (h : PipesInv hw k s) (i : Nat) : PipeShape hw k s i := by
  refine ⟨fun pipe hp => ((h.pipe i).valid pipe hp).sound, fun r hr => ?_, fun w hmem => ?_⟩
  · obtain ⟨b, hb, -⟩ := (h.pipe i).reader r hr
    exact ⟨b, hb, h.live b⟩
  · rw [← List.mem_reverse, ← (h.pipe i).blocked] at hmem
    obtain ⟨x, hx, rfl⟩ := List.mem_map.1 hmem
    obtain ⟨hx, hdone⟩ := List.mem_filter.1 hx
    obtain ⟨hloc, -, ⟨b, hb, -⟩, -⟩ := (h.pipe i).progress x hx (by simpa using hdone)
    exact ⟨⟨b, hb, h.live b⟩, hloc⟩

/-- What the process `p` does keeps the shape, as long as `p` has a buffer where it waits afterwards. -/
theorem PipeShape.touch (h : PipeShape hw k s i) {p : PcbPtr}
    (hne : ∀ q, q ≠ p → k'.pcb q = k.pcb q) (hfreed : k'.kbufFreed = k.kbufFreed)
    (hsound : ∀ pipe, k'.pipe i = some pipe → pipe.Sound hw)
    (hs : ∀ v, v.slot = i → ∀ q ∈ s' (.wait v), q ≠ p → q ∈ s (.wait v))
    (hr : p ∈ s' (.wait (.pipeReaders i)) → ∃ b, (k'.pcb p).pipe_buffer = some b ∧ k'.kbufFreed b = false)
    (hwr : p ∈ s' (.wait (.pipeWriters i)) →
      (∃ b, (k'.pcb p).pipe_buffer = some b ∧ k'.kbufFreed b = false) ∧ 0 ≤ (k'.pcb p).write_loc) :
    PipeShape hw k' s' i := by
  refine ⟨hsound, fun r hmem => ?_, fun w hmem => ?_⟩
  · by_cases e : r = p
    · subst e
      exact hr hmem
    · rw [hne r e, hfreed]
      exact h.reader r (hs (.pipeReaders i) rfl r hmem e)
  · by_cases e : w = p
    · subst e
      exact hwr hmem
    · rw [hne w e, hfreed]
      exact h.writer w (hs (.pipeWriters i) rfl w hmem e)

/-- The pipe after a step. -/
theorem PipeShape.sound_step (h : PipeShape hw k s j) (hi : PipeShape hw k s i)
    (hstep : DrainStep hw i k s k' s') : ∀ pipe, k'.pipe j = some pipe → pipe.Sound hw := by
  intro pipe' hp'
  by_cases e : j = i
  · subst e
    cases hstep.cases hi with
    | @serve r xs pipe out hs hp hpos hout hat =>
      obtain rfl := Option.some.inj (hat.object.symm.trans hp')
      have := (h.sound pipe hp).nonneg
      exact .drop (by unfold takes; omega)
    | @finish w xs pipe out hs hp hout hdone hat =>
      obtain rfl := Option.some.inj (hat.object.symm.trans hp')
      exact (h.sound pipe hp).putAll out
    | @refill w xs pipe out hs hp hout hleft hat =>
      obtain rfl := Option.some.inj (hat.object.symm.trans hp')
      exact (h.sound pipe hp).putAll out
  · rw [Kernel.pipe, hstep.effect.2 j e] at hp'
    exact h.sound pipe' hp'

/-- A step at the pipe in slot `i` keeps the shape of every pipe. -/
theorem PipeShape.drainStep (h : PipeShape hw k s j) (hi : PipeShape hw k s i) (hc : Coherent k s)
    (hstep : DrainStep hw i k s k' s') : PipeShape hw k' s' j := by
  have hsound := h.sound_step hi hstep
  have hfreed := hstep.freed
  cases hstep.cases hi with
  | serve hs hp hpos hout hat =>
    exact h.touch hat.others hfreed hsound (fun v _ q hq _ => mem_of_mem_woken hs hq)
      (fun hr => absurd rfl (ne_of_mem_woken hc hs hr)) fun hr => absurd rfl (ne_of_mem_woken hc hs hr)
  | finish hs hp hout hdone hat =>
    exact h.touch hat.others hfreed hsound (fun v _ q hq _ => mem_of_mem_woken hs hq)
      (fun hr => absurd rfl (ne_of_mem_woken hc hs hr)) fun hr => absurd rfl (ne_of_mem_woken hc hs hr)
  | @refill w xs pipe out hs hp hout hleft hat =>
    refine h.touch hat.others hfreed hsound (fun v _ q hq _ => hq) (fun hr => ?_) fun hw => ?_
    · rw [hat.pcb, hfreed]
      exact h.reader w hr
    · obtain ⟨hbuf, hloc⟩ := h.writer w hw
      rw [hat.pcb, hfreed]
      exact ⟨hbuf, by show 0 ≤ (k.pcb w).write_loc + _; omega⟩

theorem PipeShape.drain (h : PipeShape hw k s j) (hi : PipeShape hw k s i) (hc : Coherent k s)
    (hd : Drain hw i k s k' s') : PipeShape hw k' s' j :=
  (hd.invariant (I := fun k s => Coherent k s ∧ PipeShape hw k s i ∧ PipeShape hw k s j)
    (fun _ _ _ _ h hstep => ⟨hstep.coherent, h.2.1.drainStep h.2.1 h.1 hstep,
      h.2.2.drainStep h.2.1 h.1 hstep⟩) ⟨hc, hi, h⟩).2.2

end Yalnix
