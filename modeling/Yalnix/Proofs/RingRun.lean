import Yalnix.Proofs.ShapeRun

/-!
# The ring buffer in every run

The counter and the two positions of a pipe agree as long as no negative length is read from a pipe
with bytes: `SyncReadPipe` takes it off the counter.
-/

namespace Yalnix

open Intrusive Transition

variable {hw : Hardware} {k k' k₀ : Kernel} {s s' : QueueId → List PcbPtr} {i j : Nat}

/-- All pipes are valid. -/
def PipesValid (hw : Hardware) (k : Kernel) : Prop := ∀ i pipe, k.pipe i = some pipe → pipe.Valid hw

/-- Another pipe in slot `i`, and the others as before. -/
theorem PipesValid.set (h : PipesValid hw k) {pipe new : Pipe} (hp : k.pipe i = some pipe)
    (hnew : new.Valid hw) (hself : k'.pipe i = some new) (hother : ∀ j, j ≠ i → k'.pipe j = k.pipe j) :
    PipesValid hw k' := by
  intro j pipe' hp'
  by_cases e : j = i
  · subst e
    obtain rfl := Option.some.inj (hself.symm.trans hp')
    exact hnew
  · exact h j pipe' (hother j e ▸ hp')

theorem pipe_of_table (h : ∀ j, j ≠ i → k'.sync_table j = k.sync_table j) :
    ∀ j, j ≠ i → k'.pipe j = k.pipe j := fun j e => by
  rw [Kernel.pipe, h j e, Kernel.pipe]

/-- A reader takes no more than there is, and a writer puts no more than there is room for. -/
theorem PipesValid.drainStep (h : PipesValid hw k) (hi : PipeShape hw k s i)
    (hstep : DrainStep hw i k s k' s') : PipesValid hw k' := by
  have hpours : ∀ {w pipe} {out : List UInt8}, k.pipe i = some pipe →
      out.length = pours hw k w pipe → (pipe.putAll hw out).Valid hw := by
    intro w pipe out hp hout
    have hv := h i pipe hp
    have := hv.le
    refine (hv.putAll out ?_).1
    unfold pours at hout
    omega
  cases hstep.cases hi with
  | @serve r xs pipe out hs hp hpos hout hat =>
    have hv := h i pipe hp
    have := hv.nonneg
    exact h.set hp (hv.drop (by unfold takes; omega)) hat.object (pipe_of_table hat.table)
  | finish hs hp hout hdone hat => exact h.set hp (hpours hp hout) hat.object (pipe_of_table hat.table)
  | refill hs hp hout hleft hat => exact h.set hp (hpours hp hout) hat.object (pipe_of_table hat.table)

theorem PipesValid.drain (h : PipesValid hw k) (hi : PipeShape hw k s i) (hc : Coherent k s)
    (hd : Drain hw i k s k' s') : PipesValid hw k' :=
  (hd.invariant (I := fun k s => Coherent k s ∧ PipeShape hw k s i ∧ PipesValid hw k)
    (fun _ _ _ _ h hstep => ⟨hstep.coherent, h.2.1.drainStep h.2.1 h.1 hstep,
      h.2.2.drainStep h.2.1 hstep⟩) ⟨hc, hi, h⟩).2.2

/-- The caller takes no more than there is. -/
theorem PipesValid.readTake (h : PipesValid hw k) {pipe : Pipe} (hp : k.pipe i = some pipe)
    {buf : BufPtr} {len : Int} (hlen : 0 ≤ len)
    (hother : ∀ j, j ≠ i → (Yalnix.readTake hw k i pipe buf len).pipe j = k.pipe j) :
    PipesValid hw (Yalnix.readTake hw k i pipe buf len) := by
  have hv := h i pipe hp
  have hn : ((min len pipe.bytes_in_buffer).toNat : Int) = min len pipe.bytes_in_buffer := by
    have := hv.nonneg
    omega
  have hdrop : (pipe.drop hw (min len pipe.bytes_in_buffer).toNat).Valid hw := hv.drop (by omega)
  refine h.set hp hdrop ?_ hother
  rw [readTake_eq hn]
  exact pipe_setObject hp _

theorem PipesValid.read (h : PipesValid hw k) (hinv : ShapeInv hw k s)
    (hfree : ∀ l, k.current_process ∉ s l) (hidle : k.current_process ≠ k.idle_process)
    {id len rc : Int} {buf : BufPtr} (hok : ReadsForward k (.call k.current_process (.readPipe id buf len)))
    (hrun : syncReadPipe hw k id buf len = some (rc, k')) : PipesValid hw k' := by
  cases readPipe_ends hinv.coherent (fun i => (hinv.shape i).sound) hfree hidle hrun with
  | error hno => exact h
  | blocked hopen hp hempty hc => exact h
  | @taken i pipe k' hopen hp hne hdrain =>
    have hlen : 0 ≤ len := by
      by_contra hneg
      exact hne (hok (i, len) rfl hopen (by simpa using hneg) pipe hp)
    obtain ⟨hc₁, -, hshape₁, hother⟩ := hinv.readTake hfree hp buf len
    obtain ⟨s', hd, -⟩ := (drain_steps _ _ s hc₁).1 k' hdrain
    exact (h.readTake hp hlen hother).drain (hshape₁ i) hc₁ hd

/-- The caller puts no more than there is room for. -/
theorem PipesValid.writeNow (h : PipesValid hw k) {pipe : Pipe} (hp : k.pipe i = some pipe)
    {buf : BufPtr} {len : Int} {m : Nat} {pcb : Pcb} {q : Heap QueueId PcbPtr}
    (hm : m = min (hw.PIPE_BUFFER_LEN - pipe.bytes_in_buffer).toNat len.toNat) :
    PipesValid hw (Yalnix.writeNow hw k i pipe buf len m pcb q) := by
  have hv := h i pipe hp
  have := hv.le
  have hroom : pipe.bytes_in_buffer + ((List.range m).map (k.kbuf buf)).length ≤
      hw.PIPE_BUFFER_LEN := by
    simp
    omega
  refine h.set hp (hv.putAll _ hroom).1 (pipe_setObject hp _) fun j e => ?_
  simp [Kernel.pipe, Yalnix.writeNow, Kernel.setObject, e]

theorem PipesValid.write (h : PipesValid hw k) (hinv : ShapeInv hw k s)
    (hfree : ∀ l, k.current_process ∉ s l) (hidle : k.current_process ≠ k.idle_process)
    {id len rc : Int} {buf : BufPtr} (hlive : k.kbufFreed buf = false)
    (hrun : syncWritePipe hw k id buf len = some (rc, k')) : PipesValid hw k' := by
  cases writePipe_cases hinv.coherent hfree hidle hrun with
  | error hno => exact h
  | @blocked i m n pipe q k₁ k' hopen hp hm hlt hk₁ hc hdrain =>
    obtain ⟨-, hshape₁, -⟩ := hinv.writeBlocked hfree hp hlive hk₁ hc
    obtain ⟨s', hd, -⟩ := (drain_steps _ _ _ hc).2 k' hdrain
    subst hk₁
    exact (h.writeNow hp hm).drain (hshape₁ i) hc hd
  | @done i m n pipe k₁ k' hopen hp hm hlt hk₁ hdrain =>
    subst hk₁
    obtain ⟨hc₁, -, hshape₁, -⟩ := hinv.writeDone hfree hp buf len m
    obtain ⟨s', hd, -⟩ := (drain_steps _ _ s hc₁).2 k' hdrain
    exact (h.writeNow hp hm).drain (hshape₁ i) hc₁ hd

/-- New pipes are valid. -/
theorem PipesValid.frame (h : PipesValid hw k) (hf : PipeFrame k k') : PipesValid hw k' := by
  intro j pipe hp
  rcases hf.pipe j with hj | ⟨-, buffer, hj⟩
  · exact h j pipe (hj ▸ hp)
  · obtain rfl := Option.some.inj (hj.symm.trans hp)
    exact ⟨by simp [newPipe], by simp [newPipe], hw.pipe_pos, by simp [newPipe]⟩

theorem PipesValid.step (h : PipesValid hw k) (hinv : ShapeInv hw k s)
    (hlive : ∀ b, k.kbufFreed b = false) {e : SyncEvent}
    (hen : (syncMachine hw).enabled k e) (hok : ReadsForward k e)
    (hstep : (syncMachine hw).step k e = some k') : PipesValid hw k' := by
  cases e with
  | schedule caller =>
    obtain ⟨s', -, hf, -⟩ := hinv.schedule hstep
    exact h.frame hf
  | store buf bytes =>
    obtain rfl := Option.some.inj hstep
    exact h
  | call p c =>
    obtain ⟨⟨rc, k₁⟩, hrun, rfl⟩ := Option.map_eq_some_iff.1 hstep
    obtain ⟨hfree, hidle⟩ := hen
    have hfree := hinv.coherent.offQueues_iff.1 hfree
    have hp := hinv.setCurrent p
    have h : PipesValid hw { k with current_process := p } := h
    cases c with
    | readPipe id buf len => exact h.read hp hfree hidle hok hrun
    | writePipe id buf len => exact h.write hp hfree hidle (hlive buf) hrun
    | _ => exact h.frame (syncCall_pipeFrame hp.table rfl hrun)

/-- In every run that reads no negative length from a pipe with bytes, the counter and the positions of
every pipe agree. -/
theorem pipe_agrees (h₀ : SyncStart k₀) {t : List (Kernel × SyncEvent)}
    (hrun : Run (syncMachine hw) ReadsForward k₀ t k) {pipe : Pipe} (hp : k.pipe i = some pipe) :
    pipe.Agrees hw := by
  obtain ⟨-, hvalid⟩ := hrun.invariant
    (I := fun k => PipesSound hw k ∧ PipesValid hw k)
    ⟨h₀.pipesSound, fun j pipe hp => by simp [Kernel.pipe, h₀.noObject j] at hp⟩
    (by
      rintro k e k' ⟨hsound, h⟩ hen hok hstep
      have hnext : PipesSound hw k' := hsound.step hen hstep
      obtain ⟨⟨s, hinv⟩, hlive⟩ := hsound
      exact ⟨hnext, h.step hinv hlive hen hok hstep⟩)
  obtain ⟨hnonneg, hle, hread, hwrite⟩ := hvalid i pipe hp
  refine ⟨hnonneg, hle, hread, hwrite ▸ Nat.mod_lt _ hw.pipe_pos, ?_⟩
  rw [hwrite, Int.natCast_mod, Int.natCast_add, Int.toNat_of_nonneg hnonneg]

/-- Events that may happen one after the other are a run. -/
theorem SyncStart.shapeExec {P : Kernel → SyncEvent → Prop} (h₀ : SyncStart k₀) {es : List SyncEvent}
    (hexec : (syncMachine hw).exec k₀ es = some k)
    (hok : ∀ x ∈ (syncMachine hw).trace k₀ es, callable x.1 x.2 = true ∧ P x.1 x.2) :
    Run (syncMachine hw) P k₀ ((syncMachine hw).trace k₀ es) k :=
  Run.exec (I := PipesSound hw) h₀.pipesSound (fun _ _ _ hsound hen _ hstep => hsound.step hen hstep) hexec
    fun x hx ⟨⟨_, hinv⟩, _⟩ => ⟨hinv.coherent.enabled (hok x hx).1, (hok x hx).2⟩

/-- A byte is written and read, and a negative length waits for the next one. -/
def forwardEvents : List SyncEvent :=
  [.call 102 (.initPipe 8 true fun _ => 0), .call 103 (.writePipe 0 1 1), .call 102 (.readPipe 0 0 1),
    .call 103 (.readPipe 0 0 (-1)), .call 102 (.writePipe 0 1 1)]

def forwardKernel : Kernel :=
  ((syncMachine .small).exec Boot.smallProcesses forwardEvents).get (by decide)

theorem pipe_agrees_small : (forwardKernel.pipe 0).map (fun pipe =>
    (pipe.read_pos, pipe.write_pos, pipe.bytes_in_buffer)) = some (1, 0, 1) ∧
    ∃ pipe, forwardKernel.pipe 0 = some pipe ∧ pipe.Agrees .small := by
  have hexec : (syncMachine .small).exec Boot.smallProcesses forwardEvents = some forwardKernel :=
    (Option.some_get _).symm
  have hrun : Run (syncMachine .small) ReadsForward Boot.smallProcesses _ forwardKernel :=
    Boot.smallProcesses_syncStart.shapeExec hexec (by decide +kernel)
  obtain ⟨pipe, hp⟩ : ∃ pipe, forwardKernel.pipe 0 = some pipe :=
    Option.isSome_iff_exists.1 (by decide)
  exact ⟨by decide, pipe, hp, pipe_agrees Boot.smallProcesses_syncStart hrun hp⟩

/-- One byte is written, and `-1` bytes are read. -/
def backwardEvents : List SyncEvent :=
  [.call 102 (.initPipe 8 true fun _ => 0), .call 103 (.writePipe 0 1 1), .call 102 (.readPipe 0 0 (-1))]

def backwardKernel : Kernel :=
  ((syncMachine .small).exec Boot.smallProcesses backwardEvents).get (by decide)

/-- The counter says that there are two bytes. -/
theorem pipe_agrees_fails : ¬ ∀ (hw : Hardware) (k₀ k : Kernel) (t : List (Kernel × SyncEvent))
    (i : Nat) (pipe : Pipe), SyncStart k₀ → Run (syncMachine hw) (fun _ _ => True) k₀ t k →
    k.pipe i = some pipe → pipe.Agrees hw := by
  intro h
  have hexec : (syncMachine .small).exec Boot.smallProcesses backwardEvents = some backwardKernel :=
    (Option.some_get _).symm
  have hrun : Run (syncMachine .small) (fun _ _ => True) Boot.smallProcesses _ backwardKernel :=
    Boot.smallProcesses_syncStart.shapeExec hexec (by decide +kernel)
  obtain ⟨pipe, hp⟩ : ∃ pipe, backwardKernel.pipe 0 = some pipe :=
    Option.isSome_iff_exists.1 (by decide)
  have hagrees := h .small _ _ _ 0 pipe Boot.smallProcesses_syncStart hrun hp
  have hpos : (backwardKernel.pipe 0).map (fun pipe =>
    (pipe.read_pos, pipe.write_pos, pipe.bytes_in_buffer)) = some (0, 1, 2) := by decide
  rw [hp] at hpos
  simp only [Option.map_some, Option.some.injEq, Prod.mk.injEq] at hpos
  obtain ⟨hread, hwrite, hbytes⟩ := hpos
  have hdistance := hagrees.distance
  rw [hread, hwrite, hbytes] at hdistance
  revert hdistance
  decide

end Yalnix
