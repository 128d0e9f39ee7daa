import Yalnix.PipeRun
import Yalnix.Proofs.Wake

/-!
# The drain loops as steps

A run of `SyncDrainReaders` and `SyncDrainWriters`, with their calls of each other, is a sequence of
three kinds of steps: a reader is served, a writer is finished, or the first writer refills the buffer
and stays.
-/

namespace Yalnix

open Intrusive

variable {hw : Hardware} {k k' : Kernel} {s s' : QueueId → List PcbPtr} {i j n : Nat}

/-- One step of the drain loops at the pipe in slot `i`. -/
inductive DrainStep (hw : Hardware) (i : Nat) (k : Kernel) (s : QueueId → List PcbPtr) :
    Kernel → (QueueId → List PcbPtr) → Prop where
  | serve {r : PcbPtr} {xs : List PcbPtr} {pipe : Pipe} {k₁ : Kernel} {q : Heap QueueId PcbPtr}
      (hs : s (.wait (.pipeReaders i)) = r :: xs) (hp : k.pipe i = some pipe)
      (hpos : pipe.bytes_in_buffer > 0) (hrun : serveReader hw k i pipe r = some k₁)
      (hc : Coherent { k₁.setState r .processReady with queues := q }
        (woken s (.pipeReaders i) r xs)) :
      DrainStep hw i k s { k₁.setState r .processReady with queues := q }
        (woken s (.pipeReaders i) r xs)
  | finish {w : PcbPtr} {xs : List PcbPtr} {pipe : Pipe} {k₁ : Kernel} {q : Heap QueueId PcbPtr}
      (hs : s (.wait (.pipeWriters i)) = w :: xs) (hp : k.pipe i = some pipe)
      (hrun : fillFromWriter hw k i pipe w = some k₁)
      (hdone : ¬ (k₁.pcb w).write_loc < (k₁.pcb w).pipe_len)
      (hc : Coherent { (finishWriter k₁ w).setState w .processReady with queues := q }
        (woken s (.pipeWriters i) w xs)) :
      DrainStep hw i k s { (finishWriter k₁ w).setState w .processReady with queues := q }
        (woken s (.pipeWriters i) w xs)
  | refill {w : PcbPtr} {xs : List PcbPtr} {pipe : Pipe} {k₁ : Kernel} {q : Heap QueueId PcbPtr}
      (hs : s (.wait (.pipeWriters i)) = w :: xs) (hp : k.pipe i = some pipe)
      (hrun : fillFromWriter hw k i pipe w = some k₁)
      (hleft : (k₁.pcb w).write_loc < (k₁.pcb w).pipe_len)
      (hc : Coherent { k₁ with queues := q } s) : DrainStep hw i k s { k₁ with queues := q } s

/-- Any number of them. -/
inductive Drain (hw : Hardware) (i : Nat) :
    Kernel → (QueueId → List PcbPtr) → Kernel → (QueueId → List PcbPtr) → Prop where
  | refl (k : Kernel) (s : QueueId → List PcbPtr) : Drain hw i k s k s
  | head {k k₁ k' : Kernel} {s s₁ s' : QueueId → List PcbPtr} (hstep : DrainStep hw i k s k₁ s₁)
      (hrest : Drain hw i k₁ s₁ k' s') : Drain hw i k s k' s'

/-- What every step preserves, a drain preserves. -/
theorem Drain.invariant {I : Kernel → (QueueId → List PcbPtr) → Prop}
    (hpres : ∀ k s k' s', I k s → DrainStep hw i k s k' s' → I k' s')
    (hd : Drain hw i k s k' s') (h : I k s) : I k' s' := by
  induction hd with
  | refl => exact h
  | head hstep _ ih => exact ih (hpres _ _ _ _ h hstep)

theorem DrainStep.coherent (h : DrainStep hw i k s k' s') : Coherent k' s' := by
  cases h <;> assumption

theorem Drain.coherent (hd : Drain hw i k s k' s') (h : Coherent k s) : Coherent k' s' :=
  hd.invariant (fun _ _ _ _ _ hstep => hstep.coherent) h

/-! ## The loops -/

theorem serveReader_queues (q : Heap QueueId PcbPtr) (pipe : Pipe) (r : PcbPtr) :
    serveReader hw { k with queues := q } i pipe r =
      (serveReader hw k i pipe r).map fun k => { k with queues := q } := by
  unfold serveReader
  show ((k.pcb r).pipe_buffer.bind _) = _
  cases (k.pcb r).pipe_buffer with
  | none => rfl
  | some d =>
    simp only [Option.bind_eq_bind, Option.bind_some]
    rw [apply_ite (Option.map _)]
    rfl

theorem fillFromWriter_queues (q : Heap QueueId PcbPtr) (pipe : Pipe) (w : PcbPtr) :
    fillFromWriter hw { k with queues := q } i pipe w =
      (fillFromWriter hw k i pipe w).map fun k => { k with queues := q } := by
  unfold fillFromWriter
  show ((k.pcb w).pipe_buffer.bind _) = _
  cases (k.pcb w).pipe_buffer with
  | none => rfl
  | some d =>
    simp only [Option.bind_eq_bind, Option.bind_some]
    rw [apply_ite (Option.map _)]
    rfl

/-- What serving a reader leaves alone. -/
theorem serveReader_frame {pipe : Pipe} {r : PcbPtr} {k₁ : Kernel}
    (h : serveReader hw k i pipe r = some k₁) :
    k₁.idle_process = k.idle_process ∧ (k₁.pcb r).state = .processDefault ∧
      ∀ p, p ≠ r → k₁.pcb p = k.pcb p := by
  unfold serveReader at h
  obtain ⟨d, -, h⟩ := Option.bind_eq_some_iff.1 h
  simp only [Option.pure_def, Option.ite_none_left_eq_some, Option.some.injEq] at h
  obtain ⟨-, rfl⟩ := h
  exact ⟨rfl, by simp [Kernel.modifyPcb],
    fun p hp => by simp [Kernel.modifyPcb, Kernel.setReg0, Kernel.record, Kernel.setObject, hp]⟩

theorem fillFromWriter_frame {pipe : Pipe} {w : PcbPtr} {k₁ : Kernel}
    (h : fillFromWriter hw k i pipe w = some k₁) :
    k₁.idle_process = k.idle_process ∧ (k₁.pcb w).state = (k.pcb w).state ∧
      ∀ p, p ≠ w → k₁.pcb p = k.pcb p := by
  unfold fillFromWriter at h
  obtain ⟨d, -, h⟩ := Option.bind_eq_some_iff.1 h
  simp only [Option.pure_def, Option.ite_none_left_eq_some, Option.some.injEq] at h
  obtain ⟨-, rfl⟩ := h
  exact ⟨rfl, by simp [Kernel.modifyPcb, Kernel.record, Kernel.setObject],
    fun p hp => by simp [Kernel.modifyPcb, Kernel.record, Kernel.setObject, hp]⟩

theorem serveReader_effect {pipe : Pipe} {r : PcbPtr} {k₁ : Kernel}
    (h : serveReader hw k i pipe r = some k₁) :
    (∃ out, k₁.pipeHistory = k.pipeHistory ++ [.delivered i r out]) ∧
      ∀ j, j ≠ i → k₁.sync_table j = k.sync_table j := by
  unfold serveReader at h
  obtain ⟨b, -, h⟩ := Option.bind_eq_some_iff.1 h
  obtain ⟨-, h⟩ := Option.ite_none_left_eq_some.1 h
  obtain rfl := Option.some.inj h
  exact ⟨⟨_, rfl⟩, fun j hj => by
    simp [Kernel.modifyPcb, Kernel.setReg0, Kernel.record, Kernel.setObject, hj]⟩

theorem fillFromWriter_effect {pipe : Pipe} {w : PcbPtr} {k₁ : Kernel}
    (h : fillFromWriter hw k i pipe w = some k₁) :
    (∃ out, k₁.pipeHistory = k.pipeHistory ++ [.accepted i w out]) ∧
      ∀ j, j ≠ i → k₁.sync_table j = k.sync_table j := by
  unfold fillFromWriter at h
  obtain ⟨b, -, h⟩ := Option.bind_eq_some_iff.1 h
  obtain ⟨-, h⟩ := Option.ite_none_left_eq_some.1 h
  obtain rfl := Option.some.inj h
  exact ⟨⟨_, rfl⟩, fun j hj => by
    simp [Kernel.modifyPcb, Kernel.record, Kernel.setObject, hj]⟩

theorem serveReader_freed {pipe : Pipe} {r : PcbPtr} {k₁ : Kernel}
    (h : serveReader hw k i pipe r = some k₁) : k₁.kbufFreed = k.kbufFreed := by
  unfold serveReader at h
  obtain ⟨b, -, h⟩ := Option.bind_eq_some_iff.1 h
  obtain ⟨-, h⟩ := Option.ite_none_left_eq_some.1 h
  obtain rfl := Option.some.inj h
  rfl

theorem fillFromWriter_freed {pipe : Pipe} {w : PcbPtr} {k₁ : Kernel}
    (h : fillFromWriter hw k i pipe w = some k₁) : k₁.kbufFreed = k.kbufFreed := by
  unfold fillFromWriter at h
  obtain ⟨b, -, h⟩ := Option.bind_eq_some_iff.1 h
  obtain ⟨-, h⟩ := Option.ite_none_left_eq_some.1 h
  obtain rfl := Option.some.inj h
  rfl

/-- The drain loops free no buffer. -/
theorem DrainStep.freed (hstep : DrainStep hw i k s k' s') : k'.kbufFreed = k.kbufFreed := by
  cases hstep with
  | serve _ _ _ hrun =>
    have h := serveReader_freed hrun
    exact h
  | finish _ _ hrun =>
    have h := fillFromWriter_freed hrun
    exact h
  | refill _ _ hrun =>
    have h := fillFromWriter_freed hrun
    exact h

theorem Drain.freed (hd : Drain hw i k s k' s') : k'.kbufFreed = k.kbufFreed :=
  hd.invariant (I := fun k₁ _ => k₁.kbufFreed = k.kbufFreed)
    (fun _ _ _ _ h hstep => hstep.freed.trans h) rfl

/-- The history of a step, and the table apart from its pipe. -/
theorem DrainStep.effect (h : DrainStep hw i k s k' s') :
    ((∃ r out, k'.pipeHistory = k.pipeHistory ++ [.delivered i r out]) ∨
      ∃ w out, k'.pipeHistory = k.pipeHistory ++ [.accepted i w out]) ∧
    ∀ j, j ≠ i → k'.sync_table j = k.sync_table j := by
  cases h with
  | serve hs hp hpos hrun hc =>
    obtain ⟨hhist, htable⟩ := serveReader_effect hrun
    exact ⟨Or.inl ⟨_, hhist⟩, htable⟩
  | finish hs hp hrun hdone hc =>
    obtain ⟨hhist, htable⟩ := fillFromWriter_effect hrun
    exact ⟨Or.inr ⟨_, hhist⟩, htable⟩
  | refill hs hp hrun hleft hc =>
    obtain ⟨hhist, htable⟩ := fillFromWriter_effect hrun
    exact ⟨Or.inr ⟨_, hhist⟩, htable⟩

/-- The head of the readers is popped and served. -/
theorem Coherent.serve (h : Coherent k s) (hw : Hardware) {r : PcbPtr} {xs : List PcbPtr}
    (hs : s (.wait (.pipeReaders i)) = r :: xs) {pipe : Pipe} (hp : k.pipe i = some pipe)
    (hpos : pipe.bytes_in_buffer > 0) : ∃ q, k.pop (.wait (.pipeReaders i)) =
      some (some r, { k with queues := q }) ∧
      ∀ k₁ k₂, serveReader hw { k with queues := q } i pipe r = some k₁ →
        addToReadyQueue k₁ r = some k₂ → ∃ k₀ q', serveReader hw k i pipe r = some k₀ ∧
          k₂ = { k₀.setState r .processReady with queues := q' } ∧
          DrainStep hw i k s k₂ (woken s (.pipeReaders i) r xs) := by
  obtain ⟨q, hpop, hwake⟩ := h.wake hs
  refine ⟨q, hpop, fun k₁ k₂ hrun hadd => ?_⟩
  rw [serveReader_queues] at hrun
  obtain ⟨k₀, hrun₀, rfl⟩ := Option.map_eq_some_iff.1 hrun
  obtain ⟨hi, hst, hne⟩ := serveReader_frame hrun₀
  obtain ⟨k₃, q', hadd', hk₃, hc⟩ := hwake { k₀ with queues := q } rfl hi
    (fun n hn => congrArg Pcb.state (hne n hn)) hst
  obtain rfl : k₂ = k₃ := Option.some.inj (hadd.symm.trans hadd')
  subst hk₃
  have hstep := DrainStep.serve hs hp hpos hrun₀ hc
  exact ⟨k₀, q', hrun₀, rfl, hstep⟩

/-- The head of the writers is popped and fills the buffer: it is finished, or goes back. -/
theorem Coherent.fill (h : Coherent k s) (hw : Hardware) {w : PcbPtr} {xs : List PcbPtr}
    (hs : s (.wait (.pipeWriters i)) = w :: xs) {pipe : Pipe} (hp : k.pipe i = some pipe) :
    ∃ q, k.pop (.wait (.pipeWriters i)) = some (some w, { k with queues := q }) ∧
      ∀ k₁, fillFromWriter hw { k with queues := q } i pipe w = some k₁ →
        ∃ k₀, fillFromWriter hw k i pipe w = some k₀ ∧ k₁ = { k₀ with queues := q } ∧
        ((k₀.pcb w).write_loc < (k₀.pcb w).pipe_len →
          ∃ q', k₁.insertHead (.wait (.pipeWriters i)) w = some { k₀ with queues := q' } ∧
            DrainStep hw i k s { k₀ with queues := q' } s) ∧
        (¬ (k₀.pcb w).write_loc < (k₀.pcb w).pipe_len → ∀ k₂,
          addToReadyQueue (finishWriter k₁ w) w = some k₂ →
            DrainStep hw i k s k₂ (woken s (.pipeWriters i) w xs)) := by
  obtain ⟨q, hpop, hwake⟩ := h.wake hs
  have hmem : w ∈ s (.wait (.pipeWriters i)) := by simp [hs]
  refine ⟨q, hpop, fun k₁ hrun => ?_⟩
  rw [fillFromWriter_queues] at hrun
  obtain ⟨k₀, hrun₀, rfl⟩ := Option.map_eq_some_iff.1 hrun
  obtain ⟨hi, hst, hne⟩ := fillFromWriter_frame hrun₀
  refine ⟨k₀, hrun₀, rfl, fun hleft => ?_, fun hdone k₂ hadd => ?_⟩
  · obtain ⟨q₁, hpop₁, htr⟩ := h.pop_cons hs
    obtain rfl : q₁ = q := by
      have := hpop₁.symm.trans hpop
      simpa using this
    have htr₀ : InTransit { k₀ with queues := q₁ } _ w :=
      htr.congr rfl hi fun n hn => congrArg Pcb.state (hne n hn)
    obtain ⟨q', hins, hc⟩ := htr₀.insertHead (l := .wait (.pipeWriters i))
      (hst.trans (h.listed _ w hmem)) (fun e => h.idle (.wait (.pipeWriters i)) (by
        have e : w = k₀.idle_process := e
        rwa [← hi, ← e]))
    rw [Function.update_self, Function.update_idem, ← hs, Function.update_eq_self] at hc
    have hstep := DrainStep.refill hs hp hrun₀ hleft hc
    exact ⟨q', hins, hstep⟩
  · obtain ⟨k₃, q', hadd', hk₃, hc⟩ := hwake (finishWriter { k₀ with queues := q } w) rfl hi
      (fun n hn => by
        have : (finishWriter { k₀ with queues := q } w).pcb n = k₀.pcb n := by
          simp [finishWriter, Kernel.modifyPcb, Kernel.setReg0, hn]
        rw [this, hne n hn])
      (by simp [finishWriter, Kernel.modifyPcb, Kernel.setReg0])
    obtain rfl : k₂ = k₃ := Option.some.inj (hadd.symm.trans hadd')
    subst hk₃
    have hstep := DrainStep.finish hs hp hrun₀ hdone hc
    exact hstep

/-- The test that both exits of `SyncDrainWriters` make, with `pipe` as it is then. -/
def WritersExit (hw : Hardware) (i n : Nat) (k : Kernel) (s : QueueId → List PcbPtr) (pipe : Pipe)
    (k' : Kernel) : Prop :=
  (pipe.bytes_in_buffer ≠ 0 ∧ s (.wait (.pipeReaders i)) ≠ [] ∧
    syncDrainReaders hw n k i = some k') ∨
  ((pipe.bytes_in_buffer = 0 ∨ s (.wait (.pipeReaders i)) = []) ∧ k' = k)

theorem writersExit_of_run (hc : Coherent k s) {n : Nat} {pipe : Pipe}
    (h : (if pipe.bytes_in_buffer ≠ 0 ∧ k.count (.wait (.pipeReaders i)) ≠ 0 then
      syncDrainReaders hw n k i else some k) = some k') : WritersExit hw i n k s pipe k' := by
  split at h
  · rename_i hcond
    exact Or.inl ⟨hcond.1, fun hs => hcond.2 (hc.count_eq_zero.2 hs), h⟩
  · rename_i hcond
    refine Or.inr ⟨?_, (Option.some.inj h).symm⟩
    by_contra hne
    rw [not_or] at hne
    exact hcond ⟨hne.1, fun hz => hne.2 (hc.count_eq_zero.1 hz)⟩

/-- One turn of `SyncDrainWriters`. -/
inductive WritersTurn (hw : Hardware) (i n : Nat) (k : Kernel) (s : QueueId → List PcbPtr)
    (k' : Kernel) : Prop where
  | none {pipe : Pipe} (hs : s (.wait (.pipeWriters i)) = []) (hp : k.pipe i = some pipe)
      (hexit : WritersExit hw i n k s pipe k')
  | refill {w : PcbPtr} {xs : List PcbPtr} {pipe pipe' : Pipe} {k₁ : Kernel}
      {q : Heap QueueId PcbPtr} (hs : s (.wait (.pipeWriters i)) = w :: xs)
      (hp : k.pipe i = some pipe) (hrun : fillFromWriter hw k i pipe w = some k₁)
      (hleft : (k₁.pcb w).write_loc < (k₁.pcb w).pipe_len)
      (hstep : DrainStep hw i k s { k₁ with queues := q } s) (hp' : k₁.pipe i = some pipe')
      (hexit : WritersExit hw i n { k₁ with queues := q } s pipe' k')
  | finish {w : PcbPtr} {xs : List PcbPtr} {pipe : Pipe} {k₁ k₂ : Kernel}
      (hs : s (.wait (.pipeWriters i)) = w :: xs) (hp : k.pipe i = some pipe)
      (hrun : fillFromWriter hw k i pipe w = some k₁)
      (hdone : ¬ (k₁.pcb w).write_loc < (k₁.pcb w).pipe_len)
      (hstep : DrainStep hw i k s k₂ (woken s (.pipeWriters i) w xs))
      (hrest : syncDrainWriters hw n k₂ i = some k')

theorem Coherent.writersTurn (hc : Coherent k s) {n : Nat}
    (h : syncDrainWriters hw (n + 1) k i = some k') : WritersTurn hw i n k s k' := by
  rw [syncDrainWriters] at h
  cases hs : s (.wait (.pipeWriters i)) with
  | nil =>
    rw [hc.pop_nil hs] at h
    simp only [Option.bind_eq_bind, Option.bind_some, Option.bind_eq_some_iff] at h
    obtain ⟨pipe, hp, h⟩ := h
    exact .none hs hp (writersExit_of_run hc h)
  | cons w xs =>
    obtain ⟨pipe, hp⟩ : ∃ pipe, k.pipe i = some pipe := by
      obtain ⟨q, hpop, -⟩ := hc.pop_cons hs
      rw [hpop] at h
      simp only [Option.bind_eq_bind, Option.bind_some, Option.bind_eq_some_iff] at h
      obtain ⟨pipe, hp, -⟩ := h
      exact ⟨pipe, hp⟩
    obtain ⟨q, hpop, hfill⟩ := hc.fill hw hs hp
    have hp₁ : ({ k with queues := q } : Kernel).pipe i = some pipe := hp
    rw [hpop] at h
    simp only [Option.bind_eq_bind, Option.bind_some, hp₁, Option.bind_eq_some_iff] at h
    obtain ⟨k₁, hrun, h⟩ := h
    obtain ⟨k₀, hrun₀, rfl, hleft, hdone⟩ := hfill k₁ hrun
    split at h
    · rename_i hlt
      obtain ⟨q', hins, hstep⟩ := hleft hlt
      rw [hins] at h
      simp only [Option.bind_some, Option.bind_eq_some_iff] at h
      obtain ⟨pipe', hp', h⟩ := h
      exact .refill hs hp hrun₀ hlt hstep hp' (writersExit_of_run hstep.coherent h)
    · rename_i hlt
      simp only [Option.bind_eq_some_iff] at h
      obtain ⟨k₂, hadd, h⟩ := h
      exact .finish hs hp hrun₀ hlt (hdone hlt k₂ hadd) h

/-- One turn of `SyncDrainReaders`. -/
inductive ReadersTurn (hw : Hardware) (i n : Nat) (k : Kernel) (s : QueueId → List PcbPtr)
    (k' : Kernel) : Prop where
  | none {pipe : Pipe} (hs : s (.wait (.pipeReaders i)) = []) (hp : k.pipe i = some pipe)
      (heq : k' = k)
  | serve {r : PcbPtr} {xs : List PcbPtr} {pipe : Pipe} {k₁ : Kernel} {q : Heap QueueId PcbPtr}
      (hs : s (.wait (.pipeReaders i)) = r :: xs) (hp : k.pipe i = some pipe)
      (hpos : pipe.bytes_in_buffer > 0) (hrun : serveReader hw k i pipe r = some k₁)
      (hstep : DrainStep hw i k s { k₁.setState r .processReady with queues := q }
        (woken s (.pipeReaders i) r xs))
      (hrest : syncDrainReaders hw n { k₁.setState r .processReady with queues := q } i = some k')
  | empty {pipe : Pipe} (hs : s (.wait (.pipeReaders i)) ≠ []) (hp : k.pipe i = some pipe)
      (hzero : ¬ pipe.bytes_in_buffer > 0) (hrest : syncDrainWriters hw n k i = some k')

theorem Coherent.readersTurn (hc : Coherent k s) {n : Nat}
    (h : syncDrainReaders hw (n + 1) k i = some k') : ReadersTurn hw i n k s k' := by
  rw [syncDrainReaders] at h
  simp only [Option.bind_eq_bind, Option.bind_eq_some_iff] at h
  obtain ⟨pipe, hp, h⟩ := h
  cases hs : s (.wait (.pipeReaders i)) with
  | nil =>
    have hcount : k.count (.wait (.pipeReaders i)) = 0 := hc.count_eq_zero.2 hs
    rw [hc.pop_nil hs] at h
    simp only [Option.bind_some, hcount, ne_eq, not_true_eq_false, and_false, if_false, ite_self,
      Option.some.injEq] at h
    exact .none hs hp h.symm
  | cons r xs =>
    have hcount : k.count (.wait (.pipeReaders i)) ≠ 0 := fun e => by
      rw [hc.count_eq_zero, hs] at e
      cases e
    split at h
    · rename_i hpos
      obtain ⟨q, hpop, hserve⟩ := hc.serve hw hs hp hpos
      rw [hpop] at h
      simp only [Option.bind_some, Option.bind_eq_some_iff] at h
      obtain ⟨k₁, hrun, k₂, hadd, h⟩ := h
      obtain ⟨k₀, q', hrun₀, rfl, hstep⟩ := hserve k₁ k₂ hrun hadd
      exact .serve hs hp hpos hrun₀ hstep h
    · rename_i hzero
      have hlt : pipe.bytes_in_buffer < hw.PIPE_BUFFER_LEN := by
        have := hw.pipe_pos
        omega
      rw [if_pos ⟨hlt, hcount⟩] at h
      exact .empty (by simp [hs]) hp hzero h

/-- When the drain loops end, no reader waits or the buffer is empty. -/
def Drained (k : Kernel) (s : QueueId → List PcbPtr) (i : Nat) : Prop :=
  s (.wait (.pipeReaders i)) = [] ∨ ∀ pipe, k.pipe i = some pipe → pipe.bytes_in_buffer ≤ 0

/-- The drain loops do steps until they are drained. -/
theorem drain_steps (n : Nat) : ∀ k s, Coherent k s →
    (∀ k', syncDrainWriters hw n k i = some k' → ∃ s', Drain hw i k s k' s' ∧ Drained k' s' i) ∧
    (∀ k', syncDrainReaders hw n k i = some k' → ∃ s', Drain hw i k s k' s' ∧ Drained k' s' i) := by
  induction n with
  | zero => exact fun k s _ => ⟨fun k' h => (by cases h), fun k' h => (by cases h)⟩
  | succ n ih =>
    intro k s hc
    have hexit : ∀ k₁ pipe k', Coherent k₁ s → k₁.pipe i = some pipe →
        WritersExit hw i n k₁ s pipe k' → ∃ s', Drain hw i k₁ s k' s' ∧ Drained k' s' i := by
      rintro k₁ pipe k' hc₁ hp (⟨-, -, h⟩ | ⟨hz | hr, rfl⟩)
      · exact (ih k₁ s hc₁).2 k' h
      · refine ⟨s, .refl _ _, Or.inr fun pipe' hp' => ?_⟩
        obtain rfl : pipe = pipe' := Option.some.inj (hp.symm.trans hp')
        omega
      · exact ⟨s, .refl _ _, Or.inl hr⟩
    constructor
    · intro k' h
      cases hc.writersTurn h with
      | none hs hp hex => exact hexit k _ k' hc hp hex
      | refill hs hp hrun hleft hstep hp' hex =>
        obtain ⟨s', hd, hdr⟩ := hexit _ _ k' hstep.coherent hp' hex
        exact ⟨s', .head hstep hd, hdr⟩
      | finish hs hp hrun hdone hstep hrest =>
        obtain ⟨s', hd, hdr⟩ := (ih _ _ hstep.coherent).1 k' hrest
        exact ⟨s', .head hstep hd, hdr⟩
    · intro k' h
      cases hc.readersTurn h with
      | none hs hp heq => exact ⟨s, heq ▸ .refl _ _, Or.inl hs⟩
      | serve hs hp hpos hrun hstep hrest =>
        obtain ⟨s', hd, hdr⟩ := (ih _ _ hstep.coherent).2 k' hrest
        exact ⟨s', .head hstep hd, hdr⟩
      | empty hs hp hzero hrest => exact (ih k s hc).1 k' hrest

/-- Without a reader, `SyncDrainReaders` does nothing. -/
theorem Coherent.drainReaders_nil (hc : Coherent k s) (hs : s (.wait (.pipeReaders i)) = [])
    (h : syncDrainReaders hw n k i = some k') : k' = k := by
  cases n with
  | zero => cases h
  | succ n =>
    cases hc.readersTurn h with
    | none hs hp heq => exact heq
    | serve hs' => simp [hs] at hs'
    | empty hs' => exact absurd hs hs'

/-! ## What a drain leaves alone -/

/-- Nobody joins a wait list. -/
theorem Drain.sub (hd : Drain hw i k s k' s') {v : WaitList} {p : PcbPtr} (hp : p ∈ s' (.wait v)) :
    p ∈ s (.wait v) := by
  induction hd with
  | refl => exact hp
  | head hstep _ ih =>
    cases hstep with
    | serve hs => exact mem_of_mem_woken hs (ih hp)
    | finish hs => exact mem_of_mem_woken hs (ih hp)
    | refill => exact ih hp

theorem Drain.nil (hd : Drain hw i k s k' s') {v : WaitList} (hs : s (.wait v) = []) :
    s' (.wait v) = [] :=
  List.eq_nil_iff_forall_not_mem.2 fun p hp => by simpa [hs] using hd.sub hp

/-- The other pipes do not notice. -/
theorem Drain.other (hd : Drain hw i k s k' s') (hj : j ≠ i) : k'.pipe j = k.pipe j ∧
    ∀ v : WaitList, v.slot = j → s' (.wait v) = s (.wait v) := by
  induction hd with
  | refl => exact ⟨rfl, fun _ _ => rfl⟩
  | @head k k₁ k' s s₁ s' hstep _ ih =>
    have hpipe : k₁.pipe j = k.pipe j := by
      rw [Kernel.pipe, hstep.effect.2 j hj, Kernel.pipe]
    have hlist : ∀ v : WaitList, v.slot = j → s₁ (.wait v) = s (.wait v) := by
      intro v hv
      have hr : v ≠ .pipeReaders i := fun e => hj (by rw [← hv, e]; rfl)
      have hw : v ≠ .pipeWriters i := fun e => hj (by rw [← hv, e]; rfl)
      cases hstep with
      | serve => exact woken_ne hr
      | finish => exact woken_ne hw
      | refill => rfl
    exact ⟨ih.1.trans hpipe, fun v hv => (ih.2 v hv).trans (hlist v hv)⟩

end Yalnix
