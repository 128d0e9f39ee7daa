import Yalnix.Proofs.PipeShape

/-!
# The drain loops end

At a pipe in shape the two loops end within `drainTurns`, and who waited there still waits or is ready.
-/

namespace Yalnix

open Intrusive Transition

variable {hw : Hardware} {k k' : Kernel} {s s' : QueueId → List PcbPtr} {i n : Nat}

/-! ## One turn -/

/-- The exit of `SyncDrainWriters`, for any number of turns left. -/
theorem writers_exit (hc : Coherent k s) (pipe : Pipe) (n : Nat) :
    (if pipe.bytes_in_buffer ≠ 0 ∧ k.count (.wait (.pipeReaders i)) ≠ 0 then
      syncDrainReaders hw n k i else some k) =
    if pipe.bytes_in_buffer ≠ 0 ∧ s (.wait (.pipeReaders i)) ≠ [] then
      syncDrainReaders hw n k i else some k := by
  simp only [ne_eq, hc.count_eq_zero]

/-- Without a writer, `SyncDrainWriters` goes to its exit. -/
theorem writersTurn_nil (hc : Coherent k s) (hs : s (.wait (.pipeWriters i)) = []) {pipe : Pipe}
    (hp : k.pipe i = some pipe) (n : Nat) : syncDrainWriters hw (n + 1) k i =
      if pipe.bytes_in_buffer ≠ 0 ∧ s (.wait (.pipeReaders i)) ≠ [] then
        syncDrainReaders hw n k i else some k := by
  rw [syncDrainWriters, hc.pop_nil hs]
  simp only [Option.bind_eq_bind, Option.bind_some, hp]
  exact writers_exit hc pipe n

/-- With a writer, it does a step: the writer leaves, or stays at a buffer that has bytes. -/
theorem writersTurn_cons (hc : Coherent k s) (h : PipeShape hw k s i) {w : PcbPtr} {xs : List PcbPtr}
    (hs : s (.wait (.pipeWriters i)) = w :: xs) {pipe : Pipe} (hp : k.pipe i = some pipe) :
    (∃ k₁, DrainStep hw i k s k₁ (woken s (.pipeWriters i) w xs) ∧
      ∀ n, syncDrainWriters hw (n + 1) k i = syncDrainWriters hw n k₁ i) ∨
    ∃ k₁ pipe₁, DrainStep hw i k s k₁ s ∧ k₁.pipe i = some pipe₁ ∧
      pipe₁.bytes_in_buffer > 0 ∧
      ∀ n, syncDrainWriters hw (n + 1) k i = if s (.wait (.pipeReaders i)) ≠ [] then
        syncDrainReaders hw n k₁ i else some k₁ := by
  obtain ⟨k₁, out, hrun, hout, hat⟩ := h.poured (w := w) (by simp [hs]) hp
  obtain ⟨q, hpop, hfill⟩ := hc.fill hw hs hp
  have hrunq : fillFromWriter hw { k with queues := q } i pipe w = _ := fillFromWriter_queues q pipe w
  rw [hrun, Option.map_some] at hrunq
  obtain ⟨k₀, hrun₀, hk₀, hleft, hdone⟩ := hfill _ hrunq
  obtain rfl : k₁ = k₀ := Option.some.inj (hrun.symm.trans hrun₀)
  have hpq : ({ k with queues := q } : Kernel).pipe i = some pipe := hp
  by_cases hlt : (k₁.pcb w).write_loc < (k₁.pcb w).pipe_len
  · right
    obtain ⟨q', hins, hstep⟩ := hleft hlt
    have hp₁ : ({ k₁ with queues := q' } : Kernel).pipe i = some (pipe.putAll hw out) := hat.object
    have hpos : (pipe.putAll hw out).bytes_in_buffer > 0 := by
      rw [hat.pcb] at hlt
      rw [putAll_bytes]
      have := hw.pipe_pos
      unfold pours at *
      simp only at hlt
      omega
    refine ⟨_, _, hstep, hp₁, hpos, fun n => ?_⟩
    have hne : (pipe.putAll hw out).bytes_in_buffer ≠ 0 := by omega
    rw [syncDrainWriters, hpop]
    simp only [Option.bind_eq_bind, Option.bind_some, hpq, hrunq, if_pos hlt, hins, hp₁]
    rw [writers_exit hstep.coherent (pipe.putAll hw out) n]
    simp only [hne, ne_eq, not_false_eq_true, true_and]
  · left
    obtain ⟨q₁, hpop₁, hwake⟩ := hc.wake hs
    obtain rfl : q₁ = q := by
      have := hpop₁.symm.trans hpop
      simpa using this
    obtain ⟨hidle, hst, hne⟩ := fillFromWriter_frame hrun
    obtain ⟨k₂, q', hadd, -, -⟩ := hwake (finishWriter { k₁ with queues := q₁ } w) rfl hidle
      (fun m hm => by
        have : (finishWriter { k₁ with queues := q₁ } w).pcb m = k₁.pcb m := by
          simp [finishWriter, Kernel.modifyPcb, Kernel.setReg0, hm]
        rw [this, hne m hm])
      (by simp [finishWriter, Kernel.modifyPcb, Kernel.setReg0])
    refine ⟨k₂, hdone hlt k₂ hadd, fun n => ?_⟩
    rw [syncDrainWriters, hpop]
    simp only [Option.bind_eq_bind, Option.bind_some, hpq, hrunq, if_neg hlt, hadd]

/-- Without a reader, `SyncDrainReaders` does nothing. -/
theorem readersTurn_nil (hc : Coherent k s) (hs : s (.wait (.pipeReaders i)) = []) {pipe : Pipe}
    (hp : k.pipe i = some pipe) (n : Nat) : syncDrainReaders hw (n + 1) k i = some k := by
  have hcount : k.count (.wait (.pipeReaders i)) = 0 := hc.count_eq_zero.2 hs
  rw [syncDrainReaders]
  simp [hp, hc.pop_nil hs, hcount]

/-- With a reader and bytes, the reader is served. -/
theorem readersTurn_cons (hc : Coherent k s) (h : PipeShape hw k s i) {r : PcbPtr} {xs : List PcbPtr}
    (hs : s (.wait (.pipeReaders i)) = r :: xs) {pipe : Pipe} (hp : k.pipe i = some pipe)
    (hpos : pipe.bytes_in_buffer > 0) :
    ∃ k₁, DrainStep hw i k s k₁ (woken s (.pipeReaders i) r xs) ∧
      ∀ n, syncDrainReaders hw (n + 1) k i = syncDrainReaders hw n k₁ i := by
  obtain ⟨k₁, out, hrun, -, -⟩ := h.served (r := r) (by simp [hs]) hp
  obtain ⟨q, hpop, hserve⟩ := hc.serve hw hs hp hpos
  have hrunq : serveReader hw { k with queues := q } i pipe r = _ := serveReader_queues q pipe r
  rw [hrun, Option.map_some] at hrunq
  obtain ⟨q₁, hpop₁, hwake⟩ := hc.wake hs
  obtain rfl : q₁ = q := by
    have := hpop₁.symm.trans hpop
    simpa using this
  obtain ⟨hidle, hst, hne⟩ := serveReader_frame hrun
  obtain ⟨k₂, q', hadd, -, -⟩ := hwake { k₁ with queues := q₁ } rfl hidle
    (fun m hm => congrArg Pcb.state (hne m hm)) hst
  obtain ⟨_, _, _, -, hstep⟩ := hserve _ k₂ hrunq hadd
  refine ⟨k₂, hstep, fun n => ?_⟩
  rw [syncDrainReaders]
  simp only [Option.bind_eq_bind, Option.bind_some, hp, hpos, if_true, hpop, hrunq, hadd]

/-- With a reader and no bytes, it is the turn of the writers. -/
theorem readersTurn_empty (hc : Coherent k s) (hs : s (.wait (.pipeReaders i)) ≠ []) {pipe : Pipe}
    (hp : k.pipe i = some pipe) (hzero : ¬ pipe.bytes_in_buffer > 0) (n : Nat) :
    syncDrainReaders hw (n + 1) k i = syncDrainWriters hw n k i := by
  have hcount : k.count (.wait (.pipeReaders i)) ≠ 0 := fun e => hs (hc.count_eq_zero.1 e)
  have hlt : pipe.bytes_in_buffer < hw.PIPE_BUFFER_LEN := by
    have := hw.pipe_pos
    omega
  rw [syncDrainReaders]
  simp [hp, hzero, hlt, hcount]

/-! ## All turns -/

theorem DrainStep.pipe (hstep : DrainStep hw i k s k' s') (h : PipeShape hw k s i) :
    ∃ pipe, k'.pipe i = some pipe := by
  cases hstep.cases h with
  | serve hs hp hpos hout hat => exact ⟨_, hat.object⟩
  | finish hs hp hout hdone hat => exact ⟨_, hat.object⟩
  | refill hs hp hout hleft hat => exact ⟨_, hat.object⟩

/-- A reader costs three turns at most, one to be served and two to refill the buffer; a writer costs
one when it leaves. -/
theorem drain_ends (m : Nat) : ∀ k s, Coherent k s → PipeShape hw k s i →
    ∀ pipe, k.pipe i = some pipe →
    (3 * (s (.wait (.pipeReaders i))).length + (s (.wait (.pipeWriters i))).length + 2 ≤ m →
      ∃ k', ∀ n, m ≤ n → syncDrainWriters hw n k i = some k') ∧
    (3 * (s (.wait (.pipeReaders i))).length + (s (.wait (.pipeWriters i))).length + 3 ≤ m ∨
      pipe.bytes_in_buffer > 0 ∧
        3 * (s (.wait (.pipeReaders i))).length + (s (.wait (.pipeWriters i))).length + 1 ≤ m →
      ∃ k', ∀ n, m ≤ n → syncDrainReaders hw n k i = some k') := by
  induction m with
  | zero => exact fun k s _ _ pipe _ => ⟨fun h => by omega, fun h => by omega⟩
  | succ m ih =>
    intro k s hc h pipe hp
    -- a result for at least `m` turns of what follows is one for at least `m + 1` turns
    have key : ∀ (f g : Nat → Option Kernel), (∀ n, f (n + 1) = g n) →
        (∃ k', ∀ n, m ≤ n → g n = some k') → ∃ k', ∀ n, m + 1 ≤ n → f n = some k' := by
      rintro f g hfg ⟨k', hk'⟩
      refine ⟨k', fun n hn => ?_⟩
      obtain ⟨n, rfl⟩ : ∃ n', n = n' + 1 := ⟨n - 1, by omega⟩
      rw [hfg]
      exact hk' n (by omega)
    have hexit : ∀ k₁ pipe₁ (P : Prop) [Decidable P], Coherent k₁ s → PipeShape hw k₁ s i →
        k₁.pipe i = some pipe₁ → (P → pipe₁.bytes_in_buffer > 0) →
        3 * (s (.wait (.pipeReaders i))).length + (s (.wait (.pipeWriters i))).length + 1 ≤ m →
        ∃ k', ∀ n, m ≤ n → (if P then syncDrainReaders hw n k₁ i else some k₁) = some k' := by
      intro k₁ pipe₁ P _ hc₁ h₁ hp₁ hpos hm
      by_cases hP : P
      · simp only [if_pos hP]
        exact (ih k₁ s hc₁ h₁ pipe₁ hp₁).2 (Or.inr ⟨hpos hP, hm⟩)
      · exact ⟨k₁, fun n _ => if_neg hP⟩
    constructor
    · intro hm
      cases hs : s (.wait (.pipeWriters i)) with
      | nil =>
        refine key _ _ (writersTurn_nil hc hs hp) (hexit k pipe _ hc h hp (fun hcond => ?_) (by omega))
        have := (h.sound pipe hp).nonneg
        have := hcond.1
        omega
      | cons w xs =>
        rw [hs, List.length_cons] at hm
        rcases writersTurn_cons hc h hs hp with ⟨k₁, hstep, hturn⟩ |
          ⟨k₁, pipe₁, hstep, hp₁, hpos, hturn⟩
        · obtain ⟨pipe₁, hp₁⟩ := hstep.pipe h
          refine key _ _ hturn ((ih k₁ _ hstep.coherent (h.drainStep h hc hstep) pipe₁ hp₁).1 ?_)
          rw [woken_ne (by simp), woken_self]
          omega
        · exact key _ _ hturn (hexit k₁ pipe₁ _ hstep.coherent (h.drainStep h hc hstep) hp₁
            (fun _ => hpos) (by rw [hs, List.length_cons]; omega))
    · intro hm
      cases hs : s (.wait (.pipeReaders i)) with
      | nil => exact key _ (fun _ => some k) (readersTurn_nil hc hs hp) ⟨k, fun _ _ => rfl⟩
      | cons r xs =>
        rw [hs, List.length_cons] at hm
        by_cases hpos : pipe.bytes_in_buffer > 0
        · obtain ⟨k₁, hstep, hturn⟩ := readersTurn_cons hc h hs hp hpos
          obtain ⟨pipe₁, hp₁⟩ := hstep.pipe h
          refine key _ _ hturn ((ih k₁ _ hstep.coherent (h.drainStep h hc hstep) pipe₁ hp₁).2
            (Or.inl ?_))
          rw [woken_self, woken_ne (by simp)]
          omega
        · refine key _ _ (readersTurn_empty hc (by simp [hs]) hp hpos) ((ih k s hc h pipe hp).1 ?_)
          rw [hs, List.length_cons]
          omega

/-! ## Who waited -/

theorem Parted.refl (i : Nat) (k : Kernel) (s : QueueId → List PcbPtr) : Parted i k s k s :=
  ⟨[], [], [], rfl, rfl, by simp, .refl _, fun _ _ => rfl,
    fun w _ => ⟨(k.pcb w).write_loc, rfl, le_rfl, Or.inl rfl⟩, fun _ _ => rfl, fun _ _ _ _ => rfl⟩

theorem Advanced.trans {a b c : Pcb} (h : Advanced a b) (h' : Advanced b c) : Advanced a c := by
  obtain ⟨loc, rfl, hle, hcase⟩ := h
  obtain ⟨loc', rfl, hle', hcase'⟩ := h'
  refine ⟨loc', rfl, le_trans hle hle', ?_⟩
  rcases hcase' with rfl | hlt
  · exact hcase
  · exact Or.inr hlt

theorem Parted.trans {k₁ : Kernel} {s₁ : QueueId → List PcbPtr} (h : Parted i k s k₁ s₁)
    (h' : Parted i k₁ s₁ k' s') : Parted i k s k' s' := by
  obtain ⟨rs, ws, ps, hr, hw, hp, hperm, hreader, hhead, htail, hother⟩ := h
  obtain ⟨rs', ws', ps', hr', hw', hp', hperm', hreader', hhead', htail', hother'⟩ := h'
  refine ⟨rs ++ rs', ws ++ ws', ps ++ ps', ?_, ?_, ?_, ?_, fun r hmem => ?_, fun w hmem => ?_,
    fun w hmem => ?_, fun l h1 h2 h3 => ?_⟩
  · rw [hr, hr', List.append_assoc]
  · rw [hw, hw', List.append_assoc]
  · rw [hp', hp, List.append_assoc]
  · have hswap : (rs ++ ((ws ++ rs') ++ ws')).Perm (rs ++ ((rs' ++ ws) ++ ws')) :=
      (List.perm_append_comm.append_right _).append_left _
    simpa using (hperm.append hperm').trans (by simpa using hswap)
  · rw [hreader' r hmem]
    exact hreader r (by simp [hr', hmem])
  · cases hws : ws' with
    | nil =>
      have hsame : s₁ (.wait (.pipeWriters i)) = s' (.wait (.pipeWriters i)) := by simp [hw', hws]
      exact (hhead w (hsame ▸ hmem)).trans (hhead' w hmem)
    | cons a as =>
      -- the first writers have left, so `w` was not the first one
      have hmem' : w ∈ (s₁ (.wait (.pipeWriters i))).tail := by
        have := List.mem_of_mem_head? hmem
        simp [hw', hws, this]
      rw [← htail w hmem']
      exact hhead' w hmem
  · rw [htail' w hmem]
    refine htail w ?_
    have := List.mem_of_mem_tail hmem
    cases ws' <;> simp [hw', hmem, this]
  · rw [hother' l h1 h2 h3, hother l h1 h2 h3]

/-- A step wakes a reader or a writer, or lets the first writer go on. -/
theorem DrainStep.parted (hstep : DrainStep hw i k s k' s') (h : PipeShape hw k s i)
    (hc : Coherent k s) : Parted i k s k' s' := by
  have hne : ∀ r w, r ∈ s (.wait (.pipeReaders i)) → w ∈ s (.wait (.pipeWriters i)) → r ≠ w := by
    rintro r w hr hw rfl
    have := hc.unique hr hw
    simp at this
  cases hstep.cases h with
  | @serve r xs pipe out hs hp hpos hout hat =>
    have hsame : ∀ p, p ≠ r → k'.pcb p = k.pcb p := hat.others
    have hwriters : woken s (.pipeReaders i) r xs (.wait (.pipeWriters i)) =
        s (.wait (.pipeWriters i)) := woken_ne (by simp)
    have hwriter : ∀ w ∈ s (.wait (.pipeWriters i)), k'.pcb w = k.pcb w := fun w hmem =>
      hsame w (hne r w (by simp [hs]) hmem).symm
    refine ⟨[r], [], [r], by simp [hs], by simp [hwriters], by simp, .refl _, fun p hp => ?_,
      fun w hmem => ?_, fun w hmem => ?_, fun l h1 h2 h3 => ?_⟩
    · exact hsame p (ne_of_mem_woken hc hs hp)
    · rw [hwriters] at hmem
      rw [hwriter w (List.mem_of_mem_head? hmem)]
      exact ⟨_, rfl, le_rfl, Or.inl rfl⟩
    · rw [hwriters] at hmem
      exact hwriter w (List.mem_of_mem_tail hmem)
    · simp [woken, h1, h2]
  | @finish w xs pipe out hs hp hout hdone hat =>
    have hreaders : woken s (.pipeWriters i) w xs (.wait (.pipeReaders i)) =
        s (.wait (.pipeReaders i)) := woken_ne (by simp)
    have hwriter : ∀ p ∈ xs, k'.pcb p = k.pcb p := fun p hp =>
      hat.others p (ne_of_mem_woken hc hs (v := .pipeWriters i) (by simpa using hp))
    refine ⟨[], [w], [w], by simp [hreaders], by simp [hs], by simp, .refl _, fun r hr => ?_,
      fun p hmem => ?_, fun p hmem => ?_, fun l h1 h2 h3 => ?_⟩
    · rw [hreaders] at hr
      exact hat.others r (hne r w hr (by simp [hs]))
    · rw [woken_self] at hmem
      rw [hwriter p (List.mem_of_mem_head? hmem)]
      exact ⟨_, rfl, le_rfl, Or.inl rfl⟩
    · rw [woken_self] at hmem
      exact hwriter p (List.mem_of_mem_tail hmem)
    · simp [woken, h1, h3]
  | @refill w xs pipe out hs hp hout hleft hat =>
    have hnodup := hc.rep.nodup (.wait (.pipeWriters i))
    rw [hs, List.nodup_cons] at hnodup
    refine ⟨[], [], [], by simp, by simp, by simp, .refl _, fun r hr => ?_, fun p hmem => ?_,
      fun p hmem => ?_, fun _ _ _ _ => rfl⟩
    · exact hat.others r (hne r w hr (by simp [hs]))
    · obtain rfl : w = p := by simpa [hs] using hmem
      exact ⟨_, hat.pcb, by omega, Or.inr hleft⟩
    · rw [hs, List.tail_cons] at hmem
      exact hat.others p fun e => hnodup.1 (e ▸ hmem)

theorem Drain.parted (hd : Drain hw i k s k' s') (h : PipeShape hw k s i) (hc : Coherent k s) :
    Parted i k s k' s' := by
  induction hd with
  | refl => exact .refl i _ _
  | head hstep _ ih =>
    exact (hstep.parted h hc).trans (ih (h.drainStep h hc hstep) hstep.coherent)

/-! ## The loops -/

/-- Whatever the turns, a result of a drain loop is that of a drain. -/
theorem DrainLoop.drain {loop : DrainLoop} (hc : Coherent k s)
    (hrun : loop.run hw n k i = some k') : ∃ s', Drain hw i k s k' s' ∧ Drained k' s' i := by
  cases loop with
  | writers => exact (drain_steps n k s hc).1 k' hrun
  | readers => exact (drain_steps n k s hc).2 k' hrun

theorem drainTurns_eq (hc : Coherent k s) : drainTurns k i =
    4 * ((s (.wait (.pipeReaders i))).length + (s (.wait (.pipeWriters i))).length) + 4 := by
  rw [drainTurns, hc.count, hc.count, Int.toNat_natCast, Int.toNat_natCast]

/-- Each loop ends, and more turns change nothing. -/
theorem PipeShape.ends (h : PipeShape hw k s i) (hc : Coherent k s) {pipe : Pipe}
    (hp : k.pipe i = some pipe) (loop : DrainLoop) :
    ∃ k', ∀ n, drainTurns k i ≤ n → loop.run hw n k i = some k' := by
  have hturns := drainTurns_eq (i := i) hc
  obtain ⟨hwriters, hreaders⟩ := drain_ends (drainTurns k i) k s hc h pipe hp
  cases loop with
  | writers => exact hwriters (by omega)
  | readers => exact hreaders (Or.inl (by omega))

/-- Draining ends at every pipe in shape, whatever waits there and whatever is in the buffer, and loses
nobody: who waited still waits, in order, with at most the first writer advanced, or is ready, once. -/
theorem drain_conserves (hc : Coherent k k.queue) (h : PipeShape hw k k.queue i) {pipe : Pipe}
    (hp : k.pipe i = some pipe) (loop : DrainLoop) :
    ∃ k', (∀ n, drainTurns k i ≤ n → loop.run hw n k i = some k') ∧ Coherent k' k'.queue ∧
      PipeShape hw k' k'.queue i ∧ Parted i k k.queue k' k'.queue := by
  obtain ⟨k', hk'⟩ := h.ends hc hp loop
  obtain ⟨s', hd, -⟩ := DrainLoop.drain hc (hk' _ le_rfl)
  have hc' := hd.coherent hc
  refine ⟨k', hk', ?_⟩
  rw [hc'.queue_eq]
  exact ⟨hc', h.drain h hc hd, hd.parted h hc⟩

/-- The writers `102` and `103` have one byte left each. -/
def fullPipeEvents : List SyncEvent :=
  [.schedule .sysLockAcquire, .call 102 (.initPipe 8 true fun _ => 0), .call 102 (.writePipe 0 1 3),
    .call 103 (.writePipe 0 2 1)]

def fullPipeKernel : Kernel :=
  ((syncMachine .small).exec Boot.smallProcesses fullPipeEvents).get (by decide)

/-- The process `101` has taken the two bytes that were in the buffer. -/
def takenKernel : Kernel :=
  readNow .small { fullPipeKernel with current_process := 101 } 0
    ((fullPipeKernel.pipe 0).get (by decide)) 0 2 2

theorem drain_conserves_small : takenKernel.queue (.wait (.pipeWriters 0)) = [102, 103] ∧ ∃ k',
    syncDrainWriters .small (drainTurns takenKernel 0) takenKernel 0 = some k' ∧
    Parted 0 takenKernel takenKernel.queue k' k'.queue := by
  have hrun : Run (syncMachine .small) PipeCall Boot.smallProcesses _ fullPipeKernel :=
    Boot.smallProcesses_syncStart.pipeExec (fun _ _ => id) (Option.some_get _).symm (by decide +kernel)
  obtain ⟨s, hinv, -⟩ := pipeRun Boot.smallProcesses_syncStart hrun
  have hcall : (syncMachine .small).enabled fullPipeKernel (.call 101 (.readPipe 0 0 2)) :=
    hinv.coherent.enabled (by decide)
  have hfree : ∀ l, 101 ∉ s l := hinv.coherent.offQueues_iff.1 hcall.1
  have hbuf : ∀ j, ∀ w ∈ s (.wait (.pipeWriters j)), (fullPipeKernel.pcb w).pipe_buffer ≠ some 0 :=
    hinv.of_slots (fun _ => rfl) (by decide +kernel)
  have htaken : PipesInv .small takenKernel s :=
    (hinv.setCurrent 101).readNow hfree (Option.some_get _).symm (by decide) hbuf
  obtain rfl := htaken.coherent.queue_eq
  obtain ⟨pipe, hp⟩ : ∃ pipe, takenKernel.pipe 0 = some pipe := Option.isSome_iff_exists.1 (by decide)
  obtain ⟨k', hk', -, -, hparted⟩ := drain_conserves htaken.coherent (htaken.shape 0) hp .writers
  exact ⟨by decide, k', hk' _ le_rfl, hparted⟩

end Yalnix
