import Yalnix.Proofs.CallStep

/-!
# Waiting ids

A process that waits for an object is on a wait list of that object, so `SyncReclaim` strands exactly
those who wait for the object it frees.
-/

namespace Yalnix

open Intrusive Transition

variable {hw : Hardware} {k k' k₀ : Kernel} {s s' : QueueId → List PcbPtr} {e : CallEvent}
  {p : PcbPtr} {T : WaitList → Prop} {t : List (Kernel × CallEvent)}

/-- The waiting ids of a process name the object on whose wait list it is. -/
def IdInv (k : Kernel) (s : QueueId → List PcbPtr) : Prop :=
  ∀ n, k.allocated n = true → ∀ y, (k.pcb n).waitingId y = -1 ∨
    ∃ w : WaitList, w.type = y ∧ (k.pcb n).waitingId y = w.slot ∧ n ∈ s (.wait w)

/-- A process on no wait list waits for nothing. -/
theorem IdInv.free (h : IdInv k s) {n : PcbPtr} (halloc : k.allocated n = true)
    (hoff : ∀ w, n ∉ s (.wait w)) (y : SyncType) : (k.pcb n).waitingId y = -1 := by
  rcases h n halloc y with hid | ⟨w, -, -, hn⟩
  · exact hid
  · exact absurd hn (hoff w)

/-- What `h` says of the process `n` stays true when its ids stay and its wait list stays. -/
theorem IdInv.keep (h : IdInv k s) {n : PcbPtr} (halloc : k.allocated n = true)
    (hids : ∀ y, (k'.pcb n).waitingId y = (k.pcb n).waitingId y)
    (hs : ∀ w, n ∈ s (.wait w) → n ∈ s' (.wait w)) (y : SyncType) :
    (k'.pcb n).waitingId y = -1 ∨
      ∃ w : WaitList, w.type = y ∧ (k'.pcb n).waitingId y = w.slot ∧ n ∈ s' (.wait w) := by
  rw [hids y]
  rcases h n halloc y with hid | ⟨w, hw, hid, hn⟩
  · exact Or.inl hid
  · exact Or.inr ⟨w, hw, hid, hs w hn⟩

theorem IdInv.move (h : IdInv k s) (hc : Coherent k s) (halloc : k.allocated p = true)
    (hmove : SyncMove p T k s k' s') : IdInv k' s' := by
  intro n hn
  rw [hmove.frame.allocated] at hn
  cases hmove with
  | own htouch hoff hids =>
    by_cases e : n = p
    · subst e
      exact h.keep hn hids fun _ => id
    · exact h.keep hn (fun y => by rw [htouch.others n e]) fun _ => id
  | @block w htouch hoff hT hids =>
    by_cases e : n = p
    · subst e
      intro y
      rw [hids y]
      by_cases hy : y = w.type
      · exact Or.inr ⟨w, hy.symm, by rw [if_pos hy], by simp⟩
      · rw [if_neg hy]
        exact Or.inl (h.free hn (fun v => hoff _) y)
    · refine h.keep hn (fun y => by rw [htouch.others n e]) fun v hv => ?_
      by_cases ev : v = w
      · subst ev
        simp [hv]
      · rwa [Function.update_of_ne (by simpa using ev)]
  | @wake w q xs htouch hs hT hids =>
    by_cases e : n = q
    · subst e
      intro y
      rw [hids y]
      refine Or.inl ?_
      split
      · rfl
      · rename_i hy
        rcases h n hn y with hid | ⟨v, hv, -, hmem⟩
        · exact hid
        · -- the list that it leaves is the only one it is on
          have ev := hc.unique hmem (show n ∈ s (.wait w) by simp [hs])
          exact absurd (by rw [← hv, QueueId.wait.inj ev]) hy
    · refine h.keep hn (fun y => by rw [htouch.others n e]) fun v hv => ?_
      by_cases ev : v = w
      · subst ev
        rw [hs, List.mem_cons] at hv
        rw [woken_self]
        exact hv.resolve_left e
      · rwa [woken_ne ev]
  | @refill w q htouch hq hids =>
    by_cases e : n = q
    · subst e
      exact h.keep hn hids fun _ => id
    · exact h.keep hn (fun y => by rw [htouch.others n e]) fun _ => id

theorem IdInv.moves (h : IdInv k s) (hc : Coherent k s) (halloc : k.allocated p = true)
    (hmoves : SyncMoves p T k s k' s') : IdInv k' s' := by
  induction hmoves with
  | refl => exact h
  | head hmove _ ih =>
    exact ih (h.move hc halloc hmove) hmove.coherent (by rw [hmove.frame.allocated]; exact halloc)

theorem Released.ids {status : Int} {k₁ : Kernel} (h : Released hw k status k₁) (n : PcbPtr)
    (y : SyncType) : (k₁.pcb n).waitingId y = (k.pcb n).waitingId y := by
  by_cases e : n = k.current_process
  · obtain ⟨parent, -, hpcb⟩ := h.current
    rw [e, hpcb]
    cases y <;> rfl
  · rcases h.other n e with hpcb | hpcb
    · rw [hpcb]
    · rw [hpcb]
      cases y <;> rfl

theorem Released.sub {status : Int} {k₁ : Kernel} (h : Released hw k status k₁) {n : PcbPtr}
    (ha : k₁.allocated n = true) : k.allocated n = true := by
  rcases h.allocated n with e | ⟨-, -, e⟩ <;> rw [e] at ha
  · exact ha
  · cases ha

/-- A step beside the calls of `sync.c` leaves waiting ids and wait lists alone; a new process waits for
nothing. -/
theorem CallCase.ids (hcase : CallCase hw k s e k' s') (hsync : ∀ p c, e ≠ .sync p c) (n : PcbPtr) :
    ((∀ y, (k'.pcb n).waitingId y = -1) ∧ ∃ p u, e = .handler p u (.fork n)) ∨
      ((∀ y, (k'.pcb n).waitingId y = (k.pcb n).waitingId y) ∧
        (k'.allocated n = true → k.allocated n = true)) := by
  cases hcase with
  | sync => exact absurd rfl (hsync _ _)
  | quiet => exact Or.inr ⟨fun _ => rfl, id⟩
  | @refork p child u =>
    refine Or.inr ⟨fun y => ?_, id⟩
    by_cases e : n = p
    · subst e
      cases y <;> simp [Pcb.waitingId, Kernel.returnValue, Kernel.modifyPcb, Kernel.enter]
    · simp [Kernel.returnValue, Kernel.modifyPcb, Kernel.enter, e]
  | @fork p child u m pt stack family q hoff hfresh =>
    by_cases e : n = child
    · subst e
      refine Or.inl ⟨fun y => ?_, p, u, rfl⟩
      cases y <;> simp [Pcb.waitingId, forked, createPcb]
    · exact Or.inr ⟨fun y => by simp [forked, Kernel.enter, e],
        fun h => by simpa [forked, createPcb, Kernel.enter, e] using h⟩
  | @delays p u q =>
    refine Or.inr ⟨fun y => ?_, id⟩
    by_cases e : n = p
    · subst e
      cases y <;> simp [Pcb.waitingId, delaying, Kernel.enter]
    · simp [delaying, Kernel.enter, e]
  | @waits p u kstatus_ptr q =>
    refine Or.inr ⟨fun y => ?_, id⟩
    by_cases e : n = p
    · subst e
      cases y <;> simp [Pcb.waitingId, waitingForChild, Kernel.enter]
    · simp [waitingForChild, Kernel.enter, e]
  | @reaps p z u kstatus_ptr q =>
    refine Or.inr ⟨fun y => ?_, fun h => ?_⟩
    · by_cases e : n = z
      · subst e
        cases y <;> simp [Pcb.waitingId, reaped, Kernel.enter]
      · simp [reaped, Kernel.enter, e]
    · by_cases e : n = z
      · subst e
        simp [reaped] at h
      · simpa [reaped, Kernel.enter, e] using h
  | @dies p u k₁ q hrel =>
    refine Or.inr ⟨fun y => ?_, fun h => hrel.sub h⟩
    rw [show (k.pcb n).waitingId y = (k₁.pcb n).waitingId y from (hrel.ids n y).symm]
    by_cases e : n = p
    · subst e
      cases y <;> simp [Pcb.waitingId, Kernel.callSchedule, Kernel.setState, Kernel.modifyPcb]
    · simp [Kernel.callSchedule, Kernel.setState, Kernel.modifyPcb, e]
  | @notifies p parent u k₁ q st s' hrel =>
    refine Or.inr ⟨fun y => ?_, fun h => hrel.sub ?_⟩
    · rw [show (k.pcb n).waitingId y = (k₁.pcb n).waitingId y from (hrel.ids n y).symm]
      by_cases e : n = parent
      · subst e
        cases y <;> simp [Pcb.waitingId, Kernel.callSchedule, notified]
      · simp [Kernel.callSchedule, notified, e]
    · by_cases e : n = p
      · subst e
        simp [Kernel.callSchedule, notified] at h
      · simpa [Kernel.callSchedule, notified, e] using h
  | clock hcase =>
    obtain ⟨ticks, st, time, hn⟩ := hcase.pcb n
    refine Or.inr ⟨fun y => ?_, fun h => by rwa [hcase.frame] at h⟩
    rw [hn]
    cases y <;> rfl
  | schedule => exact Or.inr ⟨fun _ => rfl, id⟩
  | store => exact Or.inr ⟨fun _ => rfl, id⟩
  | reclaimError => exact Or.inr ⟨fun _ => rfl, id⟩
  | reclaims => exact Or.inr ⟨fun _ => rfl, id⟩

theorem IdInv.step (h : IdInv k s) (hinv : CallInv k s) (hen : (callMachine hw).enabled k e)
    (hok : KeepsQueues k e) (hcase : CallCase hw k s e k' s') : IdInv k' s' := by
  by_cases hsync : ∃ p c, e = .sync p c
  · obtain ⟨p, c, rfl⟩ := hsync
    have hp : k.allocated p = true := hen.2.2
    cases hcase with
    | sync hmoves =>
      have hstart : IdInv { k with current_process := p } s := h
      exact hstart.moves (hinv.coherent.congr rfl rfl fun _ => rfl) hp hmoves
  · have hsync : ∀ p c, e ≠ .sync p c := fun p c he => hsync ⟨p, c, he⟩
    intro n hn
    rcases hcase.ids hsync n with ⟨hnew, -⟩ | ⟨hids, halloc⟩
    · exact fun y => Or.inl (hnew y)
    · exact h.keep (halloc hn) hids fun w hw => (hcase.waitLists hinv hok hsync w).symm ▸ hw

/-- In such a state nobody is stranded. -/
theorem CallInv.nobodyStranded (h : CallInv k s) (hids : IdInv k s) : NobodyStranded k where
  blocked p hst := by
    have hlisted : ∃ l, p ∈ s l := by
      by_contra hne
      rcases h.coherent.unlisted p fun l hl => hne ⟨l, hl⟩ with hd | hd <;> simp [hst] at hd
    obtain ⟨l, hl⟩ := hlisted
    refine ⟨l, ?_, h.coherent.onList_iff.2 hl, fun l' hl' =>
      h.coherent.unique (h.coherent.onList_iff.1 hl') hl⟩
    have hstate := h.coherent.listed l p hl
    rw [hst] at hstate
    cases l with
    | blocked => exact Or.inl rfl
    | wait w => exact Or.inr ⟨w, rfl, h.table.fits w p hl⟩
    | ready => simp [QueueId.state] at hstate
    | delay => simp [QueueId.state] at hstate
    | zombie => simp [QueueId.state] at hstate
  ids p hp y := by
    rcases hids p hp y with hid | ⟨w, hw, hid, hmem⟩
    · exact Or.inl hid
    · exact Or.inr ⟨w, hw, hid, h.table.fits w p hmem⟩

/-- Whoever waits for the object is on no list afterwards, and still blocked. -/
theorem CallInv.stranded (h : CallInv k s) {i : Nat} {q : Heap QueueId PcbPtr}
    (hrep : q.Rep Set.univ (clearedLists s i)) {w : WaitList} (hw : w.slot = i)
    (hp : p ∈ s (.wait w)) : ¬ NobodyStranded (reclaimed k i q) := by
  intro hno
  obtain ⟨l, -, hl, -⟩ := hno.blocked p (h.coherent.listed _ p hp)
  have hl : p ∈ clearedLists s i l := (hrep.onList_iff (Set.mem_univ l)).1 hl
  cases l with
  | wait v =>
    obtain ⟨hne, hv⟩ := mem_clearedLists_wait.1 hl
    have e := QueueId.wait.inj (h.coherent.unique hv hp)
    exact hne (e ▸ hw)
  | ready => cases h.coherent.unique (show p ∈ s .ready from hl) hp
  | delay => cases h.coherent.unique (show p ∈ s .delay from hl) hp
  | blocked => cases h.coherent.unique (show p ∈ s .blocked from hl) hp
  | zombie => cases h.coherent.unique (show p ∈ s .zombie from hl) hp

theorem ReclaimStart.run (h₀ : ReclaimStart k₀) (hrun : Run (callMachine hw) KeepsQueues k₀ t k) :
    CallInv k k.queue ∧ IdInv k k.queue := by
  have hinv : ∃ s, CallInv k s ∧ IdInv k s := by
    refine hrun.invariant (I := fun k => ∃ s, CallInv k s ∧ IdInv k s) ⟨_, h₀.call.inv,
      fun n hn y => Or.inl (h₀.ids n hn y)⟩ fun k e k' ⟨s, hs, hids⟩ hen hok hstep => ?_
    obtain ⟨s', hcase⟩ := callStep_cases hs hen hok hstep
    exact ⟨s', hcase.inv hs hen hok, hids.step hs hen hok hcase⟩
  obtain ⟨s, hs, hids⟩ := hinv
  rw [hs.coherent.queue_eq]
  exact ⟨hs, hids⟩

/-- In every run in which objects are reclaimed only when nobody waits for them, nobody is stranded; and
a further `SyncReclaim` of a valid id keeps it so exactly when nobody waits for that object. -/
theorem reclaim_strands_nobody (h₀ : ReclaimStart k₀)
    (hrun : Run (callMachine hw) KeepsQueues k₀ t k) :
    NobodyStranded k ∧ ∀ id o, getCheckSync k id = some o →
      ∃ k', syncReclaim k id = some (SUCCESS, k') ∧
      (NobodyStranded k' ↔ ∀ w ∈ o.object.waitLists id.toNat, k.queue (.wait w) = []) := by
  obtain ⟨hinv, hids⟩ := h₀.run hrun
  refine ⟨hinv.nobodyStranded hids, fun id o hcheck => ?_⟩
  obtain ⟨ho, hid⟩ := getCheckSync_eq_some hcheck
  generalize id.toNat = i at ho hid
  subst hid
  obtain ⟨q, heq, hrep⟩ := syncReclaim_eq hinv.coherent hinv.table ho
  refine ⟨_, heq, fun hno w hw => List.eq_nil_iff_forall_not_mem.2 fun p hp => ?_, fun hquiet => ?_⟩
  · exact hinv.stranded hrep (SyncObject.slot_of_mem_waitLists hw) hp hno
  · have hok : KeepsQueues k (.reclaim i) := fun o' ho' => by
      obtain rfl := Option.some.inj (hcheck.symm.trans ho')
      exact hquiet
    have hcase : CallCase hw k k.queue (.reclaim i) (reclaimed k i q) _ := .reclaims ho hrep
    have hen : (callMachine hw).enabled k (.reclaim i) := trivial
    exact (hcase.inv hinv hen hok).nobodyStranded (hids.step hinv hen hok hcase)

/-- `102` owns the lock in slot 0 and `103` waits for it; the lock in slot 1, for which nobody waits, is
reclaimed. -/
def reclaimEvents : List CallEvent :=
  [.sync 102 (.initLock 8 true), .sync 102 (.initLock 12 true), .sync 102 (.initCvar 16 true),
    .sync 102 (.lockAcquire 0), .sync 103 (.lockAcquire 0), .reclaim 1]

def reclaimKernel : Kernel :=
  ((callMachine .small).exec Boot.smallProcesses reclaimEvents).get (by decide)

theorem Boot.smallProcesses_reclaimStart : ReclaimStart Boot.smallProcesses where
  call := Boot.smallProcesses_callStart
  ids p hp y := by
    have hcases : p = 100 ∨ p = 101 ∨ p = 102 ∨ p = 103 := by
      have hp : Function.update (Function.update Boot.smallKernel.allocated 102 true) 103 true p =
        true := hp
      by_cases h3 : p = 103
      · exact Or.inr (Or.inr (Or.inr h3))
      · by_cases h2 : p = 102
        · exact Or.inr (Or.inr (Or.inl h2))
        · rw [Function.update_of_ne h3, Function.update_of_ne h2] at hp
          rcases (Boot.smallKernel_booted.allocated p).1 hp with h | h
          · exact Or.inl h
          · exact Or.inr (Or.inl h)
    rcases hcases with rfl | rfl | rfl | rfl <;> cases y <;> decide

/-- The condition variable in slot 2 can be reclaimed too. -/
theorem reclaim_strands_nobody_small : reclaimKernel.queue (.wait (.lockWaiters 0)) = [103] ∧
    reclaimKernel.sync_table 1 = none ∧ NobodyStranded reclaimKernel ∧
    ∃ k', syncReclaim reclaimKernel 2 = some (SUCCESS, k') ∧ NobodyStranded k' := by
  have hrun := Boot.smallProcesses_callStart.exec (P := KeepsQueues) (k := reclaimKernel)
    (Option.some_get _).symm (by decide +kernel) (fun _ _ h => h) fun _ _ h => h
  obtain ⟨hnobody, hreclaim⟩ := reclaim_strands_nobody Boot.smallProcesses_reclaimStart hrun
  obtain ⟨o, hcheck⟩ : ∃ o, getCheckSync reclaimKernel 2 = some o :=
    Option.isSome_iff_exists.1 (by decide +kernel)
  have hquiet : (getCheckSync reclaimKernel 2).all fun o =>
      (o.object.waitLists 2).all fun w => reclaimKernel.queue (.wait w) = [] := by
    decide +kernel
  rw [hcheck, Option.all_some, List.all_eq_true] at hquiet
  obtain ⟨k', heq, hiff⟩ := hreclaim 2 o hcheck
  refine ⟨by decide +kernel, by decide +kernel, hnobody, k', heq, hiff.2 fun w hw => ?_⟩
  exact of_decide_eq_true (hquiet w hw)

/-- `102` owns the lock in slot 0 and `103` waits for it. -/
def strandEvents : List CallEvent :=
  [.sync 102 (.initLock 8 true), .sync 102 (.lockAcquire 0), .sync 103 (.lockAcquire 0)]

def strandKernel : Kernel := ((callMachine .small).exec Boot.smallProcesses strandEvents).get (by decide)

/-- When the lock is reclaimed, `103` is blocked on no list, and its waiting id names no object. -/
theorem reclaim_strands_nobody_fails : ∃ t k k', Run (callMachine .small) KeepsQueues
    Boot.smallProcesses t k ∧ syncReclaim k 0 = some (SUCCESS, k') ∧ ¬ NobodyStranded k' := by
  have hrun := Boot.smallProcesses_callStart.exec (P := KeepsQueues) (k := strandKernel)
    (Option.some_get _).symm (by decide +kernel) (fun _ _ h => h) fun _ _ h => h
  have hinv := callRun Boot.smallProcesses_callStart (fun _ _ h => h) hrun
  have hwaits : 103 ∈ strandKernel.queue (.wait (.lockWaiters 0)) := by decide +kernel
  obtain ⟨o, ho, -⟩ := hinv.table.fits _ _ hwaits
  obtain ⟨q, heq, hrep⟩ := syncReclaim_eq hinv.coherent hinv.table ho
  exact ⟨_, _, _, hrun, heq, hinv.stranded hrep rfl hwaits⟩

end Yalnix
