import Yalnix.Proofs.Family

/-!
# What the handlers do to the queues

The handlers that move processes, each with the states it can leave and the lists these have.
-/

namespace Yalnix

open Intrusive

variable {hw : Hardware} {k k' : Kernel} {s s' : QueueId → List PcbPtr}

/-! ## SysDelay -/

/-- The caller waits for ticks, and is about to call `schedule`. -/
def delaying (k : Kernel) (q : Heap QueueId PcbPtr) : Kernel :=
  { k with
    pcb := Function.update k.pcb k.current_process { k.pcb k.current_process with
      state := .processDelayed
      delay_ticks := k.uctxt.regs 0 }
    queues := q
    uctxt := k.uctxt.setReg0 0
    mode := .atSchedule .sysDelay }

theorem sysDelay_cases (hc : Coherent k s) (hfree : ∀ l, k.current_process ∉ s l)
    (hidle : k.current_process ≠ k.idle_process) (h : sysDelay k = some k') :
    (k.uctxt.regs 0 ≤ 0 ∧ ∃ v, k' = k.returnValue v) ∨ 0 < k.uctxt.regs 0 ∧ ∃ q, k' = delaying k q ∧
      Coherent k' (Function.update s .delay (s .delay ++ [k.current_process])) := by
  unfold sysDelay at h
  simp only at h
  split at h
  · exact Or.inl ⟨by omega, _, (Option.some.inj h).symm⟩
  · split at h
    · exact Or.inl ⟨by omega, _, (Option.some.inj h).symm⟩
    · refine Or.inr ⟨by omega, ?_⟩
      unfold addToDelayQueue at h
      rw [if_neg (by simp [Kernel.setState, Kernel.modifyPcb])] at h
      simp only [Option.bind_eq_bind, Option.bind_eq_some_iff, Option.pure_def,
        Option.some.injEq] at h
      obtain ⟨k₁, hins, rfl⟩ := h
      have htr : InTransit { k with
          pcb := (delaying k k.queues).pcb, uctxt := k.uctxt.setReg0 0 } s k.current_process :=
        (hc.transit hfree).congr rfl rfl fun q hq => by simp [delaying, hq]
      obtain ⟨q, hins', hc'⟩ := htr.insertTail (l := .delay)
        (by simp [delaying, QueueId.state]) hidle
      have key : ∀ K, K = { k with pcb := (delaying k k.queues).pcb, uctxt := k.uctxt.setReg0 0 } →
          K.insertTail .delay k.current_process = some k₁ →
          k₁.callSchedule .sysDelay = delaying k q ∧ Coherent (k₁.callSchedule .sysDelay)
            (Function.update s .delay (s .delay ++ [k.current_process])) := by
        rintro K rfl hK
        obtain rfl := Option.some.inj (hK.symm.trans hins')
        exact ⟨rfl, hc'.congr rfl rfl fun _ => rfl⟩
      refine ⟨q, key _ ?_ hins⟩
      apply Kernel.ext <;> try rfl
      funext p
      by_cases e : p = k.current_process
      · subst e; simp [Kernel.modifyPcb, Kernel.setState, Kernel.returnValue, delaying]
      · simp [Kernel.modifyPcb, Kernel.setState, Kernel.returnValue, delaying, e]

/-! ## SysWait -/

/-- The caller waits for a child, and is about to call `schedule`. -/
def waitingForChild (k : Kernel) (kstatus_ptr : Int) (q : Heap QueueId PcbPtr) : Kernel :=
  { k with
    pcb := Function.update k.pcb k.current_process { k.pcb k.current_process with
      state := .processBlocked
      waiting_for_children := 1 }
    queues := q
    kstatusAllocated := Function.update k.kstatusAllocated kstatus_ptr true
    uctxt := k.uctxt.setReg0 kstatus_ptr
    mode := .atSchedule (.sysWait (k.uctxt.regs 0) kstatus_ptr) }

/-- The caller has taken the status of the terminated child `z`. -/
def reaped (k : Kernel) (z : PcbPtr) (q : Heap QueueId PcbPtr) : Kernel :=
  { k with
    pcb := Function.update k.pcb z { k.pcb z with state := .processDefault }
    allocated := Function.update k.allocated z false
    queues := q
    userStores := if k.uctxt.regs 0 ≠ 0 then
        k.userStores ++ [.word k.current_process (k.uctxt.regs 0) (k.pcb z).exit_code]
      else k.userStores
    uctxt := k.uctxt.setReg0 (k.pcb z).pid }

/-- What `SysWait` can do. -/
inductive WaitCase (k : Kernel) (s : QueueId → List PcbPtr) (kstatus_ptr : Int) (k' : Kernel) :
    Prop where
  | childless (hempty : k.family.listIsEmpty k.current_process = true)
      (heq : k' = k.returnValue ERROR)
  | waits {q : Heap QueueId PcbPtr} (hempty : ¬ k.family.listIsEmpty k.current_process = true)
      (hnone : findZombieChild k k.current_process = some none)
      (heq : k' = waitingForChild k kstatus_ptr q)
      (hc : Coherent k' (Function.update s .blocked (s .blocked ++ [k.current_process])))
  | reaps {z : PcbPtr} {q : Heap QueueId PcbPtr}
      (hempty : ¬ k.family.listIsEmpty k.current_process = true)
      (hz : findZombieChild k k.current_process = some (some z))
      (hzombie : z ∈ s .zombie) (heq : k' = reaped k z q)
      (hc : Coherent k' (Function.update s .zombie ((s .zombie).erase z)))

/-- A process in a state that belongs to one queue is on it. -/
theorem Coherent.mem_of_state (hc : Coherent k s) {p : PcbPtr} {l : QueueId}
    (hl : l = .ready ∨ l = .delay ∨ l = .zombie) (hst : (k.pcb p).state = l.state) : p ∈ s l := by
  by_contra hn
  have hoff : ∃ l', p ∈ s l' := by
    by_contra hne
    rcases hc.unlisted p fun l' hl' => hne ⟨l', hl'⟩ with h | h <;>
      rcases hl with rfl | rfl | rfl <;> simp [hst, QueueId.state] at h
  obtain ⟨l', hl'⟩ := hoff
  have h := hc.listed l' p hl'
  rw [hst] at h
  rcases hl with rfl | rfl | rfl <;> cases l' <;> simp [QueueId.state] at h <;> exact hn hl'

/-- Where nobody waits for an object, a blocked process waits for a child. -/
theorem Coherent.mem_blocked (hc : Coherent k s) {p : PcbPtr} (hno : ∀ w, s (.wait w) = [])
    (hst : (k.pcb p).state = .processBlocked) : p ∈ s .blocked := by
  by_contra hn
  have hoff : ∀ l, p ∉ s l := by
    intro l hl
    have hlist := hc.listed l p hl
    rw [hst] at hlist
    cases l with
    | blocked => exact hn hl
    | wait w =>
      rw [hno w] at hl
      cases hl
    | _ => cases hlist
  rcases hc.unlisted p hoff with hd | hr
  · rw [hst] at hd
    cases hd
  · rw [hst] at hr
    cases hr

theorem sysWait_cases (hc : Coherent k s) (hfree : ∀ l, k.current_process ∉ s l)
    (hidle : k.current_process ≠ k.idle_process) {kstatus_ptr : Int}
    (h : sysWait k kstatus_ptr = some k') : WaitCase k s kstatus_ptr k' := by
  unfold sysWait at h
  simp only at h
  split at h
  · rename_i hempty
    exact .childless hempty (Option.some.inj h).symm
  · rename_i hne
    simp only [Option.bind_eq_bind, Option.bind_eq_some_iff] at h
    obtain ⟨z_child, hfind, h⟩ := h
    cases z_child with
    | none =>
      simp only [Option.bind_eq_some_iff, Option.pure_def, Option.some.injEq] at h
      obtain ⟨k₁, hadd, rfl⟩ := h
      have htr : InTransit { k with
          pcb := Function.update k.pcb k.current_process { k.pcb k.current_process with
            state := .processDefault
            waiting_for_children := 1 }
          kstatusAllocated := Function.update k.kstatusAllocated kstatus_ptr true
          uctxt := k.uctxt.setReg0 kstatus_ptr } s k.current_process :=
        (hc.transit hfree).congr rfl rfl fun q hq => by simp [hq]
      obtain ⟨q, hadd', hc'⟩ := htr.addToQueue (l := .blocked) (by simp) hidle
      have key : ∀ K, K = ({ k with
          pcb := Function.update k.pcb k.current_process { k.pcb k.current_process with
            state := .processDefault
            waiting_for_children := 1 }
          kstatusAllocated := Function.update k.kstatusAllocated kstatus_ptr true
          uctxt := k.uctxt.setReg0 kstatus_ptr } : Kernel) →
          addToBlockedQueue K k.current_process = some k₁ →
          WaitCase k s kstatus_ptr
            (k₁.callSchedule (.sysWait (k.uctxt.regs 0) kstatus_ptr)) := by
        rintro K rfl hK
        obtain rfl := Option.some.inj (hK.symm.trans hadd')
        refine .waits (q := q) hne hfind ?_ (hc'.congr rfl rfl fun _ => rfl)
        apply Kernel.ext <;> try rfl
        simp [Kernel.callSchedule, Kernel.setState, Kernel.modifyPcb, waitingForChild,
          QueueId.state]
      refine key _ ?_ hadd
      apply Kernel.ext <;> try rfl
      funext p
      by_cases e : p = k.current_process
      · subst e; simp [Kernel.modifyPcb, Kernel.setState, Kernel.returnValue]
      · simp [Kernel.modifyPcb, Kernel.setState, Kernel.returnValue, e]
    | some z =>
      simp only at h
      have hst := findZombieChild_state hfind
      have hzombie : z ∈ s .zombie := hc.mem_of_state (Or.inr (Or.inr rfl)) hst
      have hrem := hc.removeFromQueue hzombie
      have hq : removeFromZombieQueue k z =
          { k with
            pcb := Function.update k.pcb z { k.pcb z with state := .processDefault }
            queues := k.queues.listRemove .zombie z } := by
        unfold removeFromZombieQueue removeFromQueue
        rw [if_neg (by simp [hst])]
        rfl
      have hrem : Coherent (removeFromZombieQueue k z) _ := hrem
      rw [hq] at h hrem
      have heq : k' = reaped k z (k.queues.listRemove .zombie z) := by
        rw [← Option.some.inj h]
        unfold reaped
        by_cases hs : k.uctxt.regs 0 = 0
        · simp [hs, Kernel.free, Kernel.returnValue]
        · simp [hs, Kernel.free, Kernel.returnValue, Kernel.storeUser]
      refine .reaps hne hfind hzombie heq ?_
      rw [heq]
      exact hrem.congr rfl rfl fun _ => rfl

/-! ## SysExit -/

/-- The caller has given up its children and its memory: whatever the children lists are like, some
processes lose their parent, and some terminated ones are freed. -/
structure Released (hw : Hardware) (k : Kernel) (status : Int) (k₁ : Kernel) : Prop where
  frame : k₁ = { k with
    pcb := k₁.pcb
    allocated := k₁.allocated
    family := k₁.family
    mem := freeProcessMemory hw k.mem (k.pcb k.current_process) }
  current : ∃ parent, (parent = (k.pcb k.current_process).parent ∨ parent = none) ∧
    k₁.pcb k.current_process = { k.pcb k.current_process with
      exit_code := status
      state := .processDefault
      parent := parent }
  other : ∀ p, p ≠ k.current_process →
    k₁.pcb p = k.pcb p ∨ k₁.pcb p = { k.pcb p with parent := none }
  allocated : ∀ p, k₁.allocated p = k.allocated p ∨
    p ≠ k.current_process ∧ (k.pcb p).state = .processZombie ∧ k₁.allocated p = false

theorem releaseProcess_released {status : Int} {k₁ : Kernel}
    (h : releaseProcess hw k k.current_process status = some k₁) : Released hw k status k₁ := by
  unfold releaseProcess at h
  simp only [Option.bind_eq_bind, Option.bind_eq_some_iff, Option.pure_def, Option.some.injEq] at h
  obtain ⟨k₂, horphan, rfl⟩ := h
  have ho := orphanChildren_orphans horphan
  have hother : ∀ p, p ≠ k.current_process →
      (k.modifyPcb k.current_process fun pcb =>
        { pcb with exit_code := status, state := .processDefault }).pcb p = k.pcb p := fun p hp => by
    simp [Kernel.modifyPcb, hp]
  have hcurrent : ∃ parent, (parent = (k.pcb k.current_process).parent ∨ parent = none) ∧
      k₂.pcb k.current_process = { k.pcb k.current_process with
        exit_code := status
        state := .processDefault
        parent := parent } := by
    rcases ho.pcb k.current_process with e | e
    · exact ⟨_, Or.inl rfl, by rw [e]; simp [Kernel.modifyPcb]⟩
    · exact ⟨_, Or.inr rfl, by rw [e]; simp [Kernel.modifyPcb]⟩
  have hmem : k₂.mem = k.mem := by rw [ho.frame]; rfl
  refine ⟨?_, hcurrent, fun p hp => ?_, fun p => ?_⟩
  · obtain ⟨parent, -, e⟩ := hcurrent
    rw [ho.frame]
    show _ = ({ k with
      pcb := k₂.pcb
      allocated := k₂.allocated
      family := k₂.family
      mem := freeProcessMemory hw k.mem (k.pcb k.current_process) } : Kernel)
    show ({ k with
      pcb := k₂.pcb
      allocated := k₂.allocated
      family := k₂.family
      mem := freeProcessMemory hw k.mem (k₂.pcb k.current_process) } : Kernel) = _
    rw [e]
    rfl
  · rw [← hother p hp]
    exact ho.pcb p
  · by_cases e : p = k.current_process
    · subst e
      refine (ho.allocated _).imp id fun hfreed => ?_
      simp [Kernel.modifyPcb] at hfreed
    · refine (ho.allocated p).imp id fun hfreed => ⟨e, ?_, hfreed.2⟩
      rw [← hother p e]
      exact hfreed.1

theorem Released.state {status : Int} {k₁ : Kernel} (h : Released hw k status k₁) {p : PcbPtr}
    (hp : p ≠ k.current_process) : (k₁.pcb p).state = (k.pcb p).state := by
  rcases h.other p hp with e | e <;> rw [e]

theorem Released.waiting {status : Int} {k₁ : Kernel} (h : Released hw k status k₁) (p : PcbPtr) :
    (k₁.pcb p).waiting_for_children = (k.pcb p).waiting_for_children := by
  by_cases hp : p = k.current_process
  · obtain ⟨_, -, e⟩ := h.current
    rw [hp, e]
  · rcases h.other p hp with e | e <;> rw [e]

theorem Released.context {status : Int} {k₁ : Kernel} (h : Released hw k status k₁) (p : PcbPtr) :
    (k₁.pcb p).kernel_context = (k.pcb p).kernel_context := by
  by_cases hp : p = k.current_process
  · obtain ⟨_, -, e⟩ := h.current
    rw [hp, e]
  · rcases h.other p hp with e | e <;> rw [e]

/-- No process gets a parent. -/
theorem Released.parent {status : Int} {k₁ : Kernel} (h : Released hw k status k₁) {p parent : PcbPtr}
    (hp : (k₁.pcb p).parent = some parent) : (k.pcb p).parent = some parent := by
  by_cases e : p = k.current_process
  · subst e
    obtain ⟨_, rfl | rfl, e⟩ := h.current <;> rw [e] at hp
    · exact hp
    · cases hp
  · rcases h.other p e with e | e <;> rw [e] at hp
    · exact hp
    · cases hp

theorem Released.coherent {status : Int} {k₁ : Kernel} (h : Released hw k status k₁)
    (hc : Coherent k s) (hfree : ∀ l, k.current_process ∉ s l) : Coherent k₁ s := by
  have htr : InTransit k₁ s k.current_process :=
    (hc.transit hfree).congr (by rw [h.frame]) (by rw [h.frame]) fun q hq => h.state hq
  obtain ⟨_, -, e⟩ := h.current
  exact htr.settle (Or.inl (by rw [e]))

/-- The parent has got the pid and the status of `process`, and the PCB of `process` is freed. -/
def notified (k : Kernel) (process parent : PcbPtr) (status : Int) (st : ProcessState)
    (q : Heap QueueId PcbPtr) : Kernel :=
  { k with
    pcb := Function.update k.pcb parent { k.pcb parent with
      state := st
      user_context := (k.pcb parent).user_context.setReg0 (k.pcb process).pid }
    allocated := Function.update k.allocated process false
    queues := q
    kstatus := if (k.pcb parent).user_context.regs 0 ≠ 0 then
        Function.update k.kstatus ((k.pcb parent).user_context.regs 0) status
      else k.kstatus }

/-- Where the parent is when it is notified, its state afterwards, and the lists afterwards. -/
inductive NotifyCase (k : Kernel) (s : QueueId → List PcbPtr) (parent : PcbPtr) :
    ProcessState → (QueueId → List PcbPtr) → Prop where
  | waits (hs : parent ∈ s .blocked) : NotifyCase k s parent .processReady
      (Function.update (Function.update s .blocked ((s .blocked).erase parent)) .ready
        (s .ready ++ [parent]))
  | nowhere (hst : (k.pcb parent).state = .processDefault) : NotifyCase k s parent .processReady
      (Function.update s .ready (s .ready ++ [parent]))
  | elsewhere (hst : (k.pcb parent).state ≠ .processDefault)
      (hst' : (k.pcb parent).state ≠ .processBlocked) :
      NotifyCase k s parent (k.pcb parent).state s

theorem storeStatus_eq {status_ptr status : Int} (h : storeStatus k status_ptr status = some k') :
    k' = { k with kstatus :=
      if status_ptr ≠ 0 then Function.update k.kstatus status_ptr status else k.kstatus } := by
  unfold storeStatus at h
  by_cases hs : status_ptr = 0
  · rw [if_pos hs] at h
    rw [← Option.some.inj h, if_neg (not_not.2 hs)]
  · rw [if_neg hs] at h
    split at h
    · rw [← Option.some.inj h, if_pos hs]
    · cases h

theorem storeStatus_frame {status_ptr status : Int} (h : storeStatus k status_ptr status = some k') :
    k' = { k with kstatus := k'.kstatus } := by
  rw [storeStatus_eq h]

theorem notifyParent_cases (hc : Coherent k s) {process parent : PcbPtr} {status : Int}
    (hne : parent ≠ process) (hidle : parent ≠ k.idle_process)
    (hblocked : (k.pcb parent).state = .processBlocked → parent ∈ s .blocked)
    (h : notifyParent k process parent status = some k') :
    ∃ st q s', NotifyCase k s parent st s' ∧ k' = notified k process parent status st q ∧
      Coherent k' s' := by
  unfold notifyParent at h
  simp only [Option.bind_eq_bind, Option.bind_eq_some_iff, Option.pure_def, Option.some.injEq] at h
  obtain ⟨k₁, hadd, k₂, hstore, h⟩ := h
  -- it is enough to know where the parent has moved
  suffices hmove : ∃ st q s', NotifyCase k s parent st s' ∧
      k₁ = { k.setState parent st with queues := q } ∧ Coherent k₁ s' by
    obtain ⟨st, q, s', hcase, rfl, hc'⟩ := hmove
    have heq : k' = notified k process parent status st q := by
      rw [← h, storeStatus_eq hstore]
      simp [notified, hne.symm, Kernel.free, Kernel.setReg0, Kernel.setState, Kernel.modifyPcb]
    refine ⟨st, q, s', hcase, heq, ?_⟩
    rw [heq]
    refine hc'.congr rfl rfl fun p => ?_
    by_cases e : p = parent
    · subst e; simp [notified, Kernel.setState, Kernel.modifyPcb]
    · simp [notified, Kernel.setState, Kernel.modifyPcb, e]
  by_cases hst : (k.pcb parent).state = .processBlocked
  · have hmem := hblocked hst
    obtain ⟨q, hadd', hc'⟩ := hc.requeue hmem (by simp)
    obtain rfl := Option.some.inj (hadd.symm.trans hadd')
    exact ⟨_, q, _, .waits hmem, rfl, hc'⟩
  · have hrem : removeFromBlockedQueue k parent = k := by
      unfold removeFromBlockedQueue removeFromQueue
      rw [if_pos hst]
    rw [hrem] at hadd
    by_cases hd : (k.pcb parent).state = .processDefault
    · have hoff := hc.offQueues_iff.1 (hc.offQueues_iff_state.2 (Or.inl hd))
      obtain ⟨q, hadd', hc'⟩ := (hc.transit hoff).addToQueue (l := .ready) hd hidle
      obtain rfl := Option.some.inj (hadd.symm.trans hadd')
      exact ⟨_, q, _, .nowhere hd, rfl, hc'⟩
    · obtain rfl := Option.some.inj (hadd.symm.trans (addToQueue_of_ne hd))
      exact ⟨_, k₁.queues, s, .elsewhere hd hst, by simp [Kernel.setState, Kernel.modifyPcb], hc⟩

/-- What `SysExit` can do, after `k₁`, in which the caller has given up what it had. -/
inductive ExitCase (k k₁ : Kernel) (s : QueueId → List PcbPtr) (k' : Kernel) : Prop where
  | zombie {q : Heap QueueId PcbPtr}
      (hparent : ∀ parent, (k₁.pcb k.current_process).parent = some parent →
        (k₁.pcb parent).waiting_for_children = 0)
      (heq : k' = ({ k₁.setState k.current_process .processZombie with
        queues := q } : Kernel).callSchedule .sysExit)
      (hc : Coherent k' (Function.update s .zombie (s .zombie ++ [k.current_process])))
  | notifies {q : Heap QueueId PcbPtr} {parent : PcbPtr} {st : ProcessState}
      {s' : QueueId → List PcbPtr} (hparent : (k₁.pcb k.current_process).parent = some parent)
      (hwaiting : (k₁.pcb parent).waiting_for_children ≠ 0)
      (hcase : NotifyCase k₁ s parent st s')
      (heq : k' = (notified k₁ k.current_process parent (k.uctxt.regs 0) st q).callSchedule .sysExit)
      (hc : Coherent k' s')

theorem sysExit_cases (hc : Coherent k s) (hfree : ∀ l, k.current_process ∉ s l)
    (hidle : k.current_process ≠ k.idle_process)
    (hparent : ∀ parent, (k.pcb k.current_process).parent = some parent →
      parent ≠ k.current_process ∧ ((k.pcb parent).waiting_for_children ≠ 0 →
        parent ≠ k.idle_process ∧ ((k.pcb parent).state = .processBlocked → parent ∈ s .blocked)))
    (h : sysExit hw k = some k') :
    ∃ k₁, releaseProcess hw k k.current_process (k.uctxt.regs 0) = some k₁ ∧ ExitCase k k₁ s k' := by
  unfold sysExit terminateProcess at h
  simp only [Option.bind_eq_bind, Option.bind_eq_some_iff, Option.pure_def, Option.some.injEq] at h
  obtain ⟨k₂, ⟨k₁, hrel, hterm⟩, rfl⟩ := h
  refine ⟨k₁, hrel, ?_⟩
  have hr := releaseProcess_released hrel
  have hc₁ := hr.coherent hc hfree
  have hst₁ : (k₁.pcb k.current_process).state = .processDefault := by
    obtain ⟨_, -, e⟩ := hr.current
    rw [e]
  have hidle₁ : k₁.idle_process = k.idle_process := by rw [hr.frame]
  -- the caller is in the default state, so it is taken from no queue
  have hleave : leaveQueue k₁ k.current_process = k₁ := by
    unfold leaveQueue
    rw [hst₁]
  rw [hleave] at hterm
  have hzombie : (∀ parent, (k₁.pcb k.current_process).parent = some parent →
      (k₁.pcb parent).waiting_for_children = 0) →
      addToZombieQueue k₁ k.current_process = some k₂ →
      ExitCase k k₁ s (k₂.callSchedule .sysExit) := by
    intro hpar hadd
    obtain ⟨q, hadd', hc'⟩ := (hc₁.transit hfree).addToQueue (l := .zombie) hst₁ (by rwa [hidle₁])
    obtain rfl := Option.some.inj (hadd.symm.trans hadd')
    exact .zombie hpar rfl (hc'.congr rfl rfl fun _ => rfl)
  split at hterm
  · rename_i parent hpar
    split at hterm
    · rename_i hwaiting
      obtain ⟨hne, hflag⟩ := hparent parent (hr.parent hpar)
      obtain ⟨hnidle, hblocked⟩ := hflag (hr.waiting parent ▸ hwaiting)
      obtain ⟨st, q, s', hcase, heq, hc'⟩ := notifyParent_cases hc₁ hne (by rwa [hidle₁])
        (fun hb => hblocked (hr.state hne ▸ hb)) hterm
      exact .notifies hpar hwaiting hcase (by rw [heq]) (hc'.congr rfl rfl fun _ => rfl)
    · rename_i hwaiting
      refine hzombie (fun parent' hpar' => ?_) hterm
      obtain rfl := Option.some.inj (hpar.symm.trans hpar')
      simpa using hwaiting
  · rename_i hpar
    exact hzombie (fun parent' hpar' => by rw [hpar] at hpar'; cases hpar') hterm

end Yalnix
