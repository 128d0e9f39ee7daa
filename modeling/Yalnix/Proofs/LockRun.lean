import Yalnix.Proofs.Lock

/-!
# Runs of lock and condition variable calls

Every step of a run is one step of every lock, so in every run the line of a lock is what was asked for
and not yet granted, in order.
-/

namespace Yalnix

open Intrusive Transition FifoLock

variable {hw : Hardware} {k k' k₀ : Kernel} {s s' : QueueId → List PcbPtr}

/-- A new object disturbs no lock. -/
theorem LockInv.init (h : LockInv k s) {x : SyncObject} {lists : Nat → List WaitList}
    {idp rc : Int} {allocated : Bool} (hlists : ∀ i, ∀ w ∈ lists i, w.slot = i)
    (hx : ∀ lock, x.asLock = some lock → (lock.locked = true ↔ lock.owner ≠ none))
    (hrun : syncInit x lists k idp allocated = some (rc, k')) : LockStep h k' s still := by
  obtain ⟨hc, ht⟩ := syncInit_keeps h.coherent h.table hlists hrun
  rcases syncInit_cases hrun with rfl | ⟨i, hi, hfree, hk'⟩
  · exact .refl h
  · have hself : k'.lock i = x.asLock := by rw [hk']; simp [Kernel.lock]
    have hother : ∀ j, j ≠ i → k'.lock j = k.lock j := fun j e => by
      rw [hk']; simp [Kernel.lock, e]
    have hpcb : k'.pcb = k.pcb := by rw [hk']
    have hnil : s (.wait (.lockWaiters i)) = [] := h.table.noWaiter hfree
    have hne : ∀ j lock, k.lock j = some lock → j ≠ i := by
      rintro j lock hl rfl
      obtain ⟨o, ho, -⟩ := lock_eq_some hl
      rw [h.table.used _ o ho] at hfree
      cases hfree
    have hinv : LockInv k' s := by
      refine ⟨hc, ht, fun j lock hl => ?_, fun j lock hl ho => ?_, fun j p hp => ?_⟩
      · by_cases e : j = i
        · exact hx lock (by rw [← hself, ← e, hl])
        · exact h.locked_iff j lock (hother j e ▸ hl)
      · by_cases e : j = i
        · rw [e, hnil]
        · exact h.contended j lock (hother j e ▸ hl) ho
      · rw [hpcb]; exact h.waiting j p hp
    refine ⟨hinv, fun j lock hl => ⟨lock, by rw [hother j (hne j lock hl), hl], .stutter rfl rfl⟩,
      fun j hl => h.table.lockWaiters_nil hl⟩

/-- Waking a waiter of a condition variable disturbs no lock. -/
theorem LockStep.wakeCvarWaiter {h : LockInv k₀ s} (hst : LockStep h k s' still) {i : Nat}
    {p : PcbPtr} {xs : List PcbPtr} (hs : s' (.wait (.cvarWaiters i)) = p :: xs)
    (hwake : Yalnix.wakeCvarWaiter k i = some k') :
    LockStep h k' (woken s' (.cvarWaiters i) p xs) still := by
  obtain ⟨k₁, q, hwake', hk₁, hc⟩ := hst.inv.coherent.wakeCvarWaiter hs
  obtain rfl : k' = k₁ := Option.some.inj (hwake.symm.trans hwake')
  refine hst.congr hc (hst.inv.table.woken hs (by rw [hk₁]; rfl) (by rw [hk₁]; rfl))
    (fun j => by rw [hk₁]; rfl) (fun j => woken_ne (by simp)) (fun j n _ => ?_)
  rw [hk₁]
  by_cases e : n = p <;> simp [Kernel.modifyPcb, e]

theorem LockInv.cvarSignal (h : LockInv k s) {id rc : Int}
    (hrun : syncCvarSignal k id = some (rc, k')) : ∃ s', LockStep h k' s' still := by
  have hsame : ∃ s', LockStep h k s' still := ⟨s, .refl h⟩
  unfold syncCvarSignal at hrun
  split at hrun
  · simp only [Option.some.injEq, Prod.mk.injEq] at hrun
    exact hrun.2 ▸ hsame
  · simp only [Option.bind_eq_bind, Option.bind_eq_some_iff] at hrun
    obtain ⟨-, -, hrun⟩ := hrun
    split at hrun
    · simp only [Option.pure_def, Option.some.injEq, Prod.mk.injEq] at hrun
      exact hrun.2 ▸ hsame
    · rename_i hcount
      simp only [Option.bind_eq_some_iff, Option.pure_def, Option.some.injEq,
        Prod.mk.injEq] at hrun
      obtain ⟨k₁, hwake, -, rfl⟩ := hrun
      cases hs : s (.wait (.cvarWaiters id.toNat)) with
      | nil => exact absurd (h.coherent.count_eq_zero.2 hs) hcount
      | cons p xs => exact ⟨_, (LockStep.refl h).wakeCvarWaiter hs hwake⟩

theorem LockInv.cvarBroadcast (h : LockInv k s) {id r rc : Int}
    (hrun : syncCvarBroadcast k id r = some (rc, k')) : ∃ s', LockStep h k' s' still := by
  have hsame : ∃ s', LockStep h k s' still := ⟨s, .refl h⟩
  unfold syncCvarBroadcast at hrun
  split at hrun
  · simp only [Option.some.injEq, Prod.mk.injEq] at hrun
    exact hrun.2 ▸ hsame
  · simp only [Option.bind_eq_bind, Option.bind_eq_some_iff] at hrun
    obtain ⟨-, -, hrun⟩ := hrun
    split at hrun
    · simp only [Option.pure_def, Option.some.injEq, Prod.mk.injEq] at hrun
      exact hrun.2 ▸ hsame
    · simp only [Option.bind_eq_some_iff, Option.pure_def, Option.some.injEq,
        Prod.mk.injEq] at hrun
      obtain ⟨k₁, hloop, -, rfl⟩ := hrun
      obtain ⟨k₂, s', hloop', hst⟩ := broadcastLoop_induction (i := id.toNat)
        (fun k s (hst : LockStep h k s still) => hst.inv.coherent)
        (fun k s p xs k' hst hs hwake => hst.wakeCvarWaiter hs hwake) (.refl h)
      rw [← Int.toNat_natCast (s (.wait (.cvarWaiters id.toNat))).length,
        ← h.coherent.count, hloop, Option.some.injEq] at hloop'
      exact ⟨s', hloop' ▸ hst⟩

theorem LockInv.schedule (h : LockInv k s) {caller : ScheduleCaller}
    (hrun : Yalnix.schedule hw k caller = some k') : ∃ s', LockStep h k' s' still := by
  obtain ⟨next, s', q, rfl, hnext, hc⟩ := h.coherent.schedule_some hrun
  have hs : ∀ w, s' (.wait w) = s (.wait w) := fun w => hnext.other (by simp)
  exact ⟨s', (LockStep.refl h).congr hc (h.table.congr rfl rfl fun w n hn => Or.inl (hs w ▸ hn))
    (fun _ => rfl) (fun i => hs _) fun _ _ _ => rfl⟩

/-- One event is one step of every lock. -/
theorem LockInv.step (h : LockInv k s) {e : SyncEvent} (hen : (syncMachine hw).enabled k e)
    (he : LockEvent e) (hstep : (syncMachine hw).step k e = some k') :
    ∃ s' lab, LockStep h k' s' lab ∧ ∀ i, Explains k e i (lab i) := by
  cases e with
  | schedule caller =>
    obtain ⟨s', hst⟩ := h.schedule hstep
    exact ⟨s', _, hst, fun i => .still rfl⟩
  | store buf bytes => exact he.elim
  | call p c =>
    obtain ⟨hoff, hidle⟩ := hen
    have hfree := h.coherent.offQueues_iff.1 hoff
    obtain ⟨⟨rc, k₁⟩, hrun, hk₁⟩ := Option.map_eq_some_iff.1 hstep
    obtain rfl : k₁ = k' := hk₁
    -- the call is made as the current process
    have h₀ : LockInv { k with current_process := p } s :=
      ⟨h.coherent.congr rfl rfl fun _ => rfl, h.table.congr rfl rfl fun _ _ => Or.inl,
        h.locked_iff, h.contended, h.waiting⟩
    suffices hs : ∃ s' lab, LockStep h₀ k₁ s' lab ∧ ∀ i, Explains k (.call p c) i (lab i) by
      obtain ⟨s', lab, hst, hex⟩ := hs
      exact ⟨s', lab, ⟨hst.inv, hst.step, hst.fresh⟩, hex⟩
    cases c with
    | initPipe => exact he.elim
    | readPipe => exact he.elim
    | writePipe => exact he.elim
    | initLock idp a =>
      have hrun : syncInitLock _ idp a = some _ := hrun
      unfold syncInitLock at hrun
      exact ⟨s, _, h₀.init (by simp [WaitList.slot]) (by simp [SyncObject.asLock]) hrun,
        fun i => .still rfl⟩
    | lockAcquire id =>
      obtain ⟨s', lab, hst, hex⟩ := h₀.lockAcquire hfree hidle hrun
      exact ⟨s', lab, hst, fun i => ⟨(hex i).request, (hex i).take, (hex i).release⟩⟩
    | lockRelease id =>
      obtain ⟨s', lab, hst, hex⟩ := h₀.lockRelease hfree hrun
      exact ⟨s', lab, hst, fun i => ⟨(hex i).request, (hex i).take, (hex i).release⟩⟩
    | initCvar idp a =>
      have hrun : syncInitCvar _ idp a = some _ := hrun
      unfold syncInitCvar at hrun
      exact ⟨s, _, h₀.init (by simp [WaitList.slot]) (by simp [SyncObject.asLock]) hrun,
        fun i => .still rfl⟩
    | cvarWait cv id =>
      obtain ⟨s', lab, hst, hex⟩ := h₀.cvarWait hfree hidle hrun
      exact ⟨s', lab, hst, fun i => ⟨(hex i).request, (hex i).take, (hex i).release⟩⟩
    | cvarSignal id =>
      obtain ⟨s', hst⟩ := h₀.cvarSignal hrun
      exact ⟨s', _, hst, fun i => .still rfl⟩
    | cvarBroadcast id r =>
      obtain ⟨s', hst⟩ := h₀.cvarBroadcast hrun
      exact ⟨s', _, hst, fun i => .still rfl⟩

/-- What a run has done at the lock in slot `i`. -/
structure LockTrace (hw : Hardware) (t : List (Kernel × SyncEvent)) (s : QueueId → List PcbPtr)
    (i : Nat) : Prop where
  line : t.filterMap (contendedAcquire i) =
    t.filterMap (contendedGrant hw i) ++ s (.wait (.lockWaiters i))
  owner : ∀ x ∈ t, ∀ k' old new, (syncMachine hw).step x.1 x.2 = some k' →
    x.1.lock i = some old → k'.lock i = some new → new.owner ≠ old.owner →
    (∃ p, x.2 = .call p (.lockAcquire i) ∧ old.owner = none ∧ new.owner = some p) ∨
    (∃ p, (x.2 = .call p (.lockRelease i) ∨ ∃ c, x.2 = .call p (.cvarWait c i)) ∧
      old.owner = some p ∧ new.owner = (x.1.queue (.wait (.lockWaiters i))).head?)

/-- The trace of a run grows by one step of the lock. -/
theorem LockTrace.snoc {t : List (Kernel × SyncEvent)} {h : LockInv k s} {e : SyncEvent} {i : Nat}
    {lab : Nat → Label PcbPtr} (ht : LockTrace hw t s i)
    (hstep : (syncMachine hw).step k e = some k') (hst : LockStep h k' s' lab)
    (hex : Explains k e i (lab i)) : LockTrace hw (t ++ [(k, e)]) s' i := by
  constructor
  · rw [List.filterMap_append, List.filterMap_append, ht.line]
    cases hl : k.lock i with
    | none =>
      have hreq : contendedAcquire i (k, e) = none := by
        unfold contendedAcquire
        split
        · rename_i heq
          cases heq
          simp [hl]
        · rfl
      have hgr : contendedGrant hw i (k, e) = none := by simp [contendedGrant, hl, hstep]
      simp [hreq, hgr, h.table.lockWaiters_nil hl, hst.fresh i hl]
    | some lock =>
      obtain ⟨lock', hl', hs⟩ := hst.step i lock hl
      have hline := hs.line
      have hgr : contendedGrant hw i (k, e) = (lab i).granted := by
        simp only [contendedGrant, hstep, hl, hl', Option.bind_eq_bind, Option.bind_some]
        by_cases howner : lock.owner = none
        · have hlocked : lock.locked = false := by
            by_contra hne
            exact (h.locked_iff i lock hl).1 (by simpa using hne) howner
          generalize lab i = l at hs
          rw [if_neg (by simp [hlocked])]
          cases hs with
          | grant ha => exact absurd (howner.symm.trans ha) (by simp)
          | _ => rfl
        · rw [hs.granted_eq howner]
          have hlocked := (h.locked_iff i lock hl).2 howner
          by_cases e : lock'.owner = lock.owner <;> simp [e, hlocked, LockInv.fifo]
      have h1 : List.filterMap (contendedAcquire i) [(k, e)] = (lab i).request.toList := by
        rw [hex.request]
        cases hr : contendedAcquire i (k, e) <;> simp [hr]
      have h2 : List.filterMap (contendedGrant hw i) [(k, e)] = (lab i).granted.toList := by
        rw [← hgr]
        cases hr : contendedGrant hw i (k, e) <;> simp [hr]
      rw [h1, h2, List.append_assoc, List.append_assoc]
      exact congrArg _ hline
  · intro x hx k₁ old new hstep₁ hold hnew hne
    rcases List.mem_append.1 hx with hx | hx
    · exact ht.owner x hx k₁ old new hstep₁ hold hnew hne
    · obtain rfl := List.mem_singleton.1 hx
      obtain rfl : k' = k₁ := Option.some.inj (hstep.symm.trans hstep₁)
      obtain ⟨lock', hl', hs⟩ := hst.step i old hold
      obtain rfl : new = lock' := Option.some.inj (hnew.symm.trans hl')
      rcases hs.owner hne with ⟨p, hp, ha, hb⟩ | ⟨p, hp, ha, hb⟩
      · exact Or.inl ⟨p, hex.take p hp, ha, hb⟩
      · refine Or.inr ⟨p, hex.release p hp, ha, ?_⟩
        show _ = (k.queue _).head?
        rw [h.coherent.queue_eq]
        exact hb

theorem SyncStart.lockInv (h : SyncStart k) : LockInv k k.queue where
  coherent := h.coherent
  table := h.table
  locked_iff i lock hl := by simp [Kernel.lock, h.noObject i] at hl
  contended i lock hl := by simp [Kernel.lock, h.noObject i] at hl
  waiting i p hp := by rw [h.noWaiter] at hp; simp at hp

/-- The invariant and the trace of every run. -/
theorem lockRun (h₀ : SyncStart k₀) {t : List (Kernel × SyncEvent)}
    (hrun : Run (syncMachine hw) (fun _ e => LockEvent e) k₀ t k) :
    ∃ s, LockInv k s ∧ ∀ i, LockTrace hw t s i := by
  refine hrun.traceInvariant (I := fun t k => ∃ s, LockInv k s ∧ ∀ i, LockTrace hw t s i)
    ⟨_, h₀.lockInv, fun i => ⟨by simp [h₀.noWaiter], by simp⟩⟩ ?_
  rintro t k e k' ⟨s, hinv, htr⟩ hen he hstep
  obtain ⟨s', lab, hst, hex⟩ := hinv.step hen he hstep
  exact ⟨s', hst.inv, fun i => (htr i).snoc hstep hst (hex i)⟩

/-- The lock state machine, over every run of lock and condition variable calls: a lock is locked when
it has an owner, and only then has waiters; a waiter is blocked on that lock and is on no other list;
a contended acquire is granted when all earlier ones have been, and once; and the owner of a lock
changes by an acquire of the free lock, or when its owner gives it up, to the head of the line if there
is one. -/
theorem lock_state_machine (h₀ : SyncStart k₀) {t : List (Kernel × SyncEvent)}
    (hrun : Run (syncMachine hw) (fun _ e => LockEvent e) k₀ t k) :
    (∀ i lock, k.lock i = some lock → (lock.locked = true ↔ lock.owner ≠ none)) ∧
    (∀ i p, k.queues.OnList (.wait (.lockWaiters i)) p →
      (∃ lock, k.lock i = some lock ∧ lock.locked = true) ∧
      (k.pcb p).state = .processBlocked ∧
      (∃ sync, k.sync_table i = some sync ∧ (k.pcb p).waiting_lock_id = sync.id) ∧
      ∀ l, k.queues.OnList l p → l = .wait (.lockWaiters i)) ∧
    (∀ i, t.filterMap (contendedAcquire i) =
      t.filterMap (contendedGrant hw i) ++ k.queue (.wait (.lockWaiters i))) ∧
    ∀ i, ∀ x ∈ t, ∀ k' old new, (syncMachine hw).step x.1 x.2 = some k' →
      x.1.lock i = some old → k'.lock i = some new → new.owner ≠ old.owner →
      (∃ p, x.2 = .call p (.lockAcquire i) ∧ old.owner = none ∧ new.owner = some p) ∨
      (∃ p, (x.2 = .call p (.lockRelease i) ∨ ∃ c, x.2 = .call p (.cvarWait c i)) ∧
        old.owner = some p ∧ new.owner = (x.1.queue (.wait (.lockWaiters i))).head?) := by
  obtain ⟨s, hinv, htr⟩ := lockRun h₀ hrun
  refine ⟨hinv.locked_iff, fun i p hp => ?_, fun i => ?_, fun i => (htr i).owner⟩
  · have hp' := hinv.coherent.onList_iff.1 hp
    obtain ⟨o, ho, hfit⟩ := hinv.table.fits _ p hp'
    have hl : ∃ lock, k.lock i = some lock := by
      cases hl : k.lock i with
      | none => rw [hinv.table.lockWaiters_nil hl] at hp'; simp at hp'
      | some lock => exact ⟨lock, rfl⟩
    obtain ⟨lock, hl⟩ := hl
    refine ⟨⟨lock, hl, ?_⟩, hinv.coherent.listed _ p hp', ⟨o, ho, ?_⟩, fun l hl' => ?_⟩
    · refine (hinv.locked_iff i lock hl).2 fun hne => ?_
      rw [hinv.contended i lock hl hne] at hp'
      simp at hp'
    · rw [hinv.waiting i p hp', hinv.table.id i o ho]
    · exact hinv.coherent.unique (hinv.coherent.onList_iff.1 hl') hp'
  · rw [(htr i).line, hinv.coherent.queue_eq]

/-- The processes `103` and `101` ask for the lock that `102` holds, and `103` gets it. -/
def lockEvents : List SyncEvent :=
  [.schedule .sysLockAcquire, .call 102 (.initLock 8 true), .call 102 (.lockAcquire 0),
    .call 103 (.lockAcquire 0), .call 101 (.lockAcquire 0), .call 102 (.lockRelease 0),
    .schedule .sysLockAcquire]

def lockEventsKernel : Kernel :=
  ((syncMachine .small).exec Boot.smallProcesses lockEvents).get (by decide)

theorem lock_state_machine_small : lockEventsKernel.queue (.wait (.lockWaiters 0)) = [101] ∧
    ((syncMachine .small).trace Boot.smallProcesses lockEvents).filterMap (contendedAcquire 0) =
      ((syncMachine .small).trace Boot.smallProcesses lockEvents).filterMap (contendedGrant .small 0) ++
        lockEventsKernel.queue (.wait (.lockWaiters 0)) := by
  have hcall : ∀ x ∈ (syncMachine .small).trace Boot.smallProcesses lockEvents,
      callable x.1 x.2 = true := by decide
  have hev : ∀ e ∈ lockEvents, LockEvent e := by simp [lockEvents, LockEvent]
  refine ⟨by decide, (lock_state_machine Boot.smallProcesses_syncStart (Run.exec
    (I := fun k => ∃ s, LockInv k s) ⟨_, Boot.smallProcesses_syncStart.lockInv⟩ ?_
    (Option.some_get _).symm ?_)).2.2.1 0⟩
  · rintro k e k' ⟨s, hinv⟩ hen he hstep
    obtain ⟨s', lab, hst, -⟩ := hinv.step hen he hstep
    exact ⟨s', hst.inv⟩
  · rintro x hx ⟨s, hinv⟩
    exact ⟨hinv.coherent.enabled (hcall x hx), hev x.2 (System.mem_trace hx)⟩

end Yalnix
