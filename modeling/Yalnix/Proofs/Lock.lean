import Yalnix.LockRun
import Yalnix.Proofs.LockCall

/-!
# Every call is a step of the locks

At every lock, a call of `sync.c` does one step of `FifoLock`.
-/

namespace Yalnix

open Intrusive Transition FifoLock

variable {hw : Hardware} {k k' k'' : Kernel} {s s' s'' : QueueId → List PcbPtr}

/-! ## Steps -/

/-- From `k`, `s` to `k'`, `s'` every lock does the step that `lab` names. -/
structure LockStep (h : LockInv k s) (k' : Kernel) (s' : QueueId → List PcbPtr)
    (lab : Nat → Label PcbPtr) : Prop where
  inv : LockInv k' s'
  step : ∀ i lock (hl : k.lock i = some lock), ∃ lock', ∃ hl' : k'.lock i = some lock',
    Step (h.fifo hl) (lab i) (inv.fifo hl')
  fresh : ∀ i, k.lock i = none → s' (.wait (.lockWaiters i)) = []

/-- Nothing happens at any lock. -/
def still : Nat → Label PcbPtr := fun _ => .stutter

/-- What leaves the locks, their lists and the ids of their waiters alone adds nothing to a step. -/
theorem LockStep.congr {h : LockInv k s} {lab : Nat → Label PcbPtr} (hst : LockStep h k' s' lab)
    (hc : Coherent k'' s'') (ht : SyncTable k'' s'')
    (hlock : ∀ i, k''.lock i = k'.lock i)
    (hs : ∀ i, s'' (.wait (.lockWaiters i)) = s' (.wait (.lockWaiters i)))
    (hw : ∀ i p, p ∈ s' (.wait (.lockWaiters i)) →
      (k''.pcb p).waiting_lock_id = (k'.pcb p).waiting_lock_id) : LockStep h k'' s'' lab := by
  have hinv : LockInv k'' s'' :=
    ⟨hc, ht, fun i lock hl => hst.inv.locked_iff i lock (hlock i ▸ hl),
      fun i lock hl ho => by rw [hs i]; exact hst.inv.contended i lock (hlock i ▸ hl) ho,
      fun i p hp => by rw [hs i] at hp; rw [hw i p hp]; exact hst.inv.waiting i p hp⟩
  refine ⟨hinv, fun i lock hl => ?_, fun i hl => by rw [hs i]; exact hst.fresh i hl⟩
  obtain ⟨lock', hl', hstep⟩ := hst.step i lock hl
  have hl'' : k''.lock i = some lock' := by rw [hlock i, hl']
  refine ⟨lock', hl'', ?_⟩
  have : hinv.fifo hl'' = hst.inv.fifo hl' := FifoLock.ext rfl (hs i)
  rwa [this]

theorem LockStep.refl (h : LockInv k s) : LockStep h k s still :=
  ⟨h, fun _ lock hl => ⟨lock, hl, .stutter rfl rfl⟩, fun _ hl => h.table.lockWaiters_nil hl⟩

/-- A step of the lock in slot `i`. -/
theorem LockStep.at (h : LockInv k s) {i : Nat} {old new : Lock} {l : Label PcbPtr}
    (hc : Coherent k' s') (ht : SyncTable k' s')
    (hl : k.lock i = some old) (hl' : k'.lock i = some new)
    (hne : ∀ j, j ≠ i → k'.lock j = k.lock j ∧
      s' (.wait (.lockWaiters j)) = s (.wait (.lockWaiters j)))
    (hiff : new.locked = true ↔ new.owner ≠ none)
    (hcont : new.owner = none → s' (.wait (.lockWaiters i)) = [])
    (hwait : ∀ j p, p ∈ s' (.wait (.lockWaiters j)) → (k'.pcb p).waiting_lock_id = j)
    (hstep : Step (h.fifo hl) l ⟨new.owner, s' (.wait (.lockWaiters i)), hcont⟩) :
    LockStep h k' s' (Function.update still i l) := by
  have hinv : LockInv k' s' := by
    refine ⟨hc, ht, fun j lock hlock => ?_, fun j lock hlock ho => ?_, hwait⟩
    · by_cases e : j = i
      · subst e
        rw [hl', Option.some.injEq] at hlock
        exact hlock ▸ hiff
      · rw [(hne j e).1] at hlock
        exact h.locked_iff j lock hlock
    · by_cases e : j = i
      · subst e
        rw [hl', Option.some.injEq] at hlock
        subst hlock
        exact hcont ho
      · rw [(hne j e).1] at hlock
        rw [(hne j e).2]
        exact h.contended j lock hlock ho
  refine ⟨hinv, fun j lock hlock => ?_, fun j hlock => ?_⟩
  · by_cases e : j = i
    · subst e
      rw [hl, Option.some.injEq] at hlock
      subst hlock
      refine ⟨new, hl', ?_⟩
      rw [Function.update_self]
      exact hstep
    · refine ⟨lock, by rw [(hne j e).1, hlock], ?_⟩
      rw [Function.update_of_ne e]
      exact .stutter rfl (hne j e).2
  · have e : j ≠ i := by
      rintro rfl
      rw [hl] at hlock
      cases hlock
    rw [(hne j e).2]
    exact h.table.lockWaiters_nil hlock

/-! ## The calls -/

/-- A free lock is taken. -/
theorem LockInv.take (h : LockInv k s) {i : Nat} {lock : Lock} (hl : k.lock i = some lock)
    (hfree : lock.locked = false) (p : PcbPtr) :
    LockStep h (k.setObject i (.lock ⟨true, some p⟩)) s (Function.update still i (.take p)) := by
  have howner : lock.owner = none := by
    by_contra hne
    rw [(h.locked_iff i lock hl).2 hne] at hfree
    cases hfree
  refine LockStep.at h (h.coherent.congr rfl rfl fun _ => rfl) (h.table.setLock hl _) hl
    (lock_setObject hl _) (fun j e => ⟨lock_setObject_ne e _, rfl⟩) (by simp) (by simp) h.waiting ?_
  exact .take howner rfl (h.contended i lock hl howner)

/-- The caller joins the line of a held lock. -/
theorem LockInv.queue (h : LockInv k s) {i : Nat} {lock : Lock} (hl : k.lock i = some lock)
    (hheld : lock.locked = true) {p : PcbPtr} {q : Heap QueueId PcbPtr} {f : Pcb → Pcb}
    (hfree : ∀ l, p ∉ s l) (hf : ∀ pcb, (f pcb).waiting_lock_id = i)
    (hc : Coherent { k.modifyPcb p f with queues := q }
      (Function.update s (.wait (.lockWaiters i)) (s (.wait (.lockWaiters i)) ++ [p]))) :
    LockStep h { k.modifyPcb p f with queues := q }
      (Function.update s (.wait (.lockWaiters i)) (s (.wait (.lockWaiters i)) ++ [p]))
      (Function.update still i (.queue p)) := by
  have howner := (h.locked_iff i lock hl).1 hheld
  obtain ⟨o, ho, hobj⟩ := lock_eq_some hl
  refine LockStep.at h hc (h.table.congr rfl rfl fun w n hn => ?_) hl hl
    (fun j e => ⟨rfl, by simp [e]⟩) (h.locked_iff i lock hl) (fun hn => absurd hn howner)
    (fun j n hn => ?_) ?_
  · by_cases e : w = .lockWaiters i
    · subst e
      exact Or.inr ⟨o, ho, by simp [WaitList.Fits, hobj]⟩
    · rw [Function.update_of_ne (by simpa using e)] at hn
      exact Or.inl hn
  · by_cases e : n = p
    · subst e
      by_cases e' : j = i
      · simp [Kernel.modifyPcb, hf, e']
      · rw [Function.update_of_ne (by simpa using e')] at hn
        exact absurd hn (hfree _)
    · have hn' : n ∈ s (.wait (.lockWaiters j)) := by
        by_cases e' : j = i
        · subst e'
          simpa [e] using hn
        · rwa [Function.update_of_ne (by simpa using e')] at hn
      simp [Kernel.modifyPcb, e, h.waiting j n hn']
  · exact .queue howner rfl (by simp [LockInv.fifo])

/-- `handOff`: the owner passes the lock to the head of the line, or frees it. -/
theorem LockInv.handOff (h : LockInv k s) {i : Nat} {lock : Lock} (hl : k.lock i = some lock)
    {p : PcbPtr} (howner : lock.owner = some p) (hfree : ∀ l, p ∉ s l) :
    ∃ k' s' l, Yalnix.handOff k i lock = some k' ∧
      LockStep h k' s' (Function.update still i l) ∧ ((∃ n, l = .grant p n) ∨ l = .free p) ∧
      k'.current_process = k.current_process ∧ k'.idle_process = k.idle_process ∧
      (∀ l, p ∉ s' l) ∧ ∀ j, j ≠ i → k'.sync_table j = k.sync_table j := by
  obtain ⟨k', s', hrun, hhand, hc'⟩ := h.coherent.handOff i lock
  have ht' := hhand.table h.table hl
  have hfree' := (hhand.off hfree).2
  have htable : ∀ j, j ≠ i → k'.sync_table j = k.sync_table j := fun j e => hhand.table_ne e
  cases hhand with
  | free hs =>
    refine ⟨_, s, .free p, hrun, ?_, Or.inr rfl, rfl, rfl, hfree', htable⟩
    refine LockStep.at h hc' ht' hl (lock_setObject hl _) (fun j e => ⟨lock_setObject_ne e _, rfl⟩)
      (by simp) (fun _ => hs) h.waiting ?_
    exact .free howner hs rfl
  | @grant n xs q hs =>
    have hnp : n ≠ p := fun e => hfree (.wait (.lockWaiters i)) (by simp [hs, e])
    have hl' : (handed k i lock n q).lock i = some { lock with owner := some n } := lock_setObject hl _
    refine ⟨_, _, .grant p n, hrun, ?_, Or.inl ⟨n, rfl⟩, rfl, rfl, hfree', htable⟩
    refine LockStep.at h hc' ht' hl hl' (fun j e => ⟨?_, woken_ne (by simpa using e)⟩) ?_ (by simp)
      (fun j m hm => ?_) ?_
    · rw [Kernel.lock, htable j e, Kernel.lock]
    · simp [(h.locked_iff i lock hl).2 (by simp [howner])]
    · have hne := ne_of_mem_woken h.coherent hs hm
      rw [← h.waiting j m (mem_of_mem_woken hs hm)]
      simp [handed, Kernel.setObject, Kernel.modifyPcb, hne]
    · exact .grant howner hnp rfl (by simp [LockInv.fifo, hs])

/-- What a step's label says about its event. -/
structure Explains (k : Kernel) (e : SyncEvent) (i : Nat) (l : Label PcbPtr) : Prop where
  request : l.request = contendedAcquire i (k, e)
  take : ∀ p, l = .take p → e = .call p (.lockAcquire i)
  release : ∀ p, ((∃ n, l = .grant p n) ∨ l = .free p) →
    e = .call p (.lockRelease i) ∨ ∃ c, e = .call p (.cvarWait c i)

theorem Explains.still {e : SyncEvent} {i : Nat} (h : contendedAcquire i (k, e) = none) :
    Explains k e i (still i) := by
  refine ⟨h.symm, fun p hp => ?_, fun p hp => ?_⟩
  · cases hp
  · rcases hp with ⟨n, hn⟩ | hn <;> cases hn

/-- A release of the lock in slot `i`. -/
theorem Explains.released {e : SyncEvent} {i : Nat} {p : PcbPtr} {l : Label PcbPtr}
    (hl : (∃ n, l = .grant p n) ∨ l = .free p)
    (he : e = .call p (.lockRelease i) ∨ ∃ c, e = .call p (.cvarWait c i)) (j : Nat) :
    Explains k e j (Function.update Yalnix.still i l j) := by
  have hnone : contendedAcquire j (k, e) = none := by rcases he with rfl | ⟨c, rfl⟩ <;> rfl
  by_cases ej : j = i
  · subst ej
    rw [Function.update_self]
    rcases hl with ⟨n, rfl⟩ | rfl
    · refine ⟨hnone.symm, (fun _ hp => nomatch hp), fun m hm => ?_⟩
      rcases hm with ⟨_, hm⟩ | hm
      · cases hm; exact he
      · cases hm
    · refine ⟨hnone.symm, (fun _ hp => nomatch hp), fun m hm => ?_⟩
      rcases hm with ⟨_, hm⟩ | hm
      · cases hm
      · cases hm; exact he
  · rw [Function.update_of_ne ej]
    exact .still hnone

theorem LockInv.lockAcquire (h : LockInv k s) (hfree : ∀ l, k.current_process ∉ s l)
    (hidle : k.current_process ≠ k.idle_process) {id rc : Int}
    (hrun : syncLockAcquire k id = some (rc, k')) : ∃ s' lab, LockStep h k' s' lab ∧
      ∀ i, Explains k (.call k.current_process (.lockAcquire id)) i (lab i) := by
  cases hcheck : getCheckSync k id with
  | none =>
    simp only [syncLockAcquire, hcheck, Option.some.injEq, Prod.mk.injEq] at hrun
    obtain ⟨-, rfl⟩ := hrun
    refine ⟨s, _, .refl h, fun i => .still ?_⟩
    have hnot : ¬ (id = i ∧ (k.lock i).any (·.locked)) := by
      rintro ⟨rfl, hany⟩
      obtain ⟨lock, hl, -⟩ := (Option.any_eq_true _ _).1 hany
      obtain ⟨o, ho, -⟩ := lock_eq_some hl
      rw [getCheckSync_of_slot h.table ho] at hcheck
      cases hcheck
    rw [contendedAcquire, if_neg hnot]
  | some o =>
    obtain ⟨ho, hid⟩ := getCheckSync_eq_some hcheck
    cases hlock : o.object.asLock with
    | none => simp [syncLockAcquire, hcheck, hlock] at hrun
    | some lock =>
      have hl := asLock_eq_some hlock ho
      have hreq : ∀ i, contendedAcquire i (k, .call k.current_process (.lockAcquire id)) =
          if i = id.toNat ∧ lock.locked = true then some k.current_process else none := by
        intro i
        by_cases e : i = id.toNat
        · subst e
          simp [contendedAcquire, hid, hl]
        · have : ¬ id = i := by omega
          simp [contendedAcquire, e, this]
      rcases h.coherent.lockAcquire hfree hidle hcheck hlock with ⟨hopen, hrun'⟩ | ⟨hheld, q, hrun', hc⟩
      · have := Option.some.inj (hrun.symm.trans hrun')
        obtain ⟨rfl, rfl⟩ := Prod.mk.inj this
        refine ⟨_, _, h.take hl hopen k.current_process, fun i => ?_⟩
        by_cases e : i = id.toNat
        · subst e
          rw [Function.update_self]
          refine ⟨by rw [hreq]; simp [Label.request, hopen], fun p hp => ?_, fun m hm => ?_⟩
          · cases hp
            rw [hid]
          · rcases hm with ⟨_, hm⟩ | hm <;> cases hm
        · rw [Function.update_of_ne e]
          exact .still (by rw [hreq, if_neg fun hh => e hh.1])
      · have := Option.some.inj (hrun.symm.trans hrun')
        obtain ⟨rfl, rfl⟩ := Prod.mk.inj this
        refine ⟨_, _, h.queue hl hheld hfree (fun pcb => hid.symm) hc, fun i => ?_⟩
        by_cases e : i = id.toNat
        · subst e
          rw [Function.update_self]
          refine ⟨by rw [hreq]; simp [Label.request, hheld], fun p hp => ?_, fun m hm => ?_⟩
          · cases hp
          · rcases hm with ⟨_, hm⟩ | hm <;> cases hm
        · rw [Function.update_of_ne e]
          exact .still (by rw [hreq, if_neg fun hh => e hh.1])

theorem LockInv.lockRelease (h : LockInv k s) (hfree : ∀ l, k.current_process ∉ s l)
    {id rc : Int} (hrun : syncLockRelease k id = some (rc, k')) : ∃ s' lab, LockStep h k' s' lab ∧
      ∀ i, Explains k (.call k.current_process (.lockRelease id)) i (lab i) := by
  have herr : ∃ s' lab, LockStep h k s' lab ∧
      ∀ i, Explains k (.call k.current_process (.lockRelease id)) i (lab i) :=
    ⟨s, _, .refl h, fun i => .still rfl⟩
  unfold syncLockRelease at hrun
  split at hrun
  · simp only [Option.some.injEq, Prod.mk.injEq] at hrun
    exact hrun.2 ▸ herr
  · rename_i o hcheck
    obtain ⟨ho, hid⟩ := getCheckSync_eq_some hcheck
    simp only [Option.bind_eq_bind, Option.bind_eq_some_iff] at hrun
    obtain ⟨lock, hlock, hrun⟩ := hrun
    have hl := asLock_eq_some hlock ho
    split at hrun
    · simp only [Option.bind_eq_some_iff, Option.pure_def, Option.some.injEq,
        Prod.mk.injEq] at hrun
      obtain ⟨-, -, -, rfl⟩ := hrun
      exact herr
    · rename_i howner
      rw [not_not] at howner
      obtain ⟨k₁, s', l, hoff, hst, hlab, -⟩ := h.handOff hl howner hfree
      rw [hoff] at hrun
      simp only [Option.bind_some, Option.pure_def, Option.some.injEq, Prod.mk.injEq] at hrun
      obtain ⟨-, rfl⟩ := hrun
      exact ⟨s', _, hst, Explains.released hlab (Or.inl (by rw [hid]))⟩

theorem LockInv.cvarWait (h : LockInv k s) (hfree : ∀ l, k.current_process ∉ s l)
    (hidle : k.current_process ≠ k.idle_process) {c id rc : Int}
    (hrun : syncCvarWait k c id = some (rc, k')) : ∃ s' lab, LockStep h k' s' lab ∧
      ∀ i, Explains k (.call k.current_process (.cvarWait c id)) i (lab i) := by
  have herr : ∃ s' lab, LockStep h k s' lab ∧
      ∀ i, Explains k (.call k.current_process (.cvarWait c id)) i (lab i) :=
    ⟨s, _, .refl h, fun i => .still rfl⟩
  unfold syncCvarWait at hrun
  split at hrun
  · simp only [Option.some.injEq, Prod.mk.injEq] at hrun
    exact hrun.2 ▸ herr
  · rename_i cv hcv
    split at hrun
    · simp only [Option.some.injEq, Prod.mk.injEq] at hrun
      exact hrun.2 ▸ herr
    · rename_i o hcheck
      obtain ⟨ho, hid⟩ := getCheckSync_eq_some hcheck
      obtain ⟨hcv, hcid⟩ := getCheckSync_eq_some hcv
      simp only [Option.bind_eq_bind, Option.bind_eq_some_iff] at hrun
      obtain ⟨lock, hlock, hrun⟩ := hrun
      have hl := asLock_eq_some hlock ho
      split at hrun
      · simp only [Option.bind_eq_some_iff, Option.pure_def, Option.some.injEq,
          Prod.mk.injEq] at hrun
        obtain ⟨-, -, -, rfl⟩ := hrun
        exact herr
      · rename_i howner
        rw [not_not] at howner
        obtain ⟨k₁, s', l, hoff, hst, hlab, hcur, hi, hfree', htable⟩ := h.handOff hl howner hfree
        rw [hoff] at hrun
        simp only [Option.bind_some, Option.bind_eq_some_iff, Option.pure_def, Option.some.injEq,
          Prod.mk.injEq] at hrun
        obtain ⟨⟨⟩, hcvar, k₂, hins, -, rfl⟩ := hrun
        have hfit : (WaitList.cvarWaiters c.toNat).Fits cv.object := by
          cases hobj : cv.object with
          | cvar => trivial
          | pipe => rw [hobj] at hcvar; cases hcvar
          | lock => rw [hobj] at hcvar; cases hcvar
        -- the condition variable is not the lock
        have hne : c.toNat ≠ id.toNat := by
          intro e
          rw [e, ho, Option.some.injEq] at hcv
          subst hcv
          cases hobj : o.object with
          | cvar => rw [hobj] at hlock; cases hlock
          | pipe => rw [hobj] at hlock; cases hlock
          | lock => rw [hobj] at hfit; exact hfit
        obtain ⟨k₃, q, hins', hk₃, hc⟩ := (hst.inv.coherent.transit hfree').enqueue
          (l := .wait (.cvarWaiters c.toNat))
          (fun pcb => { pcb with waiting_cvar_id := c, state := .processBlocked }) rfl
          (by rw [← hi] at hidle; exact hidle)
        obtain rfl : k₂ = k₃ := Option.some.inj (hins.symm.trans hins')
        rw [hk₃] at hc ⊢
        refine ⟨_, _, hst.congr hc (hst.inv.table.congr rfl rfl fun w n hn => ?_) (fun _ => rfl)
          (fun i => by simp) (fun i n hn => ?_),
          Explains.released hlab (Or.inr ⟨c, by rw [hid]⟩)⟩
        · by_cases e : w = .cvarWaiters c.toNat
          · subst e
            exact Or.inr ⟨cv, by rw [← hcv]; exact htable _ hne, hfit⟩
          · rw [Function.update_of_ne (by simpa using e)] at hn
            exact Or.inl hn
        · have : n ≠ k.current_process := by rintro rfl; exact hfree' _ hn
          simp [Kernel.modifyPcb, this]

end Yalnix
