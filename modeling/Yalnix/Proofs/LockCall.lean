import Yalnix.Proofs.Wake

/-!
# The calls on locks and condition variables

Everything that `handOff`, `SyncLockAcquire`, `SyncCvarWait` and `SyncCvarSignal` do to processes and
lists, when the caller is on no list.
-/

namespace Yalnix

open Intrusive

variable {k k' : Kernel} {s s' : QueueId → List PcbPtr} {i : Nat} {lock : Lock} {p : PcbPtr}

/-! ## The lock in a slot -/

theorem lock_eq_some {i : Nat} {lock : Lock} (h : k.lock i = some lock) :
    ∃ o, k.sync_table i = some o ∧ o.object = .lock lock := by
  unfold Kernel.lock at h
  rw [Option.bind_eq_some_iff] at h
  obtain ⟨o, ho, hlock⟩ := h
  refine ⟨o, ho, ?_⟩
  unfold SyncObject.asLock at hlock
  split at hlock
  · rename_i l heq
    rw [heq, Option.some.inj hlock]
  · cases hlock

theorem lock_setObject {i : Nat} {lock : Lock} (h : k.lock i = some lock) (x : SyncObject) :
    (k.setObject i x).lock i = x.asLock := by
  obtain ⟨o, ho, -⟩ := lock_eq_some h
  simp [Kernel.lock, Kernel.setObject, ho]

theorem lock_setObject_ne {i j : Nat} (h : j ≠ i) (x : SyncObject) :
    (k.setObject i x).lock j = k.lock j := by
  simp [Kernel.lock, Kernel.setObject, h]

/-- A lock stays a lock. -/
theorem SyncTable.setLock (h : SyncTable k s) {i : Nat} {lock : Lock} (hl : k.lock i = some lock)
    (new : Lock) : SyncTable (k.setObject i (.lock new)) s := by
  obtain ⟨o, ho, hobj⟩ := lock_eq_some hl
  refine h.setObject ho fun w hw => ?_
  rw [hobj] at hw
  cases w <;> exact hw

/-- Only locks have lock waiters. -/
theorem SyncTable.lockWaiters_nil (h : SyncTable k s) {i : Nat} (hl : k.lock i = none) :
    s (.wait (.lockWaiters i)) = [] := by
  refine List.eq_nil_iff_forall_not_mem.2 fun p hp => ?_
  obtain ⟨o, ho, hfit⟩ := h.fits _ p hp
  have ho : k.sync_table i = some o := ho
  obtain ⟨oid, obj⟩ := o
  unfold Kernel.lock at hl
  rw [ho] at hl
  cases obj with
  | pipe => exact hfit
  | lock l => cases hl
  | cvar => exact hfit

theorem asLock_eq_some {o : SyncObj} {lock : Lock} (h : o.object.asLock = some lock) {i : Nat}
    (ho : k.sync_table i = some o) : k.lock i = some lock := by
  rw [Kernel.lock, ho]
  exact h

/-! ## The release -/

/-- The waiter `next` has become ready, and owns the lock. -/
def handed (k : Kernel) (i : Nat) (lock : Lock) (next : PcbPtr) (q : Heap QueueId PcbPtr) : Kernel :=
  { (k.modifyPcb next fun pcb => { pcb with state := .processReady, waiting_lock_id := -1 }).setObject i
      (.lock { lock with owner := some next }) with queues := q }

/-- The first waiter gets the lock, or nobody does. -/
inductive HandOff (k : Kernel) (s : QueueId → List PcbPtr) (i : Nat) (lock : Lock) :
    Kernel → (QueueId → List PcbPtr) → Prop where
  | free (hs : s (.wait (.lockWaiters i)) = []) :
      HandOff k s i lock (k.setObject i (.lock ⟨false, none⟩)) s
  | grant {next : PcbPtr} {xs : List PcbPtr} {q : Heap QueueId PcbPtr}
      (hs : s (.wait (.lockWaiters i)) = next :: xs) :
      HandOff k s i lock (handed k i lock next q) (woken s (.lockWaiters i) next xs)

theorem Coherent.handOff (hc : Coherent k s) (i : Nat) (lock : Lock) : ∃ k' s',
    Yalnix.handOff k i lock = some k' ∧ HandOff k s i lock k' s' ∧ Coherent k' s' := by
  cases hs : s (.wait (.lockWaiters i)) with
  | nil =>
    refine ⟨_, s, ?_, .free hs, hc.congr rfl rfl fun _ => rfl⟩
    rw [Yalnix.handOff, if_neg (not_not.2 (hc.count_eq_zero.2 hs))]
  | cons next xs =>
    obtain ⟨q, hpop, hwake⟩ := hc.wake hs
    obtain ⟨k₁, q', hadd, hk₁, hc'⟩ := hwake (({ k with queues := q } : Kernel).modifyPcb next
        fun pcb => { pcb with state := .processDefault, waiting_lock_id := -1 }) rfl rfl
      (fun m hm => by simp [Kernel.modifyPcb, hm]) (by simp [Kernel.modifyPcb])
    have hrun : Yalnix.handOff k i lock =
        some (k₁.setObject i (.lock { lock with owner := some next })) := by
      rw [Yalnix.handOff, if_pos (fun e => by simp [hc.count_eq_zero.1 e] at hs), hpop]
      simp only [Option.bind_eq_bind, Option.bind_some]
      rw [hadd]
      rfl
    have hk : k₁.setObject i (.lock { lock with owner := some next }) = handed k i lock next q' := by
      rw [hk₁]
      simp [handed, Kernel.setObject, Kernel.setState, Kernel.modifyPcb]
    rw [hk] at hrun
    refine ⟨_, _, hrun, .grant hs, ?_⟩
    rw [← hk]
    exact hc'.congr rfl rfl fun _ => rfl

namespace HandOff

theorem current (h : HandOff k s i lock k' s') : k'.current_process = k.current_process := by
  cases h <;> rfl

theorem idle (h : HandOff k s i lock k' s') : k'.idle_process = k.idle_process := by
  cases h <;> rfl

theorem table_ne (h : HandOff k s i lock k' s') {j : Nat} (hj : j ≠ i) :
    k'.sync_table j = k.sync_table j := by
  cases h with
  | free => simp [Kernel.setObject, hj]
  | grant hs => simp [handed, Kernel.setObject, Kernel.modifyPcb, hj]

/-- Who is on no list is left alone. -/
theorem off (h : HandOff k s i lock k' s') (hoff : ∀ l, p ∉ s l) :
    k'.pcb p = k.pcb p ∧ ∀ l, p ∉ s' l := by
  cases h with
  | free => exact ⟨rfl, hoff⟩
  | @grant next xs q hs =>
    have hne : p ≠ next := fun e => hoff (.wait (.lockWaiters i)) (by simp [hs, e])
    refine ⟨by simp [handed, Kernel.setObject, Kernel.modifyPcb, hne], fun l hl => ?_⟩
    rcases mem_woken hs hl with hl | ⟨e, -⟩
    · exact hoff l hl
    · exact hne e

/-- The other wait lists stay, and so do those who wait there. -/
theorem other (h : HandOff k s i lock k' s') (hc : Coherent k s) {v : WaitList}
    (hv : v ≠ .lockWaiters i) : s' (.wait v) = s (.wait v) ∧
      ∀ n ∈ s (.wait v), k'.pcb n = k.pcb n := by
  cases h with
  | free => exact ⟨rfl, fun _ _ => rfl⟩
  | @grant next xs q hs =>
    refine ⟨woken_ne hv, fun n hn => ?_⟩
    have hne : n ≠ next := by
      rintro rfl
      have := hc.unique hn (show n ∈ s (.wait (.lockWaiters i)) by simp [hs])
      simp at this
      exact hv this
    simp [handed, Kernel.setObject, Kernel.modifyPcb, hne]

theorem table (h : HandOff k s i lock k' s') (ht : SyncTable k s) (hl : k.lock i = some lock) :
    SyncTable k' s' := by
  cases h with
  | free => exact ht.setLock hl _
  | @grant next xs q hs =>
    exact (ht.setLock hl { lock with owner := some next }).congr rfl rfl fun _ _ hn =>
      Or.inl (mem_of_mem_woken hs hn)

end HandOff

/-! ## The calls -/

/-- The caller waits for the lock. -/
def lockQueued (k : Kernel) (lock_id : Int) (q : Heap QueueId PcbPtr) : Kernel :=
  { k.modifyPcb k.current_process fun pcb =>
      { pcb with state := .processBlocked, waiting_lock_id := lock_id } with queues := q }

/-- A free lock is taken, and for a held one the caller waits. -/
theorem Coherent.lockAcquire (hc : Coherent k s) (hoff : ∀ l, k.current_process ∉ s l)
    (hidle : k.current_process ≠ k.idle_process) {lock_id : Int} {o : SyncObj}
    (hcheck : getCheckSync k lock_id = some o) (hlock : o.object.asLock = some lock) :
    (lock.locked = false ∧ syncLockAcquire k lock_id =
      some (SUCCESS, k.setObject lock_id.toNat (.lock ⟨true, some k.current_process⟩))) ∨
    (lock.locked = true ∧ ∃ q, syncLockAcquire k lock_id = some (PCB_BLOCKED, lockQueued k lock_id q) ∧
      Coherent (lockQueued k lock_id q) (Function.update s (.wait (.lockWaiters lock_id.toNat))
        (s (.wait (.lockWaiters lock_id.toNat)) ++ [k.current_process]))) := by
  unfold syncLockAcquire
  simp only [hcheck, hlock, Option.bind_eq_bind, Option.bind_some]
  cases hheld : lock.locked with
  | false => exact Or.inl ⟨rfl, rfl⟩
  | true =>
    obtain ⟨k₁, q, hins, hk₁, hc₁⟩ := (hc.transit hoff).enqueue (l := .wait (.lockWaiters lock_id.toNat))
      (fun pcb => { pcb with state := .processBlocked, waiting_lock_id := lock_id }) rfl hidle
    have hcur : k₁.current_process = k.current_process := by
      obtain ⟨q', -, rfl⟩ := Option.map_eq_some_iff.1 hins
      rfl
    rw [hk₁] at hc₁
    refine Or.inr ⟨rfl, q, ?_, hc₁⟩
    simp only [Bool.not_true, Bool.false_eq_true, if_false, hins, Option.bind_some, Option.pure_def, hcur,
      hk₁]
    rfl

/-- The caller waits for the condition variable. -/
def cvarQueued (k : Kernel) (p : PcbPtr) (cvar_id : Int) (q : Heap QueueId PcbPtr) : Kernel :=
  { k.modifyPcb p fun pcb => { pcb with waiting_cvar_id := cvar_id, state := .processBlocked } with
    queues := q }

/-- The owner of the lock gives it up and waits. -/
theorem Coherent.cvarWait (hc : Coherent k s) (hoff : ∀ l, k.current_process ∉ s l)
    (hidle : k.current_process ≠ k.idle_process) {cvar_id lock_id : Int} {cvar o : SyncObj}
    (hcvar : getCheckSync k cvar_id = some cvar) (htype : cvar.object.asCvar = some ())
    (hcheck : getCheckSync k lock_id = some o) (hlock : o.object.asLock = some lock)
    (howner : lock.owner = some k.current_process) : ∃ k₁ s₁ q,
      HandOff k s lock_id.toNat lock k₁ s₁ ∧ Coherent k₁ s₁ ∧
      syncCvarWait k cvar_id lock_id =
        some (PCB_BLOCKED, cvarQueued k₁ k.current_process cvar_id q) ∧
      Coherent (cvarQueued k₁ k.current_process cvar_id q)
        (Function.update s₁ (.wait (.cvarWaiters cvar_id.toNat))
          (s₁ (.wait (.cvarWaiters cvar_id.toNat)) ++ [k.current_process])) := by
  obtain ⟨k₁, s₁, hrun, hhand, hc₁⟩ := hc.handOff lock_id.toNat lock
  obtain ⟨k₂, q, hins, hk₂, hc₂⟩ := (hc₁.transit (hhand.off hoff).2).enqueue
    (l := .wait (.cvarWaiters cvar_id.toNat))
    (fun pcb => { pcb with waiting_cvar_id := cvar_id, state := .processBlocked }) rfl
    (by rwa [hhand.idle])
  rw [hk₂] at hc₂
  refine ⟨k₁, s₁, q, hhand, hc₁, ?_, hc₂⟩
  unfold syncCvarWait
  simp only [hcvar, hcheck, hlock, Option.bind_eq_bind, Option.bind_some, howner, ne_eq, not_true,
    if_false, hrun, htype, hins, Option.pure_def, hk₂]
  rfl

/-- The waiter `p` of a condition variable has become ready. -/
def cvarWoken (k : Kernel) (p : PcbPtr) (q : Heap QueueId PcbPtr) : Kernel :=
  { k.modifyPcb p fun pcb => { pcb with waiting_cvar_id := -1, state := .processReady } with queues := q }

/-- A signal wakes the first waiter, if there is one. -/
theorem Coherent.cvarSignal (hc : Coherent k s) {cvar_id : Int} {cvar : SyncObj}
    (hcvar : getCheckSync k cvar_id = some cvar) (htype : cvar.object.asCvar = some ()) :
    (s (.wait (.cvarWaiters cvar_id.toNat)) = [] ∧ syncCvarSignal k cvar_id = some (0, k)) ∨
    ∃ n xs q, s (.wait (.cvarWaiters cvar_id.toNat)) = n :: xs ∧
      syncCvarSignal k cvar_id = some (0, cvarWoken k n q) ∧
      Coherent (cvarWoken k n q) (woken s (.cvarWaiters cvar_id.toNat) n xs) := by
  unfold syncCvarSignal
  simp only [hcvar, htype, Option.bind_eq_bind, Option.bind_some]
  cases hs : s (.wait (.cvarWaiters cvar_id.toNat)) with
  | nil =>
    rw [if_pos (hc.count_eq_zero.2 hs)]
    exact Or.inl ⟨rfl, rfl⟩
  | cons n xs =>
    obtain ⟨k₁, q, hwake, hk₁, hc₁⟩ := hc.wakeCvarWaiter hs
    rw [if_neg (fun e => by simp [hc.count_eq_zero.1 e] at hs), hwake]
    subst hk₁
    exact Or.inr ⟨n, xs, q, rfl, rfl, hc₁⟩

/-- The sequences after all waiters of the condition variable in slot `i` went to the end of the ready
queue. -/
def allWoken (s : QueueId → List PcbPtr) (i : Nat) : QueueId → List PcbPtr :=
  Function.update (Function.update s (.wait (.cvarWaiters i)) []) .ready
    (s .ready ++ s (.wait (.cvarWaiters i)))

/-- Waking the first one and then the others is waking all. -/
theorem allWoken_woken {xs : List PcbPtr} (hs : s (.wait (.cvarWaiters i)) = p :: xs) :
    allWoken (woken s (.cvarWaiters i) p xs) i = allWoken s i := by
  funext l
  by_cases e : l = .ready
  · subst e
    simp [allWoken, hs]
  · by_cases e' : l = .wait (.cvarWaiters i)
    · subst e'
      simp [allWoken]
    · simp [allWoken, woken, e, e']

theorem Coherent.broadcastLoop (hc : Coherent k s) : ∃ k',
    Yalnix.broadcastLoop i (s (.wait (.cvarWaiters i))).length k = some k' ∧
    Coherent k' (allWoken s i) := by
  generalize hn : s (.wait (.cvarWaiters i)) = waiters
  induction waiters generalizing k s with
  | nil =>
    have hs : allWoken s i = s := by
      unfold allWoken
      rw [hn, List.append_nil, ← hn, Function.update_eq_self, Function.update_eq_self]
    refine ⟨k, ?_, by rwa [hs]⟩
    rw [List.length_nil, Yalnix.broadcastLoop, if_pos (hc.count_eq_zero.2 hn)]
  | cons p xs ih =>
    obtain ⟨k₁, q, hwake, -, hc₁⟩ := hc.wakeCvarWaiter hn
    obtain ⟨k', hrun, hc'⟩ := ih hc₁ woken_self
    rw [allWoken_woken hn] at hc'
    refine ⟨k', ?_, hc'⟩
    rw [List.length_cons, Yalnix.broadcastLoop, if_neg (fun e => by simp [hc.count_eq_zero.1 e] at hn),
      hwake]
    exact hrun

/-- A broadcast wakes all waiters. -/
theorem Coherent.cvarBroadcast (hc : Coherent k s) {cvar_id ret : Int} {cvar : SyncObj}
    (hcvar : getCheckSync k cvar_id = some cvar) (htype : cvar.object.asCvar = some ()) :
    ∃ rc k', syncCvarBroadcast k cvar_id ret = some (rc, k') ∧
      Coherent k' (allWoken s cvar_id.toNat) := by
  obtain ⟨k', hrun, hc'⟩ := hc.broadcastLoop (i := cvar_id.toNat)
  unfold syncCvarBroadcast
  simp only [hcvar, htype, Option.bind_eq_bind, Option.bind_some]
  split
  · rename_i hcount
    have hs := hc.count_eq_zero.1 hcount
    rw [hs, List.length_nil, Yalnix.broadcastLoop, if_pos hcount] at hrun
    obtain rfl := Option.some.inj hrun
    exact ⟨0, k, rfl, hc'⟩
  · rw [hc.count, Int.toNat_natCast, hrun]
    exact ⟨ret, k', rfl, hc'⟩

end Yalnix
