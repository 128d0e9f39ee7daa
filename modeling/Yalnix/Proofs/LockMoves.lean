import Yalnix.Proofs.PipeMoves

/-!
# The moves of a call on locks and condition variables

A release is one move, a wait two, a broadcast one for each waiter.
-/

namespace Yalnix

open Intrusive Transition

variable {hw : Hardware} {k k' : Kernel} {s s' : QueueId → List PcbPtr} {p : PcbPtr}
  {T : WaitList → Prop}

theorem syncInit_moves {object : SyncObject} {lists : Nat → List WaitList} {idp rc : Int}
    {allocated : Bool} (hc : Coherent k s) (ht : SyncTable k s) (hoff : ∀ l, p ∉ s l)
    (hlists : ∀ i, ∀ w ∈ lists i, w.slot = i)
    (hfree : ∀ lock, object.asLock = some lock → lock.owner = none)
    (hrun : syncInit object lists k idp allocated = some (rc, k')) :
    ∃ s', SyncMoves p T k s k' s' := by
  obtain ⟨hc', ht'⟩ := syncInit_keeps hc ht hlists hrun
  rcases syncInit_cases hrun with rfl | ⟨i, hi, hnew, rfl⟩
  · exact ⟨s, .refl _ _⟩
  · refine ⟨s, .single (.own ⟨⟨rfl, rfl, rfl, rfl, rfl, rfl, rfl, rfl, rfl, rfl, fun _ => .refl _⟩,
      hc', ht', fun _ _ => rfl, fun j lock o hl ho => Or.inr ⟨lock, ?_, ho⟩⟩ hoff fun _ => rfl)⟩
    by_cases e : j = i
    · subst e
      have hl : object.asLock = some lock := by simpa [Kernel.lock] using hl
      rw [hfree lock hl] at ho
      cases ho
    · simpa [Kernel.lock, e] using hl

/-- A lock of `k'` is that of `k`, or the one that was set. -/
theorem owners_setLock {i : Nat} {lock new : Lock} (hl : k.lock i = some lock)
    (ht : k'.sync_table = (k.setObject i (.lock new)).sync_table) {j : Nat} {lock' : Lock}
    (hl' : k'.lock j = some lock') : lock' = new ∨ k.lock j = some lock' := by
  have hl' : (k.setObject i (.lock new)).lock j = some lock' := by
    unfold Kernel.lock at hl' ⊢
    rwa [← ht]
  by_cases e : j = i
  · subst e
    rw [lock_setObject hl] at hl'
    exact Or.inl (Option.some.inj hl').symm
  · rw [lock_setObject_ne e] at hl'
    exact Or.inr hl'

/-- The caller takes or frees a lock. -/
theorem setLock_move (hc : Coherent k s) (ht : SyncTable k s) (hoff : ∀ l, p ∉ s l) {i : Nat}
    {lock new : Lock} (hl : k.lock i = some lock) (hnew : ∀ o, new.owner = some o → o = p) :
    SyncMove p T k s (k.setObject i (.lock new)) s := by
  refine .own ⟨⟨rfl, rfl, rfl, rfl, rfl, rfl, rfl, rfl, rfl, rfl, fun _ => .refl _⟩,
    hc.congr rfl rfl fun _ => rfl, ht.setLock hl new, fun _ _ => rfl, fun j lock' o hl' ho => ?_⟩ hoff
    fun _ => rfl
  rcases owners_setLock hl rfl hl' with rfl | hl'
  · exact Or.inl (hnew o ho)
  · exact Or.inr ⟨lock', hl', ho⟩

/-- The caller is put on a wait list, and its state and waiting id say so. -/
theorem SyncTouch.enqueue (hc : Coherent k s) (ht : SyncTable k s) (hoff : ∀ l, p ∉ s l)
    (hidle : p ≠ k.idle_process) {w : WaitList} {k₁ : Kernel}
    (hfit : ∃ o, k.sync_table w.slot = some o ∧ w.Fits o.object) (f : Pcb → Pcb)
    (hst : (f (k.pcb p)).state = .processBlocked) (hsync : (k.pcb p).Synced (f (k.pcb p)))
    (hins : k.insertTail (.wait w) p = some k₁) :
    SyncTouch p k (k₁.modifyPcb p f) (Function.update s (.wait w) (s (.wait w) ++ [p])) ∧
      (k₁.modifyPcb p f).pcb p = f (k.pcb p) := by
  obtain ⟨k₂, q, hins', hk₂, hc₂⟩ := (hc.transit hoff).enqueue (l := .wait w) f hst hidle
  obtain rfl : k₁ = k₂ := Option.some.inj (hins.symm.trans hins')
  rw [hk₂] at hc₂ ⊢
  have hne : ∀ n, n ≠ p → ({ k.modifyPcb p f with queues := q } : Kernel).pcb n = k.pcb n :=
    fun n hn => by simp [Kernel.modifyPcb, hn]
  refine ⟨⟨⟨rfl, rfl, rfl, rfl, rfl, rfl, rfl, rfl, rfl, rfl, synced_of_others hne ?_⟩, hc₂,
    ht.congr rfl rfl fun v n hn => ?_, hne, fun j lock o hl ho => Or.inr ⟨lock, hl, ho⟩⟩, ?_⟩
  · simpa [Kernel.modifyPcb] using hsync
  · by_cases e : v = w
    · exact Or.inr (e ▸ hfit)
    · rw [Function.update_of_ne (by simpa using e)] at hn
      exact Or.inl hn
  · simp [Kernel.modifyPcb]

/-- `handOff` wakes the first waiter, or the caller frees the lock. -/
theorem handOff_move (hc : Coherent k s) (ht : SyncTable k s) (hoff : ∀ l, p ∉ s l) {i : Nat}
    {lock : Lock} (hl : k.lock i = some lock) (hT : T (.lockWaiters i))
    (hrun : handOff k i lock = some k') : ∃ s', SyncMove p T k s k' s' ∧ (∀ l, p ∉ s' l) ∧
      ∀ j, j ≠ i → k'.sync_table j = k.sync_table j := by
  obtain ⟨k₁, s', hrun', hhand, hc'⟩ := hc.handOff i lock
  obtain rfl : k₁ = k' := Option.some.inj (hrun'.symm.trans hrun)
  have ht' := hhand.table ht hl
  have hoff' := (hhand.off hoff).2
  have htable : ∀ j, j ≠ i → k₁.sync_table j = k.sync_table j := fun j e => hhand.table_ne e
  cases hhand with
  | free => exact ⟨s, setLock_move hc ht hoff hl (fun _ ho => by cases ho), hoff', htable⟩
  | @grant n xs q hs =>
    have hne : ∀ m, m ≠ n → (handed k i lock n q).pcb m = k.pcb m := fun m hm => by
      simp [handed, Kernel.setObject, Kernel.modifyPcb, hm]
    have hframe : SyncFrame k (handed k i lock n q) :=
      ⟨rfl, rfl, rfl, rfl, rfl, rfl, rfl, rfl, rfl, rfl, synced_of_others hne (by
        simp [Pcb.Synced, handed, Kernel.setObject, Kernel.modifyPcb])⟩
    refine ⟨_, .wake (w := .lockWaiters i) (q := n) ⟨hframe, hc', ht', hne, fun j lock' o hl' ho => ?_⟩
      hs hT (fun y => ?_) (Or.inl ?_), hoff', htable⟩
    · rcases owners_setLock hl rfl hl' with rfl | hl'
      · exact Or.inl (Option.some.inj ho).symm
      · exact Or.inr ⟨lock', hl', ho⟩
    · cases y <;> simp [Pcb.waitingId, WaitList.type, handed, Kernel.setObject, Kernel.modifyPcb]
    · simp [handed, Kernel.setObject, Kernel.modifyPcb]

/-- A waiter of a condition variable is woken. -/
theorem wakeCvarWaiter_move (hc : Coherent k s) (ht : SyncTable k s) {i : Nat} {n : PcbPtr}
    {xs : List PcbPtr} (hs : s (.wait (.cvarWaiters i)) = n :: xs) (hT : T (.cvarWaiters i))
    (hrun : wakeCvarWaiter k i = some k') : SyncMove p T k s k' (woken s (.cvarWaiters i) n xs) := by
  obtain ⟨k₁, q, hwake, hk₁, hc'⟩ := hc.wakeCvarWaiter hs
  obtain rfl : k' = k₁ := Option.some.inj (hrun.symm.trans hwake)
  have hne : ∀ m, m ≠ n → k'.pcb m = k.pcb m := fun m hm => by simp [hk₁, Kernel.modifyPcb, hm]
  refine .wake (w := .cvarWaiters i) (q := n) ⟨?_, hc', ht.woken hs (by rw [hk₁]; rfl)
    (by rw [hk₁]; rfl), hne, fun j lock o hl ho => Or.inr ⟨lock, ?_, ho⟩⟩ hs hT (fun y => ?_)
    (Or.inl ?_)
  · subst hk₁
    exact ⟨rfl, rfl, rfl, rfl, rfl, rfl, rfl, rfl, rfl, rfl,
      synced_of_others hne (by simp [Pcb.Synced, Kernel.modifyPcb])⟩
  · subst hk₁
    exact hl
  · cases y <;> simp [Pcb.waitingId, WaitList.type, hk₁, Kernel.modifyPcb]
  · simp [hk₁, Kernel.modifyPcb]

theorem lockAcquire_moves (hc : Coherent k s) (ht : SyncTable k s)
    (hoff : ∀ l, k.current_process ∉ s l) (hidle : k.current_process ≠ k.idle_process) {id rc : Int}
    (hrun : syncLockAcquire k id = some (rc, k')) :
    ∃ s', SyncMoves k.current_process (SyncCall.lockAcquire id).Touches k s k' s' := by
  unfold syncLockAcquire at hrun
  split at hrun
  · simp only [Option.some.injEq, Prod.mk.injEq] at hrun
    obtain ⟨-, rfl⟩ := hrun
    exact ⟨s, .refl _ _⟩
  · rename_i o hcheck
    obtain ⟨ho, hid⟩ := getCheckSync_eq_some hcheck
    simp only [Option.bind_eq_bind, Option.bind_eq_some_iff] at hrun
    obtain ⟨lock, hlock, hrun⟩ := hrun
    have hl := asLock_eq_some hlock ho
    split at hrun
    · simp only [Option.pure_def, Option.some.injEq, Prod.mk.injEq] at hrun
      obtain ⟨-, rfl⟩ := hrun
      exact ⟨s, .single (setLock_move hc ht hoff hl fun o ho => (Option.some.inj ho).symm)⟩
    · simp only [Option.bind_eq_some_iff, Option.pure_def, Option.some.injEq, Prod.mk.injEq] at hrun
      obtain ⟨k₁, hins, -, rfl⟩ := hrun
      obtain ⟨o', ho', hobj⟩ := lock_eq_some hl
      have hcur : k₁.current_process = k.current_process := by
        unfold Kernel.insertTail at hins
        obtain ⟨q, -, rfl⟩ := Option.map_eq_some_iff.1 hins
        rfl
      rw [hcur]
      obtain ⟨htouch, hpcb⟩ := SyncTouch.enqueue hc ht hoff hidle (w := .lockWaiters id.toNat)
        ⟨o', ho', by simp [WaitList.Fits, hobj]⟩
        (fun pcb => { pcb with state := .processBlocked, waiting_lock_id := id }) rfl
        (by simp [Pcb.Synced]) hins
      refine ⟨_, .single (.block htouch hoff rfl fun y => ?_)⟩
      rw [hpcb]
      cases y <;> simp [Pcb.waitingId, WaitList.type, WaitList.slot, hid]

theorem lockRelease_moves (hc : Coherent k s) (ht : SyncTable k s)
    (hoff : ∀ l, k.current_process ∉ s l) {id rc : Int}
    (hrun : syncLockRelease k id = some (rc, k')) :
    ∃ s', SyncMoves k.current_process (SyncCall.lockRelease id).Touches k s k' s' := by
  unfold syncLockRelease at hrun
  split at hrun
  · simp only [Option.some.injEq, Prod.mk.injEq] at hrun
    obtain ⟨-, rfl⟩ := hrun
    exact ⟨s, .refl _ _⟩
  · rename_i o hcheck
    obtain ⟨ho, hid⟩ := getCheckSync_eq_some hcheck
    simp only [Option.bind_eq_bind, Option.bind_eq_some_iff] at hrun
    obtain ⟨lock, hlock, hrun⟩ := hrun
    have hl := asLock_eq_some hlock ho
    split at hrun
    · simp only [Option.bind_eq_some_iff, Option.pure_def, Option.some.injEq, Prod.mk.injEq] at hrun
      obtain ⟨-, -, -, rfl⟩ := hrun
      exact ⟨s, .refl _ _⟩
    · simp only [Option.bind_eq_some_iff, Option.pure_def, Option.some.injEq, Prod.mk.injEq] at hrun
      obtain ⟨k₁, hoffer, -, rfl⟩ := hrun
      obtain ⟨s', hmove, -⟩ := handOff_move (T := (SyncCall.lockRelease id).Touches) hc ht hoff hl rfl
        hoffer
      exact ⟨s', .single hmove⟩

theorem cvarWait_moves (hc : Coherent k s) (ht : SyncTable k s)
    (hoff : ∀ l, k.current_process ∉ s l) (hidle : k.current_process ≠ k.idle_process)
    {c id rc : Int} (hrun : syncCvarWait k c id = some (rc, k')) :
    ∃ s', SyncMoves k.current_process (SyncCall.cvarWait c id).Touches k s k' s' := by
  unfold syncCvarWait at hrun
  split at hrun
  · simp only [Option.some.injEq, Prod.mk.injEq] at hrun
    obtain ⟨-, rfl⟩ := hrun
    exact ⟨s, .refl _ _⟩
  · rename_i cv hcv
    split at hrun
    · simp only [Option.some.injEq, Prod.mk.injEq] at hrun
      obtain ⟨-, rfl⟩ := hrun
      exact ⟨s, .refl _ _⟩
    · rename_i o hcheck
      obtain ⟨ho, hid⟩ := getCheckSync_eq_some hcheck
      obtain ⟨hcv, hcid⟩ := getCheckSync_eq_some hcv
      simp only [Option.bind_eq_bind, Option.bind_eq_some_iff] at hrun
      obtain ⟨lock, hlock, hrun⟩ := hrun
      have hl := asLock_eq_some hlock ho
      split at hrun
      · simp only [Option.bind_eq_some_iff, Option.pure_def, Option.some.injEq,
          Prod.mk.injEq] at hrun
        obtain ⟨-, -, -, rfl⟩ := hrun
        exact ⟨s, .refl _ _⟩
      · simp only [Option.bind_eq_some_iff, Option.pure_def, Option.some.injEq,
          Prod.mk.injEq] at hrun
        obtain ⟨k₁, hoffer, ⟨⟩, hcvar, k₂, hins, -, rfl⟩ := hrun
        obtain ⟨s₁, hmove, hoff₁, htable⟩ := handOff_move (T := (SyncCall.cvarWait c id).Touches)
          hc ht hoff hl (Or.inl rfl) hoffer
        have hfit : (WaitList.cvarWaiters c.toNat).Fits cv.object := by
          cases hobj : cv.object with
          | cvar => trivial
          | pipe => rw [hobj] at hcvar; cases hcvar
          | lock => rw [hobj] at hcvar; cases hcvar
        -- the condition variable is not the lock
        have hne : c.toNat ≠ id.toNat := by
          intro e
          rw [e, ho, Option.some.injEq] at hcv
          subst hcv
          cases hobj : o.object with
          | cvar => rw [hobj] at hlock; cases hlock
          | pipe => rw [hobj] at hlock; cases hlock
          | lock => rw [hobj] at hfit; exact hfit
        obtain ⟨htouch, hpcb⟩ := SyncTouch.enqueue hmove.coherent hmove.table hoff₁
          (by rw [hmove.frame.idle]; exact hidle) (w := .cvarWaiters c.toNat)
          ⟨cv, (htable _ hne).trans hcv, hfit⟩
          (fun pcb => { pcb with waiting_cvar_id := c, state := .processBlocked }) rfl
          (by simp [Pcb.Synced]) hins
        refine ⟨_, .head hmove (.single (.block htouch hoff₁ (Or.inr rfl) fun y => ?_))⟩
        rw [hpcb]
        cases y <;> simp [Pcb.waitingId, WaitList.type, WaitList.slot, hcid]

theorem cvarSignal_moves (hc : Coherent k s) (ht : SyncTable k s) {id rc : Int}
    (hrun : syncCvarSignal k id = some (rc, k')) :
    ∃ s', SyncMoves p (SyncCall.cvarSignal id).Touches k s k' s' := by
  unfold syncCvarSignal at hrun
  split at hrun
  · simp only [Option.some.injEq, Prod.mk.injEq] at hrun
    obtain ⟨-, rfl⟩ := hrun
    exact ⟨s, .refl _ _⟩
  · simp only [Option.bind_eq_bind, Option.bind_eq_some_iff] at hrun
    obtain ⟨⟨⟩, -, hrun⟩ := hrun
    split at hrun
    · simp only [Option.pure_def, Option.some.injEq, Prod.mk.injEq] at hrun
      obtain ⟨-, rfl⟩ := hrun
      exact ⟨s, .refl _ _⟩
    · rename_i hcount
      simp only [Option.bind_eq_some_iff, Option.pure_def, Option.some.injEq, Prod.mk.injEq] at hrun
      obtain ⟨k₁, hwake, -, rfl⟩ := hrun
      cases hs : s (.wait (.cvarWaiters id.toNat)) with
      | nil => exact absurd (hc.count_eq_zero.2 hs) hcount
      | cons n xs => exact ⟨_, .single (wakeCvarWaiter_move hc ht hs rfl hwake)⟩

theorem broadcastLoop_moves {i : Nat} (hT : T (.cvarWaiters i)) (n : Nat) (hc : Coherent k s)
    (ht : SyncTable k s) (hrun : broadcastLoop i n k = some k') : ∃ s', SyncMoves p T k s k' s' := by
  induction n generalizing k s with
  | zero =>
    rw [broadcastLoop] at hrun
    split at hrun
    · exact ⟨s, Option.some.inj hrun ▸ .refl _ _⟩
    · cases hrun
  | succ n ih =>
    rw [broadcastLoop] at hrun
    split at hrun
    · exact ⟨s, Option.some.inj hrun ▸ .refl _ _⟩
    · rename_i hcount
      simp only [Option.bind_eq_bind, Option.bind_eq_some_iff] at hrun
      obtain ⟨k₁, hwake, hrun⟩ := hrun
      cases hs : s (.wait (.cvarWaiters i)) with
      | nil => exact absurd (hc.count_eq_zero.2 hs) hcount
      | cons m xs =>
        have hmove := wakeCvarWaiter_move (p := p) hc ht hs hT hwake
        obtain ⟨s', hmoves⟩ := ih hmove.coherent hmove.table hrun
        exact ⟨s', .head hmove hmoves⟩

theorem cvarBroadcast_moves (hc : Coherent k s) (ht : SyncTable k s) {id ret rc : Int}
    (hrun : syncCvarBroadcast k id ret = some (rc, k')) :
    ∃ s', SyncMoves p (SyncCall.cvarBroadcast id ret).Touches k s k' s' := by
  unfold syncCvarBroadcast at hrun
  split at hrun
  · simp only [Option.some.injEq, Prod.mk.injEq] at hrun
    obtain ⟨-, rfl⟩ := hrun
    exact ⟨s, .refl _ _⟩
  · simp only [Option.bind_eq_bind, Option.bind_eq_some_iff] at hrun
    obtain ⟨⟨⟩, -, hrun⟩ := hrun
    split at hrun
    · simp only [Option.pure_def, Option.some.injEq, Prod.mk.injEq] at hrun
      obtain ⟨-, rfl⟩ := hrun
      exact ⟨s, .refl _ _⟩
    · simp only [Option.bind_eq_some_iff, Option.pure_def, Option.some.injEq, Prod.mk.injEq] at hrun
      obtain ⟨k₁, hloop, -, rfl⟩ := hrun
      exact broadcastLoop_moves rfl _ hc ht hloop

/-- Every call of `sync.c` by a process on no list is a sequence of moves. -/
theorem syncCall_moves (hc : Coherent k s) (ht : SyncTable k s)
    (hoff : ∀ l, k.current_process ∉ s l) (hidle : k.current_process ≠ k.idle_process)
    {c : SyncCall} {rc : Int} (hrun : c.run hw k = some (rc, k')) :
    ∃ s', SyncMoves k.current_process c.Touches k s k' s' := by
  cases c with
  | initPipe pipe_idp allocated buffer =>
    have hrun : syncInit (.pipe (newPipe buffer)) (fun i => [.pipeReaders i, .pipeWriters i]) k
      pipe_idp allocated = some (rc, k') := hrun
    refine syncInit_moves hc ht hoff (fun i w hw => ?_) (fun lock hlock => by cases hlock) hrun
    simp only [List.mem_cons, List.not_mem_nil, or_false] at hw
    rcases hw with rfl | rfl <;> rfl
  | readPipe pipe_id buf len => exact readPipe_moves hc ht hoff hidle hrun
  | writePipe pipe_id buf len => exact writePipe_moves hc ht hoff hidle hrun
  | initLock lock_idp allocated =>
    have hrun : syncInit (.lock ⟨false, none⟩) (fun i => [.lockWaiters i]) k lock_idp allocated =
      some (rc, k') := hrun
    refine syncInit_moves hc ht hoff (fun i w hw => ?_) (fun lock hlock => ?_) hrun
    · rw [List.mem_singleton.1 hw]
      rfl
    · rw [← Option.some.inj hlock]
  | lockAcquire lock_id => exact lockAcquire_moves hc ht hoff hidle hrun
  | lockRelease lock_id => exact lockRelease_moves hc ht hoff hrun
  | initCvar cvar_idp allocated =>
    have hrun : syncInit .cvar (fun i => [.cvarWaiters i]) k cvar_idp allocated = some (rc, k') := hrun
    refine syncInit_moves hc ht hoff (fun i w hw => ?_) (fun lock hlock => by cases hlock) hrun
    rw [List.mem_singleton.1 hw]
    rfl
  | cvarWait cvar_id lock_id => exact cvarWait_moves hc ht hoff hidle hrun
  | cvarSignal cvar_id => exact cvarSignal_moves hc ht hrun
  | cvarBroadcast cvar_id rc => exact cvarBroadcast_moves hc ht hrun

end Yalnix
