import Yalnix.IdChecks
import Yalnix.Proofs.LockMoves

/-!
# Ids of the wrong type, and locks of others

A call that reads an object through a pointer of another type has no result, and neither has a release
that reads the pid of an owner that is not there.
-/

namespace Yalnix

open Transition

variable {hw : Hardware} {k : Kernel}

/-! ## Types -/

theorem asPipe_type {x : SyncObject} (h : x.type ≠ .pipe) : x.asPipe = none := by
  cases x with
  | pipe => exact absurd rfl h
  | _ => rfl

theorem asLock_type {x : SyncObject} (h : x.type ≠ .lock) : x.asLock = none := by
  cases x with
  | lock => exact absurd rfl h
  | _ => rfl

theorem asCvar_type {x : SyncObject} (h : x.type ≠ .cvar) : x.asCvar = none := by
  cases x with
  | cvar => exact absurd rfl h
  | _ => rfl

theorem asPipe_of_type {x : SyncObject} (h : x.type = .pipe) : ∃ pipe, x.asPipe = some pipe := by
  cases x with
  | pipe pipe => exact ⟨pipe, rfl⟩
  | _ => cases h

theorem asLock_of_type {x : SyncObject} (h : x.type = .lock) : ∃ lock, x.asLock = some lock := by
  cases x with
  | lock lock => exact ⟨lock, rfl⟩
  | _ => cases h

theorem asCvar_of_type {x : SyncObject} (h : x.type = .cvar) : x.asCvar = some () := by
  cases x with
  | cvar => rfl
  | _ => cases h

theorem type_of_not_wrong {c : SyncCall} (h : ¬ WrongType k c) {id : Int} {ty : SyncType}
    (hmem : (id, ty) ∈ c.expects) {o : SyncObj} (hcheck : getCheckSync k id = some o) :
    o.object.type = ty := by
  by_contra hne
  exact h ⟨_, hmem, o, hcheck, hne⟩

/-- A call with one id that is of another type does not get past the object. -/
theorem run_wrong_type {c : SyncCall} {id : Int} {ty : SyncType} (hexpects : c.expects = [(id, ty)])
    (hwrong : WrongType k c) : c.run hw k = none := by
  obtain ⟨a, ha, sync, hcheck, htype⟩ := hwrong
  rw [hexpects, List.mem_singleton] at ha
  subst ha
  cases c <;> cases hexpects
  · simp [SyncCall.run, syncReadPipe, hcheck, asPipe_type htype]
  · simp [SyncCall.run, syncWritePipe, hcheck, asPipe_type htype]
  · simp [SyncCall.run, syncLockAcquire, hcheck, asLock_type htype]
  · simp [SyncCall.run, syncLockRelease, hcheck, asLock_type htype]
  · simp [SyncCall.run, syncCvarSignal, hcheck, asCvar_type htype]
  · simp [SyncCall.run, syncCvarBroadcast, hcheck, asCvar_type htype]

theorem stopsBefore_cvarWait {cvar_id lock_id : Int} : StopsBefore k (.cvarWait cvar_id lock_id) ↔
    getCheckSync k cvar_id = none ∨ getCheckSync k lock_id = none ∨
      ∃ sync lock owner, getCheckSync k lock_id = some sync ∧ sync.object.asLock = some lock ∧
        lock.owner = some owner ∧ owner ≠ k.current_process := Iff.rfl

/-- A wait whose lock is somebody else's returns before it reads the condition variable. -/
theorem cvarWait_wrong_type {cvar_id lock_id : Int} (hwrong : WrongType k (.cvarWait cvar_id lock_id)) :
    syncCvarWait k cvar_id lock_id = some (ERROR, k) ↔ StopsBefore k (.cvarWait cvar_id lock_id) := by
  rw [stopsBefore_cvarWait]
  unfold syncCvarWait
  cases hc : getCheckSync k cvar_id with
  | none => simp
  | some cvar =>
    cases hl : getCheckSync k lock_id with
    | none => simp
    | some sync =>
      simp only [reduceCtorEq, false_or, Option.some.injEq]
      cases hlock : sync.object.asLock with
      | none =>
        constructor
        · intro h
          simp at h
        · rintro ⟨_, lock, owner, rfl, hlock', -⟩
          rw [hlock] at hlock'
          cases hlock'
      | some lock =>
        -- the object of the wrong type is the condition variable
        have hcvar : cvar.object.asCvar = none := by
          obtain ⟨a, ha, sync', hcheck, htype⟩ := hwrong
          simp only [SyncCall.expects, List.mem_cons, List.not_mem_nil, or_false] at ha
          rcases ha with rfl | rfl
          · obtain rfl : cvar = sync' := Option.some.inj (hc.symm.trans hcheck)
            exact asCvar_type htype
          · obtain rfl : sync = sync' := Option.some.inj (hl.symm.trans hcheck)
            rw [asLock_type htype] at hlock
            cases hlock
        constructor
        · intro h
          simp only [Option.bind_eq_bind, Option.bind_some] at h
          split at h
          · rename_i hne
            obtain ⟨owner, howner, -⟩ := Option.bind_eq_some_iff.1 h
            refine ⟨sync, lock, owner, rfl, hlock, howner, ?_⟩
            rintro rfl
            exact hne howner
          · simp [hcvar] at h
        · rintro ⟨_, lock', owner, rfl, hlock', howner, hne⟩
          obtain rfl : lock = lock' := Option.some.inj (hlock.symm.trans hlock')
          simp [howner, hne]

/-- A call with an id of an object of another type returns an error and leaves everything as it was only
if it is a wait that stops before it reads that object. -/
theorem wrong_type_refused {c : SyncCall} (hwrong : WrongType k c) :
    c.run hw k = some (ERROR, k) ↔ StopsBefore k c := by
  cases c with
  | cvarWait cvar_id lock_id => exact cvarWait_wrong_type hwrong
  | initPipe => obtain ⟨a, ha, -⟩ := hwrong; cases ha
  | initLock => obtain ⟨a, ha, -⟩ := hwrong; cases ha
  | initCvar => obtain ⟨a, ha, -⟩ := hwrong; cases ha
  | _ =>
    rw [run_wrong_type rfl hwrong]
    exact iff_of_false (by simp) id

/-- The process `102` owns the lock `0`, and `103` is about to make a call. -/
def heldEvents : List SyncEvent :=
  [.call 102 (.initLock 8 true), .call 102 (.lockAcquire 0), .call 103 (.lockAcquire 5)]

def heldKernel : Kernel := ((syncMachine .small).exec Boot.smallProcesses heldEvents).get (by decide)

theorem heldKernel_lock : ∃ sync lock, getCheckSync heldKernel 0 = some sync ∧
    sync.object.asLock = some lock ∧ lock.owner = some 102 := by
  have howner : (heldKernel.lock 0).bind (·.owner) = some 102 := by decide
  obtain ⟨lock, hlock, howner⟩ := Option.bind_eq_some_iff.1 howner
  obtain ⟨sync, hsync, hlock⟩ := Option.bind_eq_some_iff.1 hlock
  exact ⟨sync, lock, hsync, hlock, howner⟩

/-- The lock is given for a condition variable, and belongs to somebody else. -/
theorem wrong_type_refused_small :
    (SyncCall.cvarWait 0 0).run .small heldKernel = some (ERROR, heldKernel) := by
  obtain ⟨sync, lock, hcheck, hlock, howner⟩ := heldKernel_lock
  have hwrong : WrongType heldKernel (.cvarWait 0 0) := by
    refine ⟨(0, .cvar), by simp [SyncCall.expects], sync, hcheck, fun h => ?_⟩
    cases hobj : sync.object <;> simp [hobj, SyncObject.asLock, SyncObject.type] at hlock h
  exact (wrong_type_refused hwrong).2 (Or.inr (Or.inr ⟨sync, lock, 102, hcheck, hlock, howner, by decide⟩))

/-- The process `102` has made a lock. -/
def freeLockKernel : Kernel :=
  ((syncMachine .small).step Boot.smallProcesses (.call 102 (.initLock 8 true))).get (by decide)

theorem freeLockKernel_run : Run (syncMachine .small) (fun _ _ => True) Boot.smallProcesses
    [(Boot.smallProcesses, .call 102 (.initLock 8 true))] freeLockKernel := by
  have hoff : Boot.smallProcesses.OffQueues 102 :=
    Boot.smallProcesses_syncStart.coherent.offQueues_iff_state.2 (by decide)
  have hstep : (syncMachine .small).step Boot.smallProcesses (.call 102 (.initLock 8 true)) =
      some freeLockKernel := (Option.some_get _).symm
  exact Run.nil.snoc ⟨hoff, by decide⟩ trivial hstep

theorem freeLockKernel_lock : ∃ sync lock, getCheckSync freeLockKernel 0 = some sync ∧
    sync.object.asLock = some lock ∧ lock.owner = none := by
  have howner : (freeLockKernel.lock 0).map (·.owner) = some none := by decide
  obtain ⟨lock, hlock, howner⟩ := Option.map_eq_some_iff.1 howner
  obtain ⟨sync, hsync, hlock⟩ := Option.bind_eq_some_iff.1 hlock
  exact ⟨sync, lock, hsync, hlock, howner⟩

/-- A signal to the lock reads it as a condition variable. -/
theorem wrong_type_taken : ¬ ∀ (hw : Hardware) (k₀ k : Kernel) (t : List (Kernel × SyncEvent))
    (c : SyncCall), SyncStart k₀ → Run (syncMachine hw) (fun _ _ => True) k₀ t k → WrongType k c →
    c.run hw k = some (ERROR, k) := by
  intro h
  obtain ⟨sync, lock, hsync, hlock, -⟩ := freeLockKernel_lock
  have hwrong : WrongType freeLockKernel (.cvarSignal 0) := by
    refine ⟨(0, .cvar), by simp [SyncCall.expects], sync, hsync, fun h => ?_⟩
    cases hobj : sync.object <;> simp [hobj, SyncObject.asLock, SyncObject.type] at hlock h
  have hrun := h .small _ _ _ (.cvarSignal 0) Boot.smallProcesses_syncStart freeLockKernel_run hwrong
  have hnone : ((SyncCall.cvarSignal 0).run .small freeLockKernel).isNone := by decide
  rw [hrun] at hnone
  cases hnone

/-! ## Owners -/

/-- Who does not own a lock and gives it up gets an error and changes nothing only if somebody owns it,
or if the condition variable is missing. -/
theorem unowned_refused {c : SyncCall} {lock_id : Int} {sync : SyncObj} {lock : Lock}
    (hgives : GivesUpLock lock_id c) (hcheck : getCheckSync k lock_id = some sync)
    (hlock : sync.object.asLock = some lock) (hne : lock.owner ≠ some k.current_process) :
    c.run hw k = some (ERROR, k) ↔ lock.owner ≠ none ∨ CvarMissing k c := by
  cases hgives with
  | release =>
    show syncLockRelease k lock_id = _ ↔ _ ∨ False
    unfold syncLockRelease
    cases howner : lock.owner with
    | none => simp [hcheck, hlock, howner]
    | some owner =>
      have hother : owner ≠ k.current_process := fun e => hne (by rw [howner, e])
      simp [hcheck, hlock, howner, hother]
  | wait cvar_id =>
    show syncCvarWait k cvar_id lock_id = _ ↔ _ ∨ getCheckSync k cvar_id = none
    unfold syncCvarWait
    cases hcvar : getCheckSync k cvar_id with
    | none => simp
    | some cvar =>
      cases howner : lock.owner with
      | none => simp [hcheck, hlock, howner]
      | some owner =>
        have hother : owner ≠ k.current_process := fun e => hne (by rw [howner, e])
        simp [hcheck, hlock, howner, hother]

theorem unowned_refused_small :
    (SyncCall.lockRelease 0).run .small heldKernel = some (ERROR, heldKernel) := by
  obtain ⟨sync, lock, hcheck, hlock, howner⟩ := heldKernel_lock
  have hother : lock.owner ≠ some heldKernel.current_process := by
    rw [howner]
    decide
  exact (unowned_refused .release hcheck hlock hother).2 (Or.inl (by simp [howner]))

/-- The error path of a release of a lock that nobody owns reads through a null pointer. -/
theorem unowned_fails : ¬ ∀ (hw : Hardware) (k₀ k : Kernel) (t : List (Kernel × SyncEvent)) (c : SyncCall)
    (lock_id : Int) (sync : SyncObj) (lock : Lock), SyncStart k₀ →
    Run (syncMachine hw) (fun _ _ => True) k₀ t k → GivesUpLock lock_id c →
    getCheckSync k lock_id = some sync → sync.object.asLock = some lock →
    lock.owner ≠ some k.current_process → c.run hw k = some (ERROR, k) := by
  intro h
  obtain ⟨sync, lock, hsync, hlock, howner⟩ := freeLockKernel_lock
  have hrun := h .small _ _ _ (.lockRelease 0) 0 sync _ Boot.smallProcesses_syncStart freeLockKernel_run
    .release hsync hlock (by simp [howner])
  have hnone : ((SyncCall.lockRelease 0).run .small freeLockKernel).isNone := by decide
  rw [hrun] at hnone
  cases hnone

end Yalnix
