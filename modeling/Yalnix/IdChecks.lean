import Yalnix.CallRun

/-!
# What the calls do with ids they should refuse

All objects share one table of ids. `GetCheckSync` only reports that an object is of another type, and
the error path of a release reads the pid of the owner.
-/

namespace Yalnix

/-- The type of an object. -/
def SyncObject.type : SyncObject → SyncType
  | .pipe _ => .pipe
  | .lock _ => .lock
  | .cvar => .cvar

/-- The ids that a call is given, each with the type that it expects. -/
def SyncCall.expects : SyncCall → List (Int × SyncType)
  | .readPipe pipe_id _ _ => [(pipe_id, .pipe)]
  | .writePipe pipe_id _ _ => [(pipe_id, .pipe)]
  | .lockAcquire lock_id => [(lock_id, .lock)]
  | .lockRelease lock_id => [(lock_id, .lock)]
  | .cvarWait cvar_id lock_id => [(cvar_id, .cvar), (lock_id, .lock)]
  | .cvarSignal cvar_id => [(cvar_id, .cvar)]
  | .cvarBroadcast cvar_id _ => [(cvar_id, .cvar)]
  | _ => []

/-- One of the ids is that of an object of another type. -/
def WrongType (k : Kernel) (c : SyncCall) : Prop :=
  ∃ a ∈ c.expects, ∃ sync, getCheckSync k a.1 = some sync ∧ sync.object.type ≠ a.2

/-- The call is a wait that stops before it reads an object of another type: one of its ids is not live,
or the lock is somebody else's. -/
def StopsBefore (k : Kernel) : SyncCall → Prop
  | .cvarWait cvar_id lock_id =>
    getCheckSync k cvar_id = none ∨ getCheckSync k lock_id = none ∨
      ∃ sync lock owner, getCheckSync k lock_id = some sync ∧ sync.object.asLock = some lock ∧
        lock.owner = some owner ∧ owner ≠ k.current_process
  | _ => False

/-- The calls that give up the lock `lock_id`. -/
inductive GivesUpLock (lock_id : Int) : SyncCall → Prop where
  | release : GivesUpLock lock_id (.lockRelease lock_id)
  | wait (cvar_id : Int) : GivesUpLock lock_id (.cvarWait cvar_id lock_id)

/-- The call is refused before it looks at its lock. -/
def CvarMissing (k : Kernel) : SyncCall → Prop
  | .cvarWait cvar_id _ => getCheckSync k cvar_id = none
  | _ => False

end Yalnix
