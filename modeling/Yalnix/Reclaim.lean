import Yalnix.SyncRun

/-!
# Reclaiming synchronization objects

`SyncReclaim` and `FreeID`, and the runs of the calls that change which objects there are.
-/

namespace Yalnix

open Intrusive Transition

/-- `FreeID`. -/
def freeID (k : Kernel) (id : Int) : Kernel :=
  if id ≥ 0 ∧ id < MAX_SYNCS ∧ k.id_used id.toNat = true then
    { k with
      id_used := Function.update k.id_used id.toNat false
      global_sync_counter := k.global_sync_counter - 1 }
  else k

/-- The wait lists of an object in slot `i`, in the order in which `SyncReclaim` clears them. -/
def SyncObject.waitLists (i : Nat) : SyncObject → List WaitList
  | .pipe _ => [.pipeReaders i, .pipeWriters i]
  | .lock _ => [.lockWaiters i]
  | .cvar => [.cvarWaiters i]

/-- `clear_list` on several wait lists. `SyncReclaim` does not look at its result. -/
def clearLists : List WaitList → Heap QueueId PcbPtr → Option (Heap QueueId PcbPtr)
  | [], q => some q
  | w :: ws, q => do
    let (_rc, q) ← q.clearList (.wait w)
    clearLists ws q

/-- `SyncReclaim`. The processes on the wait lists are unlinked and otherwise left alone. -/
def syncReclaim (k : Kernel) (id : Int) : Option (Int × Kernel) :=
  match getCheckSync k id with
  | none => some (ERROR, k)
  | some sync => do
    let queues ← clearLists (sync.object.waitLists id.toNat) k.queues
    let k := freeID { k with queues := queues } id
    return (SUCCESS, { k with sync_table := Function.update k.sync_table id.toNat none })

/-- `SysReclaim`. -/
def sysReclaim (k : Kernel) : Option Kernel := returnSync (syncReclaim k (k.uctxt.regs 0))

/-! ## The calls that change the table -/

/-- The calls of `SyncInitPipe`, `SyncInitLock`, `SyncInitCvar` and `SyncReclaim`; `allocated` is whether
`malloc` gives the `sync_obj_t`. -/
inductive TableCall where
  | initPipe (pipe_idp : Int) (allocated : Bool) (buffer : Nat → UInt8)
  | initLock (lock_idp : Int) (allocated : Bool)
  | initCvar (cvar_idp : Int) (allocated : Bool)
  | reclaim (id : Int)

namespace TableCall

def run (k : Kernel) : TableCall → Option (Int × Kernel)
  | .initPipe pipe_idp allocated buffer => syncInitPipe k pipe_idp allocated buffer
  | .initLock lock_idp allocated => syncInitLock k lock_idp allocated
  | .initCvar cvar_idp allocated => syncInitCvar k cvar_idp allocated
  | .reclaim id => syncReclaim k id

/-- What an `Init` call is given: where it stores the id, and whether its `malloc` succeeds. -/
def initArgs : TableCall → Option (Int × Bool)
  | .initPipe pipe_idp allocated _ => some (pipe_idp, allocated)
  | .initLock lock_idp allocated => some (lock_idp, allocated)
  | .initCvar cvar_idp allocated => some (cvar_idp, allocated)
  | .reclaim _ => none

end TableCall

def tableMachine : System Kernel TableCall where
  enabled _ _ := True
  step k c := (c.run k).map Prod.snd

/-- The ids of the live objects. -/
def Kernel.liveIds (k : Kernel) : List Nat :=
  (List.range MAX_SYNCS).filter fun i => (k.sync_table i).isSome

/-- The byte map, the counter and the pointer table agree. -/
structure TableIntegrity (k : Kernel) : Prop where
  used : ∀ i, i < MAX_SYNCS → (k.id_used i = true ↔ (k.sync_table i).isSome)
  counter : k.global_sync_counter = k.liveIds.length
  id : ∀ i o, i < MAX_SYNCS → k.sync_table i = some o → o.id = i

/-- No object has been made. -/
structure TableStart (k : Kernel) : Prop where
  noObject : ∀ i, k.sync_table i = none
  noId : ∀ i, k.id_used i = false
  counter : k.global_sync_counter = 0

/-- What a call of `c` in the state `k` reports, with its result and the new state. -/
structure TableReport (k : Kernel) (c : TableCall) (rc : Int) (k' : Kernel) : Prop where
  code : rc = SUCCESS ∨ rc = ERROR
  /-- A call that fails changes nothing. -/
  error : rc = ERROR → k' = k
  /-- An `Init` call that gets its `sync_obj_t` fails exactly when the table is full. -/
  init : ∀ idp allocated, c.initArgs = some (idp, allocated) →
    (rc = ERROR ↔ allocated = false ∨ k.liveIds.length = MAX_SYNCS)
  /-- The id that it stores was the id of no object, and is the id of the new one. -/
  new : ∀ idp allocated, c.initArgs = some (idp, allocated) → rc = SUCCESS → ∃ id : Nat,
    id ∉ k.liveIds ∧ k'.userStores = k.userStores ++ [.word k.current_process idp id] ∧
    ∀ i, i ∈ k'.liveIds ↔ i = id ∨ i ∈ k.liveIds
  /-- `SyncReclaim` takes a live id, and only that object. -/
  reclaim : ∀ id, c = .reclaim id → (rc = SUCCESS ↔ ∃ i : Nat, id = i ∧ i ∈ k.liveIds) ∧
    (rc = SUCCESS → ∀ i, i ∈ k'.liveIds ↔ (i : Int) ≠ id ∧ i ∈ k.liveIds)

end Yalnix
