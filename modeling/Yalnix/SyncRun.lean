import Yalnix.Queues
import Yalnix.Transition.System

/-!
# Runs of calls of `sync.c`

Any process that is on no list may make the next call; `schedule` takes the processes off the ready
queue again. The idle process runs `DoIdle`, which makes no call.
-/

namespace Yalnix

open Intrusive Transition

variable (hw : Hardware)

/-- The calls of `sync.c`, with what the outside answers (`SyncReclaim` is not among them). -/
inductive SyncCall where
  | initPipe (pipe_idp : Int) (allocated : Bool) (buffer : Nat → UInt8)
  | readPipe (pipe_id : Int) (buf : BufPtr) (len : Int)
  | writePipe (pipe_id : Int) (buf : BufPtr) (len : Int)
  | initLock (lock_idp : Int) (allocated : Bool)
  | lockAcquire (lock_id : Int)
  | lockRelease (lock_id : Int)
  | initCvar (cvar_idp : Int) (allocated : Bool)
  | cvarWait (cvar_id lock_id : Int)
  | cvarSignal (cvar_id : Int)
  | cvarBroadcast (cvar_id rc : Int)

def SyncCall.run (k : Kernel) : SyncCall → Option (Int × Kernel)
  | .initPipe pipe_idp allocated buffer => syncInitPipe k pipe_idp allocated buffer
  | .readPipe pipe_id buf len => syncReadPipe hw k pipe_id buf len
  | .writePipe pipe_id buf len => syncWritePipe hw k pipe_id buf len
  | .initLock lock_idp allocated => syncInitLock k lock_idp allocated
  | .lockAcquire lock_id => syncLockAcquire k lock_id
  | .lockRelease lock_id => syncLockRelease k lock_id
  | .initCvar cvar_idp allocated => syncInitCvar k cvar_idp allocated
  | .cvarWait cvar_id lock_id => syncCvarWait k cvar_id lock_id
  | .cvarSignal cvar_id => syncCvarSignal k cvar_id
  | .cvarBroadcast cvar_id rc => syncCvarBroadcast k cvar_id rc

/-- One step: the process `p` makes a call, the current process calls `schedule`, or somebody writes
`bytes` into a kernel buffer. -/
inductive SyncEvent where
  | call (p : PcbPtr) (c : SyncCall)
  | schedule (caller : ScheduleCaller)
  | store (buf : BufPtr) (bytes : Nat → UInt8)

def syncMachine : System Kernel SyncEvent where
  enabled k e := match e with
    | .call p _ => k.OffQueues p ∧ p ≠ k.idle_process
    | _ => True
  step k e := match e with
    | .call p c => (c.run hw { k with current_process := p }).map Prod.snd
    | .schedule caller => schedule hw k caller
    | .store buf bytes => some { k with kbuf := Function.update k.kbuf buf bytes }

/-- A state with no synchronization object and nobody waiting for one, and no kernel buffer freed. -/
structure SyncStart (k : Kernel) : Prop where
  coherent : Coherent k k.queue
  noWaiter : ∀ w, k.queue (.wait w) = []
  noObject : ∀ i, k.sync_table i = none
  noHistory : k.pipeHistory = []
  noneFreed : ∀ b, k.kbufFreed b = false

/-- The state of the caller says that it is on no list. -/
def callable (k : Kernel) : SyncEvent → Bool
  | .call p _ =>
    ((k.pcb p).state = .processDefault ∨ (k.pcb p).state = .processRunning) ∧ p ≠ k.idle_process
  | _ => true

/-! ## The table -/

namespace WaitList

/-- The slot of the object that the list belongs to. -/
def slot : WaitList → Nat
  | pipeReaders i => i
  | pipeWriters i => i
  | lockWaiters i => i
  | cvarWaiters i => i

/-- The objects that have such a list. -/
def Fits : WaitList → SyncObject → Prop
  | pipeReaders _, .pipe _ => True
  | pipeWriters _, .pipe _ => True
  | lockWaiters _, .lock _ => True
  | cvarWaiters _, .cvar => True
  | _, _ => False

end WaitList

/-- The lock in slot `i`. -/
def Kernel.lock (k : Kernel) (i : Nat) : Option Lock := (k.sync_table i).bind (·.object.asLock)

/-- An object knows its slot, the slot is in use, and only objects have waiters. -/
structure SyncTable (k : Kernel) (s : QueueId → List PcbPtr) : Prop where
  id : ∀ i o, k.sync_table i = some o → o.id = i
  bound : ∀ i o, k.sync_table i = some o → i < MAX_SYNCS
  used : ∀ i o, k.sync_table i = some o → k.id_used i = true
  fits : ∀ w p, p ∈ s (.wait w) → ∃ o, k.sync_table w.slot = some o ∧ w.Fits o.object

end Yalnix
