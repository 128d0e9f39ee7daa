import Yalnix.TrapRun
import Yalnix.Reclaim

/-!
# Runs of calls of every kind

The calls of `sync.c` beside the handlers that make, stop and wake processes. Any process that is on no
list may make the next call, and a process that was put on a list makes none before `schedule` has taken
it off the ready queue. The idle process runs `DoIdle`, which makes no call; the clock interrupts
whoever is running.
-/

namespace Yalnix

open Intrusive Transition

variable (hw : Hardware)

/-- The handlers that change which processes there are, or where they are. -/
inductive ProcessCall where
  | fork (child_pcb : PcbPtr)
  | wait (kstatus_ptr : Int)
  | exit
  | delay

namespace ProcessCall

def run (k : Kernel) : ProcessCall → Option Kernel
  | .fork child_pcb => sysFork hw k child_pcb
  | .wait kstatus_ptr => sysWait k kstatus_ptr
  | .exit => sysExit hw k
  | .delay => sysDelay k

/-- What `malloc` answers to a call is not in use. -/
def Fresh (k : Kernel) : ProcessCall → Prop
  | .fork child_pcb => k.allocated child_pcb = false
  | .wait kstatus_ptr => k.kstatusAllocated kstatus_ptr = false
  | _ => True

end ProcessCall

inductive CallEvent where
  | sync (p : PcbPtr) (c : SyncCall)
  | handler (p : PcbPtr) (u : UserContext) (c : ProcessCall)
  | clock (u : UserContext)
  | schedule (caller : ScheduleCaller)
  | store (buf : BufPtr) (bytes : Nat → UInt8)
  | reclaim (id : Int)

/-- The process `p` may make a call. -/
def Kernel.MayCall (k : Kernel) (p : PcbPtr) : Prop :=
  k.OffQueues p ∧ p ≠ k.idle_process ∧ k.allocated p = true

def callMachine : System Kernel CallEvent where
  enabled k e := match e with
    | .sync p _ => k.MayCall p
    | .handler p _ c => k.MayCall p ∧ c.Fresh k
    | .clock _ => k.OffQueues k.current_process
    | _ => True
  step k e := match e with
    | .sync p c => (c.run hw { k with current_process := p }).map Prod.snd
    | .handler p u c => c.run hw { k with current_process := p, uctxt := u }
    | .clock u => clockHandler { k with uctxt := u }
    | .schedule caller => schedule hw k caller
    | .store buf bytes => some { k with kbuf := Function.update k.kbuf buf bytes }
    | .reclaim id => (syncReclaim k id).map Prod.snd

/-- A state with no synchronization object and nobody waiting for one; the processes that are there may
have any family. -/
structure CallStart (k : Kernel) : Prop where
  sync : SyncStart k
  idle_allocated : k.allocated k.idle_process = true
  idle_flag : (k.pcb k.idle_process).waiting_for_children = 0
  parents : ∀ p, (k.pcb p).parent ≠ some p

/-- When the process `p` exits, its parent is blocked for a child, if it has asked for one and is
blocked. -/
def ExitFits (k : Kernel) (p : PcbPtr) : Prop :=
  ∀ parent, (k.pcb p).parent = some parent → (k.pcb parent).waiting_for_children ≠ 0 →
    (k.pcb parent).state = .processBlocked → k.queues.OnList .blocked parent

/-- The steps that move processes only from where they are: an exit fits, the address for a fork is on
no list, and nobody waits for a reclaimed object. -/
def KeepsQueues (k : Kernel) : CallEvent → Prop
  | .handler p _ .exit => ExitFits k p
  | .handler _ _ (.fork child_pcb) => k.OffQueues child_pcb
  | .reclaim id => ∀ o, getCheckSync k id = some o →
    ∀ w ∈ o.object.waitLists id.toNat, k.queue (.wait w) = []
  | _ => True

/-- The invariant of these runs. -/
structure CallInv (k : Kernel) (s : QueueId → List PcbPtr) : Prop where
  coherent : Coherent k s
  table : SyncTable k s
  idle_allocated : k.allocated k.idle_process = true
  idle_flag : (k.pcb k.idle_process).waiting_for_children = 0
  parents : ∀ p, (k.pcb p).parent ≠ some p

/-- The caller's state says that it is on no list, and what `malloc` answers is not in use. -/
def callAllowed (k : Kernel) : CallEvent → Bool
  | .sync p _ => offList p
  | .handler p _ c => offList p && match c with
    | .fork child_pcb => !k.allocated child_pcb
    | .wait kstatus_ptr => !k.kstatusAllocated kstatus_ptr
    | _ => true
  | .clock _ => (k.pcb k.current_process).state = .processDefault ∨
      (k.pcb k.current_process).state = .processRunning
  | _ => true
where
  offList (p : PcbPtr) : Bool :=
    ((k.pcb p).state = .processDefault ∨ (k.pcb p).state = .processRunning) ∧
      p ≠ k.idle_process ∧ k.allocated p = true

/-- `KeepsQueues`, as far as states and lists say it. -/
def keepsQueues (k : Kernel) : CallEvent → Bool
  | .handler p _ .exit => match (k.pcb p).parent with
    | some parent => (k.pcb parent).waiting_for_children = 0 ∨
        (k.pcb parent).state ≠ .processBlocked ∨ parent ∈ k.queue .blocked
    | none => true
  | .handler _ _ (.fork child_pcb) => (k.pcb child_pcb).state = .processDefault ∨
      (k.pcb child_pcb).state = .processRunning
  | .reclaim id => match getCheckSync k id with
    | some o => (o.object.waitLists id.toNat).all fun w => k.queue (.wait w) = []
    | none => true
  | _ => true

/-! ## Waiting -/

/-- `sync_type_t`. -/
inductive SyncType where
  | pipe
  | lock
  | cvar
deriving DecidableEq

/-- The type of the objects with such a list. -/
def WaitList.type : WaitList → SyncType
  | pipeReaders _ => .pipe
  | pipeWriters _ => .pipe
  | lockWaiters _ => .lock
  | cvarWaiters _ => .cvar

/-- `waiting_pipe_id`, `waiting_lock_id` and `waiting_cvar_id`. -/
def Pcb.waitingId (pcb : Pcb) : SyncType → Int
  | .pipe => pcb.waiting_pipe_id
  | .lock => pcb.waiting_lock_id
  | .cvar => pcb.waiting_cvar_id

/-- The wait lists that a call may take a process from or put one on. -/
def SyncCall.Touches : SyncCall → WaitList → Prop
  | .readPipe pipe_id _ _, w => w.type = .pipe ∧ w.slot = pipe_id.toNat
  | .writePipe pipe_id _ _, w => w.type = .pipe ∧ w.slot = pipe_id.toNat
  | .lockAcquire lock_id, w => w = .lockWaiters lock_id.toNat
  | .lockRelease lock_id, w => w = .lockWaiters lock_id.toNat
  | .cvarWait cvar_id lock_id, w =>
    w = .lockWaiters lock_id.toNat ∨ w = .cvarWaiters cvar_id.toNat
  | .cvarSignal cvar_id, w => w = .cvarWaiters cvar_id.toNat
  | .cvarBroadcast cvar_id _, w => w = .cvarWaiters cvar_id.toNat
  | _, _ => False

/-- The list belongs to an object that is there. -/
def Kernel.LiveList (k : Kernel) (w : WaitList) : Prop :=
  ∃ o, k.sync_table w.slot = some o ∧ w.Fits o.object

/-- Some operation takes processes off the list: it is the blocked queue or the wait list of a live
object. -/
def Kernel.Wakes (k : Kernel) (l : QueueId) : Prop := l = .blocked ∨ ∃ w, l = .wait w ∧ k.LiveList w

/-- Every blocked process is on one list, and is woken from there; the waiting ids name live objects of
their type. -/
structure NobodyStranded (k : Kernel) : Prop where
  blocked : ∀ p, (k.pcb p).state = .processBlocked →
    ∃ l, k.Wakes l ∧ k.queues.OnList l p ∧ ∀ l', k.queues.OnList l' p → l' = l
  ids : ∀ p, k.allocated p = true → ∀ y, (k.pcb p).waitingId y = -1 ∨
    ∃ w : WaitList, w.type = y ∧ (k.pcb p).waitingId y = w.slot ∧ k.LiveList w

/-- A state in which nobody has waited for an object. -/
structure ReclaimStart (k : Kernel) : Prop where
  call : CallStart k
  ids : ∀ p, k.allocated p = true → ∀ y, (k.pcb p).waitingId y = -1

end Yalnix
