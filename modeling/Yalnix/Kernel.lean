import Yalnix.Hardware
import Yalnix.Intrusive.Heap

/-!
# The state of the kernel

The globals of the kernel in one record: the PCBs, the lists that link them, the synchronization
table, the frames and page tables, and the trap frame of the running handler.

Freed PCBs keep their bytes: `free` takes the address out of `allocated`, and only a later `malloc`
that answers with the same address writes over it.
-/

namespace Yalnix

open Intrusive

/-- `state_t`. -/
inductive ProcessState where
  | processDefault
  | processRunning
  | processReady
  | processDelayed
  | processBlocked
  | processZombie
deriving DecidableEq

namespace ProcessState

/-- The value of the C enumerator. -/
def toInt : ProcessState → Int
  | processDefault => 0
  | processRunning => 1
  | processReady => 2
  | processDelayed => 3
  | processBlocked => 4
  | processZombie => 5

end ProcessState

/-- The call of `schedule` in which a process is suspended, with the locals that the rest of the
calling handler reads. -/
inductive ScheduleCaller where
  | clockHandler
  | sysExit
  | sysWait (status_ptr kstatus_ptr : Int)
  | sysDelay
  | sysPipeRead (buf : Int) (kbuf : BufPtr) (len : Int)
  | sysPipeWrite (kbuf : BufPtr)
  | sysLockAcquire
  | sysCvarWait (lock_id : Int)
deriving DecidableEq

/-- A saved kernel context: where in the kernel a process resumes, with what its kernel stack holds
there. -/
inductive KernelContext where
  /-- `create_pcb` leaves the field as `malloc` gave it. -/
  | uninitialized
  /-- After `KernelContextSwitch(KCCopy, init_pcb)` in `KernelStart`. -/
  | kernelStart
  /-- After `KernelContextSwitch(KCCopy, child_pcb)` in `SysFork`, with the copied trap frame. -/
  | sysFork (child_pcb : PcbPtr) (uctxt : UserContext)
  /-- After `KernelContextSwitch(KCSwitch, ..)` in `schedule`. -/
  | schedule (caller : ScheduleCaller)

/-- The process control block. The queue node and the children node are in the list heaps. -/
structure Pcb where
  user_context : UserContext
  kernel_context : KernelContext
  pid : Int
  /-- The region 1 page table: the entries below `MAX_PT_LEN`. -/
  region1_pt : Nat → Pte
  /-- The entries of the kernel stack: those below `kernelStackPages`. -/
  kernel_stack : Nat → Pte
  brk : Int
  state : ProcessState
  time_slice : Int
  run_time : Int
  delay_ticks : Int
  exit_code : Int
  parent : Option PcbPtr
  waiting_for_children : Int
  waiting_lock_id : Int
  waiting_cvar_id : Int
  waiting_pipe_id : Int
  pipe_buffer : Option BufPtr
  pipe_len : Int
  write_loc : Int
  should_fork : Bool

/-- A pipe; its two wait lists are in the queue heap. -/
structure Pipe where
  buffer : Nat → UInt8
  read_pos : Nat
  write_pos : Nat
  bytes_in_buffer : Int
  open_for_read : Bool
  open_for_write : Bool

/-- A lock; its wait list is in the queue heap. -/
structure Lock where
  locked : Bool
  owner : Option PcbPtr

/-- What the union in `sync_obj_t` points to, tagged by `sync_type_t`. -/
inductive SyncObject where
  | pipe (p : Pipe)
  | lock (l : Lock)
  | cvar

namespace SyncObject

/-- `sync->object.pipe`, read through: no result when the object has another type. -/
def asPipe : SyncObject → Option Pipe
  | pipe p => some p
  | _ => none

/-- `sync->object.lock`, read through. -/
def asLock : SyncObject → Option Lock
  | lock l => some l
  | _ => none

/-- `sync->object.cvar`, read through. -/
def asCvar : SyncObject → Option Unit
  | cvar => some ()
  | _ => none

end SyncObject

/-- `sync_obj_t`. -/
structure SyncObj where
  id : Int
  object : SyncObject

/-- The wait lists of the synchronization object in slot `i` of the table. -/
inductive WaitList where
  | pipeReaders (i : Nat)
  | pipeWriters (i : Nat)
  | lockWaiters (i : Nat)
  | cvarWaiters (i : Nat)
deriving DecidableEq

/-- The lists that link queue nodes. -/
inductive QueueId where
  | ready
  | delay
  | blocked
  | zombie
  | wait (w : WaitList)
deriving DecidableEq

/-- A store the kernel makes into the memory of a user process. -/
inductive UserStore where
  | word (p : PcbPtr) (addr v : Int)
  | bytes (p : PcbPtr) (addr : Int) (data : List UInt8)
deriving DecidableEq

/-- What has happened at the pipe in slot `i`: a call of `SyncReadPipe` or `SyncWritePipe` that passed
its checks, bytes put into the buffer, and bytes taken out of it. -/
inductive PipeEvent where
  | readCall (i : Nat) (reader : PcbPtr) (len : Int)
  | writeCall (i : Nat) (writer : PcbPtr) (src : List UInt8)
  | accepted (i : Nat) (writer : PcbPtr) (bytes : List UInt8)
  | delivered (i : Nat) (reader : PcbPtr) (bytes : List UInt8)
deriving DecidableEq

/-- Where the kernel is: in user mode, in a handler at its call of `schedule`, or in the handler of the
process that `KCSwitch` has just resumed. -/
inductive Mode where
  | user
  | atSchedule (caller : ScheduleCaller)
  | resumed
deriving DecidableEq

/-- Frames, the region 0 page table and the memory registers. -/
structure Memory where
  frame_bitMap : Nat → Bool
  region0_pt : Nat → Pte
  kernel_brk : Int
  vm_enabled : Bool
  /-- `REG_PTBR1`: the process whose region 1 table the machine walks. -/
  ptbr1 : Option PcbPtr
  /-- History: `allocate_frame` has returned `ERROR`. No code reads it. -/
  exhausted : Bool

@[ext]
structure Kernel where
  pcb : PcbPtr → Pcb
  /-- The PCBs that `malloc` has given out and `free` has not taken back. -/
  allocated : PcbPtr → Bool
  queues : Heap QueueId PcbPtr
  /-- The children lists, one per PCB. -/
  family : Heap PcbPtr PcbPtr
  current_process : PcbPtr
  idle_process : PcbPtr
  sync_table : Nat → Option SyncObj
  id_used : Nat → Bool
  global_sync_counter : Int
  mem : Memory
  /-- The kernel buffers of pipe calls. -/
  kbuf : BufPtr → Nat → UInt8
  /-- Those that `free` has taken back, and that are not to be used before `malloc` gives them again. -/
  kbufFreed : BufPtr → Bool
  /-- The `int` cells that `SysWait` allocates. -/
  kstatus : Int → Int
  kstatusAllocated : Int → Bool
  /-- `*uctxt` of the running handler. -/
  uctxt : UserContext
  mode : Mode
  /-- How often `helper_new_pid` was called. -/
  pidCalls : Nat
  /-- History: the stores into user memory, oldest first. No code reads it. -/
  userStores : List UserStore
  /-- History: what happened at the pipes, oldest first. No code reads it. -/
  pipeHistory : List PipeEvent

namespace Kernel

def modifyPcb (k : Kernel) (p : PcbPtr) (f : Pcb → Pcb) : Kernel :=
  { k with pcb := Function.update k.pcb p (f (k.pcb p)) }

def setState (k : Kernel) (p : PcbPtr) (st : ProcessState) : Kernel :=
  k.modifyPcb p fun pcb => { pcb with state := st }

/-- `insert_tail(l, &p->queue_node)`. -/
def insertTail (k : Kernel) (l : QueueId) (p : PcbPtr) : Option Kernel :=
  (k.queues.insertTail l p).map fun q => { k with queues := q }

/-- `insert_head(l, &p->queue_node)`. -/
def insertHead (k : Kernel) (l : QueueId) (p : PcbPtr) : Option Kernel :=
  (k.queues.insertHead l p).map fun q => { k with queues := q }

/-- `list_remove(l, &p->queue_node)`. -/
def listRemove (k : Kernel) (l : QueueId) (p : PcbPtr) : Kernel :=
  { k with queues := k.queues.listRemove l p }

/-- The PCB of a popped queue node; a sentinel is in no PCB. -/
def pcbFromQueueNode : Option (Ref QueueId PcbPtr) → Option (Option PcbPtr)
  | none => some none
  | some (.node p) => some (some p)
  | some (.head _) => none

/-- `pop(l)`, and the PCB of the node. -/
def pop (k : Kernel) (l : QueueId) : Option (Option PcbPtr × Kernel) := do
  let (node, q) ← k.queues.pop l
  let p ← pcbFromQueueNode node
  return (p, { k with queues := q })

/-- `l->count`. -/
def count (k : Kernel) (l : QueueId) : Int := k.queues.count l

/-- Slot `i` of the table gets another object; its id stays. -/
def setObject (k : Kernel) (i : Nat) (o : SyncObject) : Kernel :=
  { k with sync_table :=
      Function.update k.sync_table i ((k.sync_table i).map fun sync => { sync with object := o }) }

/-- A field of the saved user context: `p->user_context.regs[0] = v`. -/
def setReg0 (k : Kernel) (p : PcbPtr) (v : Int) : Kernel :=
  k.modifyPcb p fun pcb => { pcb with user_context := pcb.user_context.setReg0 v }

/-- `uctxt->regs[0] = v`. -/
def returnValue (k : Kernel) (v : Int) : Kernel := { k with uctxt := k.uctxt.setReg0 v }

/-- History. -/
def record (k : Kernel) (e : PipeEvent) : Kernel := { k with pipeHistory := k.pipeHistory ++ [e] }

end Kernel

end Yalnix
