import Yalnix.Memory

/-!
# Processes and their queues

`pcb.c`. An operation that dereferences a pointer of the kernel that is `NULL`, takes a sentinel for a
PCB, or does not come to an end has no result. Addresses that a program passes are taken to be its own:
what the kernel stores through them is written down in `userStores`, whatever they are.
-/

namespace Yalnix

open Intrusive

variable (hw : Hardware)

def DEFAULT_TIMESLICE : Int := 4

/-- `create_pcb`, when `malloc` answers with `addr`. Fields that the C code leaves alone keep the bytes
that are there. -/
def createPcb (k : Kernel) (addr : PcbPtr) : Kernel :=
  let old := k.pcb addr
  let new_pcb : Pcb :=
    { user_context := old.user_context
      kernel_context := .uninitialized
      pid := hw.newPid k.pidCalls
      region1_pt := fun _ => .zero
      kernel_stack := old.kernel_stack
      brk := 0
      state := .processDefault
      time_slice := DEFAULT_TIMESLICE
      run_time := 0
      delay_ticks := 0
      exit_code := 0
      parent := none
      waiting_for_children := 0
      waiting_lock_id := -1
      waiting_cvar_id := -1
      waiting_pipe_id := -1
      pipe_buffer := none
      pipe_len := 0
      write_loc := 0
      should_fork := true }
  { k with
    pcb := Function.update k.pcb addr new_pcb
    allocated := Function.update k.allocated addr true
    family := k.family.listInit addr
    pidCalls := k.pidCalls + 1 }

namespace Kernel

/-- `free(p)`. -/
def free (k : Kernel) (p : PcbPtr) : Kernel :=
  { k with allocated := Function.update k.allocated p false }

end Kernel

/-! ## The queues -/

/-- `add_to_{}_queue`: the process must be in `PROCESS_DEFAULT`. -/
def addToQueue (l : QueueId) (st : ProcessState) (k : Kernel) (process : PcbPtr) : Option Kernel :=
  if (k.pcb process).state ≠ .processDefault then some k
  else (k.setState process st).insertTail l process

/-- `remove_from_{}_queue`: the process must be in the state of the queue. -/
def removeFromQueue (l : QueueId) (st : ProcessState) (k : Kernel) (process : PcbPtr) : Kernel :=
  if (k.pcb process).state ≠ st then k
  else (k.setState process .processDefault).listRemove l process

def addToReadyQueue : Kernel → PcbPtr → Option Kernel := addToQueue .ready .processReady

def removeFromReadyQueue : Kernel → PcbPtr → Kernel := removeFromQueue .ready .processReady

/-- `add_to_delay_queue` also sets the ticks. -/
def addToDelayQueue (k : Kernel) (process : PcbPtr) (ticks : Int) : Option Kernel :=
  if (k.pcb process).state ≠ .processDefault then some k
  else
    ((k.setState process .processDelayed).modifyPcb process
      fun pcb => { pcb with delay_ticks := ticks }).insertTail .delay process

def removeFromDelayQueue : Kernel → PcbPtr → Kernel := removeFromQueue .delay .processDelayed

def addToZombieQueue : Kernel → PcbPtr → Option Kernel := addToQueue .zombie .processZombie

def removeFromZombieQueue : Kernel → PcbPtr → Kernel := removeFromQueue .zombie .processZombie

def addToBlockedQueue : Kernel → PcbPtr → Option Kernel := addToQueue .blocked .processBlocked

def removeFromBlockedQueue : Kernel → PcbPtr → Kernel := removeFromQueue .blocked .processBlocked

/-- The loop of `update_delayed_processes` from the node `curr` on, for at most `n` nodes. -/
def updateDelayedLoop : Nat → Option (Ref QueueId PcbPtr) → Kernel → Option Kernel
  | _, some (.head .delay), k => some k
  | n + 1, some (.node p), k => do
    let next := k.queues.next (.node p)
    let k := k.modifyPcb p fun pcb => { pcb with delay_ticks := pcb.delay_ticks - 1 }
    let k ←
      if (k.pcb p).delay_ticks = 0 then addToReadyQueue (removeFromDelayQueue k p) p else some k
    updateDelayedLoop n next k
  | _, _, _ => none

/-- `update_delayed_processes`. -/
def updateDelayedProcesses (k : Kernel) : Option Kernel :=
  if k.queues.listIsEmpty .delay then some k
  else updateDelayedLoop (k.count .delay).toNat (k.queues.next (.head .delay)) k

/-- The loop of `check_zombies` from the node `curr` on, for at most `n` nodes. -/
def checkZombiesLoop : Nat → Option (Ref QueueId PcbPtr) → Kernel → Option Kernel
  | _, some (.head .zombie), k => some k
  | n + 1, some (.node p), k =>
    let next := k.queues.next (.node p)
    if (k.pcb p).parent = none then checkZombiesLoop n next ((removeFromZombieQueue k p).free p)
    else checkZombiesLoop n next k
  | _, _, _ => none

/-- `check_zombies`. -/
def checkZombies (k : Kernel) : Option Kernel :=
  if k.queues.listIsEmpty .zombie then some k
  else checkZombiesLoop (k.count .zombie).toNat (k.queues.peek .zombie) k

/-- The loop of `list_contains_pid` from the node `curr` on, for at most `n` nodes. -/
def containsPidLoop (k : Kernel) (list : QueueId) (pid : Int) :
    Nat → Option (Ref QueueId PcbPtr) → Option (Option PcbPtr)
  | _, some (.head l) => if l = list then some none else none
  | n + 1, some (.node p) =>
    if pid = (k.pcb p).pid then some (some p)
    else containsPidLoop k list pid n (k.queues.next (.node p))
  | _, _ => none

/-- `list_contains_pid`. -/
def listContainsPid (k : Kernel) (list : QueueId) (pid : Int) : Option (Option PcbPtr) :=
  if k.queues.listIsEmpty list then some none
  else containsPidLoop k list pid (k.count list).toNat (k.queues.next (.head list))

/-! ## Parents and children -/

/-- `add_child`. -/
def addChild (k : Kernel) (parent child : PcbPtr) : Option Kernel :=
  let k := k.modifyPcb child fun pcb => { pcb with parent := some parent }
  (k.family.insertTail parent child).map fun f => { k with family := f }

/-- The loop of `find_zombie_child`: `n` more nodes, from `curr` on. -/
def findZombieLoop (k : Kernel) : Nat → Option (Ref PcbPtr PcbPtr) → Option (Option PcbPtr)
  | 0, _ => some none
  | n + 1, some (.node c) =>
    if (k.pcb c).state = .processZombie then some (some c)
    else findZombieLoop k n (k.family.next (.node c))
  | _ + 1, _ => none

/-- `find_zombie_child`. -/
def findZombieChild (k : Kernel) (process : PcbPtr) : Option (Option PcbPtr) :=
  if k.family.listIsEmpty process then some none
  else findZombieLoop k (k.family.count process).toNat (k.family.peek process)

/-- The loop of `orphan_children`, for at most `n` children. -/
def orphanLoop (parent : PcbPtr) : Nat → Kernel → Option Kernel
  | 0, k => if k.family.listIsEmpty parent then some k else none
  | n + 1, k =>
    if k.family.listIsEmpty parent then some k
    else do
      let (node, f) ← k.family.pop parent
      let k := { k with family := f }
      match node with
      | some (.node child) =>
        if (k.pcb child).state = .processZombie then orphanLoop parent n (k.free child)
        else orphanLoop parent n (k.modifyPcb child fun pcb => { pcb with parent := none })
      | _ => none

/-- `orphan_children`. The first test looks at the children of the current process. -/
def orphanChildren (k : Kernel) (parent : PcbPtr) : Option Kernel :=
  if k.family.listIsEmpty k.current_process then some k
  else orphanLoop parent (k.family.count parent).toNat k

/-! ## Termination -/

/-- `terminate_process` up to the queues: the exit code, the children and the memory. -/
def releaseProcess (k : Kernel) (process : PcbPtr) (status : Int) : Option Kernel := do
  let k := k.modifyPcb process fun pcb => { pcb with exit_code := status, state := .processDefault }
  let k ← orphanChildren k process
  return { k with mem := freeProcessMemory hw k.mem (k.pcb process) }

/-- `terminate_process` removes the process from the queue of its state. -/
def leaveQueue (k : Kernel) (process : PcbPtr) : Kernel :=
  match (k.pcb process).state with
  | .processReady => removeFromReadyQueue k process
  | .processDelayed => removeFromDelayQueue k process
  | .processBlocked => removeFromBlockedQueue k process
  | _ => k

/-- `*status_ptr = status`, unless `status_ptr` is `NULL`. There is nothing to store into but the cells that
`SysWait` has allocated. -/
def storeStatus (k : Kernel) (status_ptr status : Int) : Option Kernel :=
  if status_ptr = 0 then some k
  else if k.kstatusAllocated status_ptr then
    some { k with kstatus := Function.update k.kstatus status_ptr status }
  else none

/-- `terminate_process` hands the status to a parent whose `waiting_for_children` is set, wherever the saved
`regs[0]` of the parent points. -/
def notifyParent (k : Kernel) (process parent : PcbPtr) (status : Int) : Option Kernel := do
  let k := removeFromBlockedQueue k parent
  let k ← addToReadyQueue k parent
  let k ← storeStatus k ((k.pcb parent).user_context.regs 0) status
  let k := k.setReg0 parent (k.pcb process).pid
  return k.free process

/-- `terminate_process`. -/
def terminateProcess (k : Kernel) (process : PcbPtr) (status : Int) : Option Kernel := do
  let k ← releaseProcess hw k process status
  let k := leaveQueue k process
  match (k.pcb process).parent with
  | some parent =>
    if (k.pcb parent).waiting_for_children ≠ 0 then notifyParent k process parent status
    else addToZombieQueue k process
  | none => addToZombieQueue k process

end Yalnix
