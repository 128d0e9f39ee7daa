import Yalnix.Sync

/-!
# Handlers, `schedule` and the context switch

`syscalls.c`, the clock handler of `traps.c`, and `KCSwitch`. A handler that calls `schedule` stops
there, in mode `atSchedule`, with what the rest of it needs saved in the mode. `schedule` saves that in
the kernel context of the process it leaves, and `resume` runs the rest of the handler of the process
that was switched to.
-/

namespace Yalnix

open Intrusive

variable (hw : Hardware)

namespace Kernel

/-- The current handler calls `schedule(uctxt)`. -/
def callSchedule (k : Kernel) (caller : ScheduleCaller) : Kernel := { k with mode := .atSchedule caller }

/-- A store into the memory of the current process. -/
def storeUser (k : Kernel) (s : UserStore) : Kernel := { k with userStores := k.userStores ++ [s] }

/-- `memcpy(buf, kbuf, len)` into the memory of the current process; a negative `len` is a huge
`size_t`. -/
def copyToUser (k : Kernel) (buf : Int) (kbuf : BufPtr) (len : Int) : Option Kernel :=
  if len < 0 then none
  else some (k.storeUser (.bytes k.current_process buf ((List.range len.toNat).map (k.kbuf kbuf))))

/-- `malloc` answers with the buffer `kbuf`, which keeps the bytes that are there. -/
def mallocBuffer (k : Kernel) (kbuf : BufPtr) : Kernel :=
  { k with kbufFreed := Function.update k.kbufFreed kbuf false }

/-- `free(kbuf)`. -/
def freeBuffer (k : Kernel) (kbuf : BufPtr) : Kernel :=
  { k with kbufFreed := Function.update k.kbufFreed kbuf true }

/-- The end of `SysPipeRead`: `memcpy(buf, kbuf, len)` and `free(kbuf)`. -/
def finishRead (k : Kernel) (buf : Int) (kbuf : BufPtr) (len : Int) : Option Kernel :=
  (k.copyToUser buf kbuf len).map fun k => k.freeBuffer kbuf

end Kernel

/-! ## The context switch -/

/-- `KCSwitch`; `kc_in` is the kernel context of the process that is left. -/
def kcSwitch (k : Kernel) (kc_in : KernelContext) (curr_proc next_proc : PcbPtr) : Kernel :=
  let k := k.modifyPcb curr_proc fun pcb => { pcb with kernel_context := kc_in }
  let k := { k with current_process := next_proc }
  let k := k.setState next_proc .processRunning
  let m := mapKernelStack hw k.mem (k.pcb next_proc).kernel_stack
  { k with mem := { m with ptbr1 := some next_proc } }

/-- The part of `schedule` after the switch, which a process suspended in `schedule` goes on with. -/
def scheduleReturn (k : Kernel) : Kernel :=
  let k := { k with uctxt := (k.pcb k.current_process).user_context }
  { k with mem := { k.mem with ptbr1 := some k.current_process } }

/-- The process that `schedule` switches to. -/
def nextProcess (k : Kernel) : Option (PcbPtr × Kernel) :=
  if k.count .ready = 0 then some (k.idle_process, k)
  else do
    let (node, k) ← k.pop .ready
    let next ← node
    return (next, k)

/-- `schedule`, up to the return into the handler of the process switched to. -/
def schedule (k : Kernel) (caller : ScheduleCaller) : Option Kernel := do
  let curr := k.current_process
  let (next, k) ← nextProcess k
  let k := k.modifyPcb curr fun pcb => { pcb with user_context := k.uctxt }
  let k := k.modifyPcb next fun pcb => { pcb with run_time := 0 }
  let k := kcSwitch hw k (.schedule caller) curr next
  let k := { k with mode := .resumed }
  match (k.pcb next).kernel_context with
  | .schedule _ => return scheduleReturn k
  | _ => return k

/-! ## System calls -/

/-- `SysFork` after `KernelContextSwitch(KCCopy, ..)`, which both the parent and the child run. -/
def forkReturn (k : Kernel) (child_pcb : PcbPtr) : Option Kernel := do
  let k ← addToReadyQueue k child_pcb
  return k.returnValue (k.pcb child_pcb).pid

/-- The memory of a fork: `CopyPageTable`, `InitializeKernelStack` and the copying of `KCCopy`. -/
def forkMemory (k : Kernel) (parent_pcb child_pcb : PcbPtr) : Option Kernel := do
  let (m, pt) := copyPageTable hw k.mem (k.pcb parent_pcb).region1_pt (k.pcb child_pcb).region1_pt
  let (m, stack) ← initializeKernelStack hw m
  let (m, stack) := copyKernelStack hw m stack
  let k := { k with mem := m }
  return k.modifyPcb child_pcb fun pcb => { pcb with region1_pt := pt, kernel_stack := stack }

/-- `SysFork`; `child_pcb` is the answer of `malloc` in `create_pcb`. -/
def sysFork (k : Kernel) (child_pcb : PcbPtr) : Option Kernel :=
  let parent_pcb := k.current_process
  if (k.pcb parent_pcb).should_fork then do
    let k := createPcb hw k child_pcb
    let k ← addChild k parent_pcb child_pcb
    let k := k.modifyPcb child_pcb fun pcb => { pcb with should_fork := false, user_context := k.uctxt }
    let k ← forkMemory hw k parent_pcb child_pcb
    let k := k.modifyPcb child_pcb fun pcb =>
      { pcb with kernel_context := .sysFork child_pcb k.uctxt }
    forkReturn k child_pcb
  else
    some ((k.modifyPcb parent_pcb fun pcb => { pcb with should_fork := true }).returnValue 0)

/-- `SysExec`: the result `KILL` is not looked at. -/
def sysExec (k : Kernel) (req : LoadRequest) : Option Kernel := do
  let (_rc, m, proc) ← loadProgram hw k.mem (k.pcb k.current_process) req
  let k := { k with mem := m }
  let k := k.modifyPcb k.current_process fun _ => proc
  return { k with uctxt := proc.user_context }

/-- `SysExit`. -/
def sysExit (k : Kernel) : Option Kernel := do
  let k ← terminateProcess hw k k.current_process (k.uctxt.regs 0)
  return k.callSchedule .sysExit

/-- `SysWait`; `kstatus_ptr` is the answer of `malloc` for the status cell. -/
def sysWait (k : Kernel) (kstatus_ptr : Int) : Option Kernel :=
  let curr := k.current_process
  if k.family.listIsEmpty curr then some (k.returnValue ERROR)
  else do
    let status_ptr := k.uctxt.regs 0
    let z_child ← findZombieChild k curr
    match z_child with
    | none =>
      let k := k.setState curr .processDefault
      let k := { k with kstatusAllocated := Function.update k.kstatusAllocated kstatus_ptr true }
      let k := k.returnValue kstatus_ptr
      let k := k.modifyPcb curr fun pcb => { pcb with waiting_for_children := 1 }
      let k ← addToBlockedQueue k curr
      return k.callSchedule (.sysWait status_ptr kstatus_ptr)
    | some z =>
      let k := removeFromZombieQueue k z
      let k := if status_ptr ≠ 0 then k.storeUser (.word curr status_ptr (k.pcb z).exit_code) else k
      let k := k.returnValue (k.pcb z).pid
      return k.free z

/-- `SysGetPID`. -/
def sysGetPid (k : Kernel) : Kernel := k.returnValue (k.pcb k.current_process).pid

/-- `SysBrk`. The recorded break is read but not written. -/
def sysBrk (k : Kernel) : Option Kernel :=
  let curr := k.current_process
  let pcb := k.pcb curr
  let addr := k.uctxt.regs 0 % 2 ^ 32
  let nbrk : Nat := ((hw.page (hw.UP_TO_PAGE addr) - hw.MAX_PT_LEN) % 2 ^ 32).toNat
  let cbrk : Nat := (hw.page (pcb.brk % 2 ^ 32)).toNat
  if (nbrk : Int) ≥ hw.page (hw.DOWN_TO_PAGE pcb.user_context.sp) then some (k.returnValue ERROR)
  else if nbrk = cbrk then some (k.returnValue 0)
  else if nbrk > cbrk then do
    let (ok, m, pt) ← growUserHeap hw k.mem pcb.region1_pt cbrk (nbrk - cbrk)
    let k := { k with mem := m }
    let k := k.modifyPcb curr fun pcb => { pcb with region1_pt := pt }
    return k.returnValue (if ok then 0 else ERROR)
  else
    let (m, pt) := shrinkUserHeap hw nbrk k.mem pcb.region1_pt cbrk
    let k := { k with mem := m }
    let k := k.modifyPcb curr fun pcb => { pcb with region1_pt := pt }
    some (k.returnValue 0)

/-- `SysDelay`. -/
def sysDelay (k : Kernel) : Option Kernel :=
  let delay := k.uctxt.regs 0
  if delay < 0 then some (k.returnValue ERROR)
  else if delay = 0 then some (k.returnValue 0)
  else do
    let curr := k.current_process
    let k := k.returnValue 0
    let k := k.setState curr .processDefault
    let k ← addToDelayQueue k curr delay
    return k.callSchedule .sysDelay

/-- The handlers that put the result of a `Sync` function into `regs[0]`. -/
def returnSync (r : Option (Int × Kernel)) : Option Kernel := do
  let (rc, k) ← r
  return k.returnValue rc

/-- `SysPipeInit`; `buffer` is what `malloc` leaves in the new pipe. -/
def sysPipeInit (k : Kernel) (allocated : Bool) (buffer : Nat → UInt8) : Option Kernel :=
  returnSync (syncInitPipe k (k.uctxt.regs 0) allocated buffer)

/-- `SysPipeRead`; `kbuf` is the answer of `malloc`. The result is compared with the process state
`PROCESS_BLOCKED`. After an error the buffer is not freed. -/
def sysPipeRead (k : Kernel) (kbuf : BufPtr) : Option Kernel := do
  let pipe_id := k.uctxt.regs 0
  let buf := k.uctxt.regs 1
  let len := k.uctxt.regs 2
  let (rc, k) ← syncReadPipe hw (k.mallocBuffer kbuf) pipe_id kbuf len
  if rc = ProcessState.processBlocked.toInt then return k.callSchedule (.sysPipeRead buf kbuf len)
  else if rc = ERROR then return k
  else k.finishRead buf kbuf len

/-- `SysPipeWrite`; `kbuf` is the answer of `malloc` and `data` what user memory holds from `buf` on. After an
error the buffer is not freed. -/
def sysPipeWrite (k : Kernel) (kbuf : BufPtr) (data : Nat → UInt8) : Option Kernel :=
  let pipe_id := k.uctxt.regs 0
  let len := k.uctxt.regs 2
  if len < 0 then none
  else do
    let bytes := fun i : Nat => if (i : Int) < len then data i else k.kbuf kbuf i
    let k := { k.mallocBuffer kbuf with kbuf := Function.update k.kbuf kbuf bytes }
    let (rc, k) ← syncWritePipe hw k pipe_id kbuf len
    if rc = ProcessState.processBlocked.toInt then return k.callSchedule (.sysPipeWrite kbuf)
    else if rc = ERROR then return k
    else return k.freeBuffer kbuf

/-- `SysLockInit`. -/
def sysLockInit (k : Kernel) (allocated : Bool) : Option Kernel :=
  returnSync (syncInitLock k (k.uctxt.regs 0) allocated)

/-- `SysLockAcquire`. The result is compared with the process state `PROCESS_BLOCKED`. -/
def sysLockAcquire (k : Kernel) : Option Kernel := do
  let (rc, k) ← syncLockAcquire k (k.uctxt.regs 0)
  if rc = ProcessState.processBlocked.toInt then return k.callSchedule .sysLockAcquire
  else return k.returnValue rc

/-- `SysLockRelease`. -/
def sysLockRelease (k : Kernel) : Option Kernel := returnSync (syncLockRelease k (k.uctxt.regs 0))

/-- `SysCvarInit`. -/
def sysCvarInit (k : Kernel) (allocated : Bool) : Option Kernel :=
  returnSync (syncInitCvar k (k.uctxt.regs 0) allocated)

/-- `SysSignal`. -/
def sysSignal (k : Kernel) : Option Kernel := returnSync (syncCvarSignal k (k.uctxt.regs 0))

/-- `SysBroadcast`; `rc` is what `SyncCvarBroadcast` leaves where its result is read. -/
def sysBroadcast (k : Kernel) (rc : Int) : Option Kernel :=
  returnSync (syncCvarBroadcast k (k.uctxt.regs 0) rc)

/-- `SysCvarWait`. Both ids are read from `regs[0]`. -/
def sysCvarWait (k : Kernel) : Option Kernel := do
  let cvar_id := k.uctxt.regs 0
  let lock_id := k.uctxt.regs 0
  let (rc, k) ← syncCvarWait k cvar_id lock_id
  if rc = ERROR then return k.returnValue ERROR
  else return k.callSchedule (.sysCvarWait lock_id)

/-! ## Traps -/

/-- `clock_handler`. -/
def clockHandler (k : Kernel) : Option Kernel := do
  let k ← updateDelayedProcesses k
  let curr := k.current_process
  let k := k.modifyPcb curr fun pcb => { pcb with run_time := pcb.run_time + 1 }
  if (k.pcb curr).run_time > (k.pcb curr).time_slice ∧ k.count .ready ≠ 0 then
    return (k.setState curr .processDefault).callSchedule .clockHandler
  else return k

/-- The rest of a handler after its call of `schedule`. -/
def afterSchedule (k : Kernel) : ScheduleCaller → Option Kernel
  | .clockHandler => some k
  | .sysExit => some k
  | .sysWait status_ptr kstatus_ptr =>
    if status_ptr = 0 ∨ kstatus_ptr = 0 then none
    else
      let k := k.storeUser (.word k.current_process status_ptr (k.kstatus kstatus_ptr))
      some { k with kstatusAllocated := Function.update k.kstatusAllocated kstatus_ptr false }
  | .sysDelay => some k
  | .sysPipeRead buf kbuf len => k.finishRead buf kbuf len
  | .sysPipeWrite kbuf => some (k.freeBuffer kbuf)
  | .sysLockAcquire => some k
  | .sysCvarWait lock_id => do
    let (_rc, k) ← syncLockAcquire k lock_id
    return k.returnValue SUCCESS

/-- The process that was switched to runs on to user mode, from the kernel context it was saved with. -/
def resume (k : Kernel) : Option Kernel := do
  let k ←
    match (k.pcb k.current_process).kernel_context with
    | .uninitialized => none
    | .kernelStart =>
      let k := { k with mem := { k.mem with ptbr1 := some k.current_process } }
      let k := { k with uctxt := (k.pcb k.current_process).user_context }
      some (k.setState k.current_process .processRunning)
    | .sysFork child_pcb uctxt => forkReturn { k with uctxt := uctxt } child_pcb
    | .schedule caller => afterSchedule k caller
  return { k with mode := .user }

end Yalnix
