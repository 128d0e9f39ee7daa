import Yalnix.Queues
import Yalnix.Transition.System

/-!
# Runs of the kernel

The machine as the hardware sees it: in user mode a trap enters a handler, with whatever is in the
registers; a handler that calls `schedule` stops at that call, and the process that is switched to
resumes.
-/

namespace Yalnix

open Intrusive Transition

variable (hw : Hardware)

/-- The system calls, with what the outside answers to each (`SysReclaim` is not among them). -/
inductive Syscall where
  | fork (child_pcb : PcbPtr)
  | exec (req : LoadRequest)
  | exit
  | wait (kstatus_ptr : Int)
  | getPid
  | brk
  | delay
  | pipeInit (allocated : Bool) (buffer : Nat → UInt8)
  | pipeRead (kbuf : BufPtr)
  | pipeWrite (kbuf : BufPtr) (data : Nat → UInt8)
  | lockInit (allocated : Bool)
  | lockAcquire
  | lockRelease
  | cvarInit (allocated : Bool)
  | signal
  | broadcast (rc : Int)
  | cvarWait
  | unimplemented

/-- The handler that `kernel_handler` finds in its table. -/
def Syscall.run (k : Kernel) : Syscall → Option Kernel
  | .fork child_pcb => sysFork hw k child_pcb
  | .exec req => sysExec hw k req
  | .exit => sysExit hw k
  | .wait kstatus_ptr => sysWait k kstatus_ptr
  | .getPid => some (sysGetPid k)
  | .brk => sysBrk hw k
  | .delay => sysDelay k
  | .pipeInit allocated buffer => sysPipeInit k allocated buffer
  | .pipeRead kbuf => sysPipeRead hw k kbuf
  | .pipeWrite kbuf data => sysPipeWrite hw k kbuf data
  | .lockInit allocated => sysLockInit k allocated
  | .lockAcquire => sysLockAcquire k
  | .lockRelease => sysLockRelease k
  | .cvarInit allocated => sysCvarInit k allocated
  | .signal => sysSignal k
  | .broadcast rc => sysBroadcast k rc
  | .cvarWait => sysCvarWait k
  | .unimplemented => some (k.returnValue ERROR)

/-- What `malloc` answers to a call is not in use. -/
def Syscall.Fresh (k : Kernel) : Syscall → Prop
  | .fork child_pcb => k.allocated child_pcb = false
  | .wait kstatus_ptr => k.kstatusAllocated kstatus_ptr = false
  | _ => True

/-- A trap with the user context `u`, a call of `schedule`, or the return of the process that was
switched to. -/
inductive TrapEvent where
  | kernel (u : UserContext) (c : Syscall)
  | clock (u : UserContext)
  | schedule
  | resume

/-- The idle process runs `DoIdle`, which makes no call. -/
def trapMachine : System Kernel TrapEvent where
  enabled k e := match e with
    | .kernel _ c => k.mode = .user ∧ k.current_process ≠ k.idle_process ∧ c.Fresh k
    | .clock _ => k.mode = .user
    | .schedule => True
    | .resume => k.mode = .resumed
  step k e := match e with
    | .kernel u c => c.run hw { k with uctxt := u }
    | .clock u => clockHandler { k with uctxt := u }
    | .schedule => match k.mode with
      | .atSchedule caller => schedule hw k caller
      | _ => none
    | .resume => resume k

instance (k : Kernel) : (c : Syscall) → Decidable (c.Fresh k)
  | .fork child_pcb => inferInstanceAs (Decidable (k.allocated child_pcb = false))
  | .wait kstatus_ptr => inferInstanceAs (Decidable (k.kstatusAllocated kstatus_ptr = false))
  | .exec _ | .exit | .getPid | .brk | .delay | .pipeInit _ _ | .pipeRead _ | .pipeWrite _ _
  | .lockInit _ | .lockAcquire | .lockRelease | .cvarInit _ | .signal | .broadcast _ | .cvarWait
  | .unimplemented => inferInstanceAs (Decidable True)

instance (k : Kernel) : (e : TrapEvent) → Decidable ((trapMachine hw).enabled k e)
  | .kernel _ c =>
    inferInstanceAs (Decidable (k.mode = .user ∧ k.current_process ≠ k.idle_process ∧ c.Fresh k))
  | .clock _ => inferInstanceAs (Decidable (k.mode = .user))
  | .schedule => inferInstanceAs (Decidable True)
  | .resume => inferInstanceAs (Decidable (k.mode = .resumed))

/-! ## The families -/

/-- The children of `p`, in order. -/
def Kernel.children (k : Kernel) (p : PcbPtr) : List PcbPtr := k.family.toList p

/-- The addresses that `malloc` gives to forks are linked nowhere. -/
def ForkUnlinked (k : Kernel) : TrapEvent → Prop
  | .kernel _ (.fork child_pcb) => k.OffQueues child_pcb ∧ ∀ p, ¬ k.family.OnList p child_pcb
  | _ => True

end Yalnix
