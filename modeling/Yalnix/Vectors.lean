import Yalnix.KernelStart
import Yalnix.Reclaim
import Yalnix.Transition.Simulation
import Yalnix.TrapRun

/-!
# The vector table and the table of system calls

`trap_init`, `syscalls_init` and the handlers of `traps.c`. The machine here is the one the hardware
sees: a trap is a user context with a vector and a code, and the two tables say which handler runs.
-/

namespace Yalnix

open Transition

variable (hw : Hardware)

/-! ## The codes of `yalnix.h` and the vectors of `hardware.h` -/

/-- The rows that `syscalls_init` fills: `YALNIX_FORK`, `YALNIX_EXEC` and so on. -/
inductive SyscallCode where
  | fork | exec | exit | wait | getpid | brk | delay
  | ttyRead | ttyWrite
  | pipeInit | pipeRead | pipeWrite
  | lockInit | lockAcquire | lockRelease
  | cvarInit | cvarSignal | cvarBroadcast | cvarWait
  | reclaim
deriving DecidableEq

/-- The rows that `trap_init` fills: `TRAP_KERNEL`, `TRAP_CLOCK` and so on. -/
inductive TrapVector where
  | kernel | clock | illegal | memory | math | ttyReceive | ttyTransmit
deriving DecidableEq

/-- What the headers define. Without the prefix a code is an index of the table, and no two are the
same. -/
structure Header where
  YALNIX_PREFIX : BitVec 32
  code : SyscallCode → BitVec 32
  vector : TrapVector → Nat
  code_small : ∀ c, (code c ^^^ YALNIX_PREFIX).toNat < 256
  code_injective : Function.Injective code
  vector_injective : Function.Injective vector

variable (h : Header)

/-- The functions that the table of system calls points to. -/
inductive SyscallHandler where
  | sysUnimplemented
  | sysFork | sysExec | sysExit | sysWait | sysGetPID | sysBrk | sysDelay
  | sysPipeInit | sysPipeRead | sysPipeWrite
  | sysLockInit | sysLockAcquire | sysLockRelease
  | sysCvarInit | sysSignal | sysBroadcast | sysCvarWait
  | sysReclaim
deriving DecidableEq

/-- The functions that the vector table points to. -/
inductive TrapHandler where
  | kernelHandler | clockHandler | illegalHandler | memoryHandler | mathHandler
  | receiveHandler | transmitHandler
deriving DecidableEq

/-- The assignments of `syscalls_init`, in order. -/
def syscallAssignments : List (SyscallCode × SyscallHandler) :=
  [(.fork, .sysFork), (.exec, .sysExec), (.exit, .sysExit), (.wait, .sysWait), (.getpid, .sysGetPID),
    (.brk, .sysBrk), (.delay, .sysDelay), (.ttyRead, .sysUnimplemented), (.ttyWrite, .sysUnimplemented),
    (.pipeInit, .sysPipeInit), (.pipeRead, .sysPipeRead), (.pipeWrite, .sysPipeWrite),
    (.lockInit, .sysLockInit), (.lockAcquire, .sysLockAcquire), (.lockRelease, .sysLockRelease),
    (.cvarInit, .sysCvarInit), (.cvarSignal, .sysSignal), (.cvarBroadcast, .sysBroadcast),
    (.cvarWait, .sysCvarWait), (.reclaim, .sysReclaim)]

/-- The assignments of `trap_init`, in order. -/
def trapAssignments : List (TrapVector × TrapHandler) :=
  [(.kernel, .kernelHandler), (.clock, .clockHandler), (.illegal, .illegalHandler),
    (.memory, .memoryHandler), (.math, .mathHandler), (.ttyReceive, .receiveHandler),
    (.ttyTransmit, .transmitHandler)]

/-- A global table, `NULL` in every row, after assignments to it. -/
def fillTable {ι α : Type} (row : ι → Nat) (assignments : List (ι × α)) : Nat → Option α :=
  assignments.foldl (fun table x => Function.update table (row x.1) (some x.2)) fun _ => none

/-- The row of a code. -/
def Header.row (c : SyscallCode) : Nat := (h.code c ^^^ h.YALNIX_PREFIX).toNat

/-- `syscall_handlers` after `syscalls_init`. -/
def syscallsInit : Nat → Option SyscallHandler := fillTable h.row syscallAssignments

/-- `trap_handlers` after `trap_init`. -/
def trapInit : Nat → Option TrapHandler := fillTable h.vector trapAssignments

/-! ## The handlers -/

/-- What the outside answers to a handler: the addresses that `malloc` gives, the program file, and the
user memory that is read. -/
structure Answers where
  child_pcb : PcbPtr
  req : LoadRequest
  kstatus_ptr : Int
  allocated : Bool
  buffer : Nat → UInt8
  kbuf : BufPtr
  data : Nat → UInt8
  rc : Int

/-- The call of a row, with its answers; `SysReclaim` is none of the calls of `Syscall`. -/
def SyscallHandler.call (a : Answers) : SyscallHandler → Option Syscall
  | .sysUnimplemented => some .unimplemented
  | .sysFork => some (.fork a.child_pcb)
  | .sysExec => some (.exec a.req)
  | .sysExit => some .exit
  | .sysWait => some (.wait a.kstatus_ptr)
  | .sysGetPID => some .getPid
  | .sysBrk => some .brk
  | .sysDelay => some .delay
  | .sysPipeInit => some (.pipeInit a.allocated a.buffer)
  | .sysPipeRead => some (.pipeRead a.kbuf)
  | .sysPipeWrite => some (.pipeWrite a.kbuf a.data)
  | .sysLockInit => some (.lockInit a.allocated)
  | .sysLockAcquire => some .lockAcquire
  | .sysLockRelease => some .lockRelease
  | .sysCvarInit => some (.cvarInit a.allocated)
  | .sysSignal => some .signal
  | .sysBroadcast => some (.broadcast a.rc)
  | .sysCvarWait => some .cvarWait
  | .sysReclaim => none

def SyscallHandler.run (k : Kernel) (a : Answers) (f : SyscallHandler) : Option Kernel :=
  match f.call a with
  | some c => c.run hw k
  | none => Yalnix.sysReclaim k

/-- `cont->code ^ YALNIX_PREFIX`. -/
def syscallIndex (u : UserContext) : Int := (BitVec.ofInt 32 u.code ^^^ h.YALNIX_PREFIX).toInt

/-- The row that `kernel_handler` finds for the code of a trap, after its check of the index. -/
def findSyscall (u : UserContext) : Option SyscallHandler :=
  let ind := syscallIndex h u
  if ind ≥ 0 ∧ ind < 256 then syscallsInit h ind.toNat else none

/-- `kernel_handler`. -/
def kernelHandler (k : Kernel) (a : Answers) : Option Kernel :=
  match findSyscall h k.uctxt with
  | some f => f.run hw k a
  | none => some (k.returnValue ERROR)

/-- `illegal_handler`, and `math_handler` with another message. -/
def illegalHandler (k : Kernel) : Option Kernel := sysExit hw (k.returnValue ERROR)

def mathHandler (k : Kernel) : Option Kernel := illegalHandler hw k

/-- `print_pte`: the entry that it prints, if any. There is no result when it reads past the table. -/
def printPte (pageTable : Nat → Pte) (pte_index : Int) : Option (Option Pte) :=
  if pte_index < 0 ∨ pte_index > hw.MAX_PT_LEN then some none
  else if pte_index < hw.MAX_PT_LEN then some (some (pageTable pte_index.toNat))
  else none

/-- `memory_handler`: the entry that it prints, if any. It changes nothing. -/
def memoryHandler (k : Kernel) : Option (Option Pte) :=
  let addr := k.uctxt.addr % 2 ^ 32
  let regionNumber := addr / hw.VMEM_1_BASE
  let relativeMemLocation := if regionNumber = 1 then (addr - hw.VMEM_1_BASE) % 2 ^ 32 else addr
  let page := hw.page (toInt32 relativeMemLocation)
  if regionNumber = 0 then printPte hw k.mem.region0_pt page
  else if regionNumber = 1 then printPte hw (k.pcb k.current_process).region1_pt page
  else some none

/-- The handlers of the vector table; those of the terminals only print. -/
def TrapHandler.run (k : Kernel) (a : Answers) : TrapHandler → Option Kernel
  | .kernelHandler => Yalnix.kernelHandler hw h k a
  | .clockHandler => Yalnix.clockHandler k
  | .illegalHandler => Yalnix.illegalHandler hw k
  | .memoryHandler => (Yalnix.memoryHandler hw k).map fun _ => k
  | .mathHandler => Yalnix.mathHandler hw k
  | .receiveHandler => some k
  | .transmitHandler => some k

/-! ## The machine -/

inductive VectorEvent where
  | trap (u : UserContext) (a : Answers)
  | schedule
  | resume

/-- The traps that come from outside, and not from what the process does. -/
def TrapHandler.Interrupt : TrapHandler → Prop
  | .clockHandler | .receiveHandler | .transmitHandler => True
  | _ => False

/-- What `malloc` answers is not in use. -/
def Answers.Fresh (k : Kernel) (a : Answers) : Prop :=
  k.allocated a.child_pcb = false ∧ k.kstatusAllocated a.kstatus_ptr = false

/-- The handler that the vector of a trap leads to. -/
def findTrap (u : UserContext) : Option TrapHandler :=
  if u.vector ≥ 0 then trapInit h u.vector.toNat else none

/-- `DoIdle` makes no call and no mistake. A trap without a handler has no result. -/
def vectorMachine : System Kernel VectorEvent where
  enabled k e := match e with
    | .trap u a => k.mode = .user ∧ a.Fresh k ∧
      (k.current_process = k.idle_process → ∀ f ∈ findTrap h u, f.Interrupt)
    | .schedule => True
    | .resume => k.mode = .resumed
  step k e := match e with
    | .trap u a => (findTrap h u).bind fun f => f.run hw h { k with uctxt := u } a
    | .schedule => match k.mode with
      | .atSchedule caller => schedule hw k caller
      | _ => none
    | .resume => resume k

/-- The trap that the model of the handlers sees; faults are exits, and the traps that only print are
none. -/
def trapEvent : VectorEvent → Option TrapEvent
  | .trap u a => match findTrap h u with
    | some .kernelHandler => some (.kernel u (((findSyscall h u).bind (·.call a)).getD .unimplemented))
    | some .clockHandler => some (.clock u)
    | some .illegalHandler | some .mathHandler => some (.kernel (u.setReg0 ERROR) .exit)
    | _ => none
  | .schedule => some .schedule
  | .resume => some .resume

/-- No trap asks for `SysReclaim`. -/
def NoReclaim (_k : Kernel) : VectorEvent → Prop
  | .trap u _ => findTrap h u = some .kernelHandler → findSyscall h u ≠ some .sysReclaim
  | _ => True

/-- In user mode `*uctxt` is what the last trap left, and nobody looks at it. -/
structure SameButFrame (k k' : Kernel) : Prop where
  mode : k'.mode = k.mode
  user : k.mode = .user → k' = { k with uctxt := k'.uctxt }
  handler : k.mode ≠ .user → k' = k

instance (f : TrapHandler) : Decidable f.Interrupt := by
  cases f <;> first | exact isTrue trivial | exact isFalse id

instance (k : Kernel) (a : Answers) : Decidable (a.Fresh k) :=
  inferInstanceAs (Decidable (k.allocated a.child_pcb = false ∧ k.kstatusAllocated a.kstatus_ptr = false))

instance (k : Kernel) : (e : VectorEvent) → Decidable ((vectorMachine hw h).enabled k e)
  | .trap u a => inferInstanceAs (Decidable (k.mode = .user ∧ a.Fresh k ∧
      (k.current_process = k.idle_process → ∀ f ∈ findTrap h u, f.Interrupt)))
  | .schedule => inferInstanceAs (Decidable True)
  | .resume => inferInstanceAs (Decidable (k.mode = .resumed))

instance (k : Kernel) : (e : VectorEvent) → Decidable (NoReclaim h k e)
  | .trap u _ => inferInstanceAs (Decidable
      (findTrap h u = some .kernelHandler → findSyscall h u ≠ some .sysReclaim))
  | .schedule => inferInstanceAs (Decidable True)
  | .resume => inferInstanceAs (Decidable True)

/-! ## A small header -/

/-- The codes and the vectors in the order of their rows. -/
def Header.small : Header where
  YALNIX_PREFIX := 0x500
  code c := 0x500 ^^^ BitVec.ofNat 32 (c.ctorIdx + 1)
  vector v := v.ctorIdx
  code_small c := by cases c <;> decide
  code_injective := Function.LeftInverse.injective
    (g := fun x => SyscallCode.ofNat ((0x500 ^^^ x).toNat - 1)) fun c => by cases c <;> rfl
  vector_injective := Function.LeftInverse.injective (g := TrapVector.ofNat) TrapVector.ofNat_ctorIdx

/-- Whatever `malloc` gives is new. -/
def Answers.small : Answers where
  child_pcb := 102
  req := .small
  kstatus_ptr := 5
  allocated := true
  buffer _ := 0
  kbuf := 0
  data _ := 0
  rc := 0

namespace VectorEvent

/-- A trap of the small machine. -/
def ofVector (v : TrapVector) (code : Int) : VectorEvent :=
  .trap { Boot.small.uctxt with vector := Header.small.vector v, code := code } .small

/-- A call of the small machine. -/
def ofCode (c : SyscallCode) : VectorEvent := ofVector .kernel (Header.small.code c).toInt

end VectorEvent

end Yalnix
