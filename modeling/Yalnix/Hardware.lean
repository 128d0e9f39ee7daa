import Mathlib.Algebra.Ring.Int.Defs
import Mathlib.Algebra.Ring.Nat
import Mathlib.Logic.Function.Basic

/-!
# The machine under the kernel

The constants and types that the kernel takes from the framework headers (`hardware.h`, `yalnix.h`,
`ykernel.h`, `load_info.h`). A machine word held in a register or a pointer is the integer that the
C code reads it as; `NULL` is `0`.
-/

namespace Yalnix

/-- The address of a PCB. -/
abbrev PcbPtr := Nat

/-- The address of a kernel buffer. -/
abbrev BufPtr := Nat

def ERROR : Int := -1

def SUCCESS : Int := 0

/-- The `int` with the low 32 bits of `n`. -/
def toInt32 (n : Int) : Int := (n + 2 ^ 31) % 2 ^ 32 - 2 ^ 31

theorem toInt32_eq {n : Int} (hn : -2 ^ 31 ≤ n) (hn' : n < 2 ^ 31) : toInt32 n = n := by
  unfold toInt32
  omega

/-- The constants of the machine, and the pids that `helper_new_pid` gives out call by call. Region 0
ends where region 1 starts, and the kernel stack is the top of region 0. -/
structure Hardware where
  PIPE_BUFFER_LEN : Nat
  PAGESHIFT : Nat
  /-- The number of pages of each region. -/
  MAX_PT_LEN : Nat
  /-- The number of frames the allocator looks at. -/
  NUM_VPN : Nat
  /-- `KERNEL_STACK_MAXSIZE >> PAGESHIFT`. -/
  kernelStackPages : Nat
  POST_ARGV_NULL_SPACE : Int
  INITIAL_STACK_FRAME_SIZE : Int
  newPid : Nat → Int
  pipe_pos : 0 < PIPE_BUFFER_LEN
  stack_fits : kernelStackPages < MAX_PT_LEN
  newPid_injective : Function.Injective newPid

namespace Hardware

variable (hw : Hardware)

def PAGESIZE : Int := 2 ^ hw.PAGESHIFT

def VMEM_1_BASE : Int := hw.MAX_PT_LEN * hw.PAGESIZE

def VMEM_1_LIMIT : Int := 2 * hw.MAX_PT_LEN * hw.PAGESIZE

/-- `KERNEL_STACK_BASE >> PAGESHIFT`. -/
def KSTACK_START_PAGE : Nat := hw.MAX_PT_LEN - hw.kernelStackPages

/-- `TEMP_MAPPING_VADDR >> PAGESHIFT`: the page under the kernel stack. -/
def tempMappingPage : Nat := hw.KSTACK_START_PAGE - 1

/-- `addr >> PAGESHIFT`. -/
def page (addr : Int) : Int := addr / hw.PAGESIZE

theorem PAGESIZE_pos : 0 < hw.PAGESIZE := Int.pow_pos (by decide)

theorem page_nonneg {addr : Int} (h : 0 ≤ addr) : 0 ≤ hw.page addr :=
  Int.ediv_nonneg h (Int.le_of_lt hw.PAGESIZE_pos)

/-- The first page boundary at or above `addr`, in 32-bit arithmetic. -/
def UP_TO_PAGE (addr : Int) : Int :=
  (addr + hw.PAGESIZE - 1) % 2 ^ 32 / hw.PAGESIZE * hw.PAGESIZE

/-- The last page boundary at or below `addr`, in 32-bit arithmetic. -/
def DOWN_TO_PAGE (addr : Int) : Int := addr % 2 ^ 32 / hw.PAGESIZE * hw.PAGESIZE

end Hardware

/-- The protection bits of a page. -/
structure Prot where
  read : Bool
  write : Bool
  exec : Bool
deriving DecidableEq

namespace Prot

def noAccess : Prot := ⟨false, false, false⟩

/-- `PROT_READ | PROT_WRITE`. -/
def readWrite : Prot := ⟨true, true, false⟩

/-- `PROT_READ | PROT_EXEC`. -/
def readExec : Prot := ⟨true, false, true⟩

end Prot

/-- A page table entry. -/
structure Pte where
  valid : Bool
  prot : Prot
  pfn : Nat
deriving DecidableEq

namespace Pte

/-- The entry of a zeroed table. -/
def zero : Pte := ⟨false, .noAccess, 0⟩

/-- An `int` stored into the 24 bits of the field `pfn`. -/
def pfnOfInt (n : Int) : Nat := (n % 2 ^ 24).toNat

end Pte

/-- There are eight general registers, the first of them number `0`. -/
instance instNeZeroEight : NeZero 8 := ⟨by decide⟩

/-- The saved registers of a user process. -/
structure UserContext where
  vector : Int
  code : Int
  addr : Int
  pc : Int
  sp : Int
  ebp : Int
  regs : Fin 8 → Int

namespace UserContext

/-- `uctxt->regs[0] = v`. -/
def setReg0 (u : UserContext) (v : Int) : UserContext := { u with regs := Function.update u.regs 0 v }

@[simp] theorem setReg0_regs_zero (u : UserContext) (v : Int) : (u.setReg0 v).regs 0 = v := by
  simp [setReg0]

end UserContext

end Yalnix
