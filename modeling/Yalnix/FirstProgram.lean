import Yalnix.Contracts
import Yalnix.SwitchRun

/-!
# From boot to the first program

`KernelStart` leaves the idle process running and the init process ready, and never starts the latter itself:
the clock has to take the processor from the idle process.
-/

namespace Yalnix

variable {hw : Hardware}

namespace Boot

variable (b : Boot hw)

/-- What `LoadProgram` answers to `KernelStart`, and what it makes of memory and of the init process. -/
def loaded : Option (LoadResult × Memory × Pcb) := do
  let k ← startIdle b
  let k := createPcb hw k b.init_pcb
  let (m, stack) ← initializeKernelStack hw k.mem
  loadProgram hw m { k.pcb b.init_pcb with kernel_stack := stack, user_context := b.uctxt } b.initProgram

/-- The init process runs in user mode: its table is walked, its kernel stack is mapped, it has the registers,
the table and the break that `LoadProgram` has left in `proc`, and nobody else is ready or waits. -/
structure InitRuns (proc : Pcb) (k : Kernel) : Prop where
  mode : k.mode = .user
  current : k.current_process = b.init_pcb
  table : k.mem.ptbr1 = some b.init_pcb
  stack : k.StackMapped hw
  uctxt : k.uctxt = proc.user_context
  region1_pt : (k.pcb b.init_pcb).region1_pt = proc.region1_pt
  brk : (k.pcb b.init_pcb).brk = proc.brk
  alone : ∀ l, k.queue l = []

/-- What the init process runs, after `LoadProgram` has answered `rc`: the program that was asked for, or, as
the answer is only reported, whatever is at the program counter that the machine was booted with. -/
def InitRunsFrom (rc : LoadResult) (k : Kernel) : Prop :=
  (rc = .success → ∃ li ∈ b.initProgram.li,
    NewImage hw b.initProgram li (k.pcb b.init_pcb) k.uctxt) ∧
  (rc ≠ .success → k.uctxt.pc = b.uctxt.pc)

end Boot

/-- The traps that lead from boot to the init process. -/
def firstEvents (u₁ u₂ : UserContext) : List TrapEvent := [.clock u₁, .clock u₂, .schedule, .resume]

end Yalnix
