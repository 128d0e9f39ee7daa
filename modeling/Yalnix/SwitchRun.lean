import Yalnix.KernelStart
import Yalnix.TrapRun

/-!
# Who runs

Which process runs is written down in `current_process`, in `REG_PTBR1`, in the kernel stack pages of
region 0 and in `*uctxt`. All traps are events here.
-/

namespace Yalnix

/-- The kernel stack pages of region 0 are those of the current process. -/
def Kernel.StackMapped (hw : Hardware) (k : Kernel) : Prop :=
  ∀ i < hw.kernelStackPages,
    k.mem.region0_pt (hw.KSTACK_START_PAGE + i) = (k.pcb k.current_process).kernel_stack i

/-- The current process was left in a call of `schedule`, and now this call returns. -/
def Kernel.ScheduleReturns (k : Kernel) : Prop :=
  ∃ caller, (k.pcb k.current_process).kernel_context = .schedule caller

/-- The ticks of the clock since `schedule` has switched for the last time. -/
def ticksSinceSwitch (t : List (Kernel × TrapEvent)) : Int :=
  t.foldl (fun n x => match x.2 with
    | .schedule => 0
    | .clock _ => n + 1
    | _ => n) 0

/-- What is to be said of a run with the trace `t` that has led to `k`. -/
structure SwitchCoherent (hw : Hardware) (t : List (Kernel × TrapEvent)) (k : Kernel) : Prop where
  table : k.mode = .user ∨ k.mode = .resumed → k.mem.ptbr1 = some k.current_process
  stack : k.mode = .user ∨ k.mode = .resumed → k.StackMapped hw
  context : ∀ t₁ k₁, t = t₁ ++ [(k₁, .schedule)] → k.ScheduleReturns →
    k.uctxt = (k.pcb k.current_process).user_context
  runTime : (k.pcb k.current_process).run_time = ticksSinceSwitch t

/-- The child of a fork does not get the address of the process that forks. -/
def ForkElsewhere (k : Kernel) : TrapEvent → Prop
  | .kernel _ (.fork child_pcb) => child_pcb ≠ k.current_process
  | _ => True

end Yalnix
