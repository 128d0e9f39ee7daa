import Yalnix.Dispatch
import Yalnix.Effects

/-!
# Who a process is, and what is its own

The pid, the time slice and the kernel stack stay with a PCB as long as it is allocated. Page table, break,
contexts and exit code of a process change only while it runs.
-/

namespace Yalnix

/-- A handler that runs for `current_process` has made a change that `PcbChange` allows, PCB by PCB. -/
structure SamePcbs (new : PcbPtr → Prop) (k k' : Kernel) : Prop where
  current : k'.current_process = k.current_process
  pidCalls : k'.pidCalls = k.pidCalls
  allocated : ∀ p, k'.allocated p = true → k.allocated p = true
  pcb : ∀ p, PcbChange (new p) (p = k.current_process) (k.pcb p) (k'.pcb p)

/-- What an event of the machine does to the PCBs: those that are there are changed as a handler may, and a
new one gets the next pid. -/
structure ProcessStep (hw : Hardware) (e : VectorEvent) (k k' : Kernel) : Prop where
  old : ∀ p, ¬ e.Gives p → PcbChange False (p = k.current_process) (k.pcb p) (k'.pcb p)
  slice : ∀ p, (k'.pcb p).time_slice = (k.pcb p).time_slice ∨ (k'.pcb p).time_slice = DEFAULT_TIMESLICE
  calls : k.pidCalls ≤ k'.pidCalls
  allocated : ∀ p, k'.allocated p = true → k.allocated p = true ∨
    e.Gives p ∧ (k'.pcb p).pid = hw.newPid k.pidCalls ∧ k'.pidCalls = k.pidCalls + 1

/-- The pids that are in use are different, and have been given out. -/
structure DistinctPids (hw : Hardware) (k : Kernel) : Prop where
  given : ∀ p, k.allocated p = true → ∃ n < k.pidCalls, (k.pcb p).pid = hw.newPid n
  distinct : ∀ p q, k.allocated p = true → k.allocated q = true → (k.pcb q).pid = (k.pcb p).pid → q = p

/-- The trap makes no call that has to wait. As long as that is so, nobody waits at a pipe with a kernel buffer
that `SysPipeRead` or `SysPipeWrite` has freed. -/
def CallsGoOn (hw : Hardware) (h : Header) (k : Kernel) (e : VectorEvent) : Prop :=
  match trapEvent h e with
  | some (.kernel u c) => GoesOn hw k u c
  | _ => True

instance (hw : Hardware) (h : Header) (k : Kernel) (e : VectorEvent) : Decidable (CallsGoOn hw h k e) := by
  unfold CallsGoOn
  split
  · infer_instance
  · infer_instance

end Yalnix
