import Yalnix.DelayRun

/-!
# Runs of forks

Any process forks, and gives up the processor by `SysDelay` or to the clock. A forked child enters user
mode from the copy of its parent's handler.
-/

namespace Yalnix

open Intrusive Transition

def ForkEvent : TrapEvent → Prop
  | .kernel _ (.fork _) => True
  | .kernel _ .delay => True
  | .kernel _ _ => False
  | _ => True

/-- `SysFork` has made one child of the caller, at the address `child`: it is new, the last of the caller's
children, and ready; and the caller goes on with its pid. -/
structure MakesChild (k k' : Kernel) (child : PcbPtr) : Prop where
  fresh : k.allocated child = false
  allocated : k'.allocated = Function.update k.allocated child true
  parent : (k'.pcb child).parent = some k.current_process
  children : k'.children k.current_process = k.children k.current_process ++ [child]
  others : ∀ p, p ≠ k.current_process → k'.children p = k.children p
  ready : k'.queue .ready = k.queue .ready ++ [child]
  result : k'.mode = .user ∧ k'.current_process = k.current_process ∧
    k'.uctxt.regs 0 = (k'.pcb child).pid

/-- A forked child is about to enter user mode for the first time. -/
def ChildEnters (k : Kernel) : Prop :=
  ∃ child u, (k.pcb k.current_process).kernel_context = .sysFork child u

instance (k : Kernel) : Decidable (ChildEnters k) :=
  match h : (k.pcb k.current_process).kernel_context with
  | .sysFork child u => isTrue ⟨child, u, h⟩
  | .uninitialized => isFalse fun ⟨_, _, hf⟩ => by rw [h] at hf; cases hf
  | .kernelStart => isFalse fun ⟨_, _, hf⟩ => by rw [h] at hf; cases hf
  | .schedule _ => isFalse fun ⟨_, _, hf⟩ => by rw [h] at hf; cases hf

/-- What `SysFork` is to do: make a child, and return `0` to it. -/
def ForkLaw (k : Kernel) (e : TrapEvent) (k' : Kernel) : Prop :=
  match e with
  | .kernel _ (.fork child) => MakesChild k k' child
  | .resume => ChildEnters k → k'.uctxt.regs 0 = 0
  | _ => True

/-- The caller's `should_fork` is set, and a child that enters user mode has the pid `0`. -/
def ForkHolds (k : Kernel) : TrapEvent → Prop
  | .kernel _ (.fork _) => (k.pcb k.current_process).should_fork = true
  | .resume => ChildEnters k → (k.pcb k.current_process).pid = 0
  | _ => True

/-- A state in user mode whose lists have processes that are there; addresses that are free have no
children. -/
structure ForkStart (k : Kernel) : Prop where
  delay : DelayStart k
  family : k.family.WellFormed Set.univ
  current : k.allocated k.current_process = true
  idle : k.allocated k.idle_process = true
  listed : ∀ l p, k.queues.OnList l p → k.allocated p = true
  children : ∀ p c, k.family.OnList p c → k.allocated p = true ∧ k.allocated c = true

end Yalnix
