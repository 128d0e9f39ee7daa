import Yalnix.Effects
import Yalnix.SwitchRun

/-!
# What the whole machine keeps

Relations between the states before and after a handler: the ids of the synchronization table, the stores
into user memory, and the mappings of the kernel.
-/

namespace Yalnix

/-- The records of the table stay in agreement, and the ids of the live objects keep their types, but for
the ids that are reclaimed. -/
structure KeepsHandles (gone : Int → Prop) (k k' : Kernel) : Prop where
  current : k'.current_process = k.current_process
  integrity : TableIntegrity k → TableIntegrity k'
  type : TableIntegrity k → ∀ i < MAX_SYNCS, ¬ gone i → ∀ ty, k.slotType i = some ty →
    k'.slotType i = some ty

/-- The machine goes on walking the table of the process that runs, and the mappings of the kernel stay. -/
structure KeepsMemory (hw : Hardware) (k k' : Kernel) : Prop where
  current : k'.current_process = k.current_process
  walks : k.mem.ptbr1 = some k.current_process → k'.mem.ptbr1 = some k.current_process
  entry : ∀ i, i ≠ hw.tempMappingPage → k'.mem.region0_pt i = k.mem.region0_pt i
  temp : (k'.mem.region0_pt hw.tempMappingPage).valid = true →
    (k.mem.region0_pt hw.tempMappingPage).valid = true
  kernel_brk : k'.mem.kernel_brk = k.mem.kernel_brk
  vm_enabled : k'.mem.vm_enabled = k.mem.vm_enabled

/-- `i` is a page of the kernel stack of whoever runs. -/
def Hardware.StackPage (hw : Hardware) (i : Nat) : Prop :=
  hw.KSTACK_START_PAGE ≤ i ∧ i < hw.KSTACK_START_PAGE + hw.kernelStackPages

/-- Region 0 as boot has left it in `k₀`, but for the kernel stack pages, which are those of the process
that runs. -/
structure KernelMapped (hw : Hardware) (k₀ k : Kernel) : Prop where
  walks : k.mem.ptbr1 = some k.current_process
  stack : k.StackMapped hw
  entry : ∀ i, i ≠ hw.tempMappingPage → ¬ hw.StackPage i → k.mem.region0_pt i = k₀.mem.region0_pt i
  temp : (k.mem.region0_pt hw.tempMappingPage).valid = false
  kernel_brk : k.mem.kernel_brk = k₀.mem.kernel_brk
  vm_enabled : k.mem.vm_enabled = true

/-- No fork gets the address of the process that forks. -/
def GivesElsewhere (k : Kernel) (e : VectorEvent) : Prop := ¬ e.Gives k.current_process

instance (hw : Hardware) (i : Nat) : Decidable (hw.StackPage i) :=
  inferInstanceAs (Decidable (hw.KSTACK_START_PAGE ≤ i ∧ i < hw.KSTACK_START_PAGE + hw.kernelStackPages))

instance (k : Kernel) (e : VectorEvent) : Decidable (GivesElsewhere k e) :=
  inferInstanceAs (Decidable (¬ e.Gives k.current_process))

end Yalnix
