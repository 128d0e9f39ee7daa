import Yalnix.Crash

/-!
# PCBs that nobody frees

A PCB is freed by the parent of its process, in `SysWait` or `SysExit`, or by the process itself when it
exits while its parent waits. For the terminated processes without a parent there is `check_zombies`, which
nothing calls; nor does anything call `remove_child` or `list_contains_pid`.
-/

namespace Yalnix

/-- The PCB has not been freed, and its process has no parent. -/
def Kernel.Orphan (k : Kernel) (p : PcbPtr) : Prop := k.allocated p = true ∧ (k.pcb p).parent = none

/-- Whoever is on a children list and has not been freed has its owner for a parent, and whoever has
terminated without a parent has not been freed. -/
structure Acknowledged (k : Kernel) : Prop where
  kin : ∀ p, ∀ c ∈ k.children p, k.allocated c = true → (k.pcb c).parent = some p
  orphans : ∀ p ∈ k.queue .zombie, (k.pcb p).parent = none → k.allocated p = true

/-- What `check_zombies` makes of `k`: the terminated processes without a parent are freed, each once, and
nothing points to them; all else stays. The queue also links PCBs that `orphan_children` has freed: the sweep
goes over these as they were left. -/
structure Collects (k k' : Kernel) : Prop where
  freed : ∀ p, k'.allocated p = true ↔ k.allocated p = true ∧ ¬ (k.Orphan p ∧ p ∈ k.queue .zombie)
  once : ∀ p ∈ k.queue .zombie, (k.pcb p).parent = none → k.allocated p = true
  zombie : k'.queue .zombie = (k.queue .zombie).filter fun p => (k.pcb p).parent.isSome
  queue : ∀ l, l ≠ .zombie → k'.queue l = k.queue l
  pcb : ∀ p, k'.allocated p = true → k'.pcb p = k.pcb p
  unlinked : ∀ p, k.Orphan p → p ∈ k.queue .zombie →
    k'.OffQueues p ∧ (∀ q, p ∉ k'.children q) ∧ ∀ c, k'.allocated c = true → (k'.pcb c).parent ≠ some p
  others : k' = { k with pcb := k'.pcb, allocated := k'.allocated, queues := k'.queues }

end Yalnix
