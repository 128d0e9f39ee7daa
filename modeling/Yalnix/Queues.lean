import Yalnix.KernelStart

/-!
# What the queues are for

Every process is on one list or on none, and its state says which. `Coherent k s` reads the lists of
`k` as the sequences `s` and states this; while the kernel moves a process from one list to another
there is a moment at which it holds for all processes but that one.
-/

namespace Yalnix

open Intrusive

/-- The state of the processes on a list. -/
def QueueId.state : QueueId → ProcessState
  | .ready => .processReady
  | .delay => .processDelayed
  | .blocked => .processBlocked
  | .zombie => .processZombie
  | .wait _ => .processBlocked

/-- The processes on the list `l`, in order. -/
def Kernel.queue (k : Kernel) (l : QueueId) : List PcbPtr := k.queues.toList l

/-- The process `p` is on no list. -/
def Kernel.OffQueues (k : Kernel) (p : PcbPtr) : Prop := ∀ l, ¬ k.queues.OnList l p

/-- The lists are well-formed, and `p` is the only process whose state may not say where it is; it is
on no list. -/
structure InTransit (k : Kernel) (s : QueueId → List PcbPtr) (p : PcbPtr) : Prop where
  rep : k.queues.Rep Set.univ s
  free : ∀ l, p ∉ s l
  listed : ∀ l q, q ∈ s l → (k.pcb q).state = l.state
  unlisted : ∀ q, q ≠ p → (∀ l, q ∉ s l) →
    (k.pcb q).state = .processDefault ∨ (k.pcb q).state = .processRunning
  idle : ∀ l, k.idle_process ∉ s l

/-- The lists are well-formed, the state of a process says which list it is on, and the idle process
is on none. -/
structure Coherent (k : Kernel) (s : QueueId → List PcbPtr) : Prop where
  rep : k.queues.Rep Set.univ s
  listed : ∀ l p, p ∈ s l → (k.pcb p).state = l.state
  unlisted : ∀ p, (∀ l, p ∉ s l) →
    (k.pcb p).state = .processDefault ∨ (k.pcb p).state = .processRunning
  idle : ∀ l, k.idle_process ∉ s l

end Yalnix
