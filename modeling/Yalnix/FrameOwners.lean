import Yalnix.ForkMemory
import Yalnix.KernelHeap
import Yalnix.LoadImage
import Yalnix.ReapRun

/-!
# Whose frames they are

The entries of all tables of all processes, and the frames that they map. Processes fork, load programs, move
their breaks and exit; `SysWait`, `SysDelay` and the clock switch between them.
-/

namespace Yalnix

open Intrusive Transition

variable (hw : Hardware)

/-- An entry of the `region1_pt` or of the `kernel_stack` of the process `p`. -/
inductive TableEntry where
  | page (p : PcbPtr) (i : Nat)
  | stack (p : PcbPtr) (i : Nat)
deriving DecidableEq

namespace TableEntry

def process : TableEntry → PcbPtr
  | page p _ => p
  | stack p _ => p

def InTable : TableEntry → Prop
  | page _ i => i < hw.MAX_PT_LEN
  | stack _ i => i < hw.kernelStackPages

instance : (x : TableEntry) → Decidable (x.InTable hw)
  | page _ i => inferInstanceAs (Decidable (i < hw.MAX_PT_LEN))
  | stack _ i => inferInstanceAs (Decidable (i < hw.kernelStackPages))

end TableEntry

namespace Kernel

instance (k : Kernel) (p : PcbPtr) : Decidable (k.Lives p) := inferInstanceAs (Decidable (_ ∧ _))

def entry (k : Kernel) : TableEntry → Pte
  | .page p i => (k.pcb p).region1_pt i
  | .stack p i => (k.pcb p).kernel_stack i

/-- The frame that a live process maps with the entry. -/
def mapped (k : Kernel) (x : TableEntry) : Option Nat :=
  if k.Lives x.process ∧ x.InTable hw then (k.entry x).frame else none

end Kernel

/-- The frames of kernel text, data and heap, and frame 0, which `init_region0_pageTable` marks before them. -/
def Boot.Reserved {hw : Hardware} (b : Boot hw) (f : Nat) : Prop := f = 0 ∨ b.ImagePage f

/-- The calls that change tables, those that only switch, and the clock. -/
def SpaceEvent : TrapEvent → Prop
  | .kernel _ (.fork _) => True
  | .kernel _ (.exec _) => True
  | .kernel _ .brk => True
  | .kernel _ .exit => True
  | .kernel _ (.wait _) => True
  | .kernel _ .delay => True
  | .kernel _ .getPid => True
  | .kernel _ _ => False
  | _ => True

/-- A program that `LoadProgram` does not refuse has segments that do not overlap, and they cover the valid
pages of the table `old`. -/
def LoadsOver (req : LoadRequest) (old : Nat → Pte) : Prop :=
  ∀ li, req.li = some li → ¬ req.Refused hw → li.Apart hw req ∧
    ∀ i < hw.MAX_PT_LEN, (old i).valid = true → li.ImagePage hw req i

/-- The steps that give every frame back that they do not use any more: a program is loaded over all pages of
the old one, and the address for a fork is linked nowhere. -/
def KeepsOwners (k : Kernel) (e : TrapEvent) : Prop :=
  ForkUnlinked k e ∧
    ∀ u req, e = .kernel u (.exec req) → LoadsOver hw req (k.pcb k.current_process).region1_pt

/-- What is to be said of the frames but those set `apart`, after a run with the trace `t` that has led to `k`. -/
structure FramesOwned (apart : Nat → Prop) (t : List (Kernel × TrapEvent)) (k : Kernel) : Prop where
  /-- A frame is marked exactly when a live process maps it. -/
  marked : ∀ f, ¬ apart f → (k.mem.frame_bitMap f = true ↔ ∃ x, k.mapped hw x = some f)
  /-- No frame is mapped twice. -/
  once : ∀ f x y, k.mapped hw x = some f → k.mapped hw y = some f → x = y
  /-- An exit leaves the frames marked that others map. -/
  exits : ∀ t₁ k₁ u, t = t₁ ++ [(k₁, .kernel u .exit)] → ∀ f x, x.process ≠ k₁.current_process →
    k₁.mapped hw x = some f → k.mapped hw x = some f ∧ k.mem.frame_bitMap f = true

end Yalnix
