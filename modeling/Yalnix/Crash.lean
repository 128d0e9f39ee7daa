import Yalnix.Dispatch
import Yalnix.ForkMemory
import Yalnix.IdChecks
import Yalnix.LoadImage
import Yalnix.MemoryRun
import Yalnix.UserBrk

/-!
# Where the kernel goes wrong

A handler has no result when the C code reads through `NULL` or through a pointer of the wrong type, writes
outside a table, copies a negative number of bytes, stores a status where there is no cell for it, or halts the
machine. These are the calls that get there while nobody waits for an object and programs pass addresses of
their own; all but the fork without frames and the exit are for the caller to avoid.
-/

namespace Yalnix

open Intrusive Paging

variable (hw : Hardware)

/-- The `len` bytes from `addr` on are on pages of the table. -/
def Reaches (t : Table) (addr len : Int) : Prop := ∀ i < len.toNat, t ((addressOf addr + i) / hw.pageBytes) ≠ none

/-- What the program has the kernel store or read through the addresses that it passes is in its own memory. -/
def Syscall.PassesOwn (k : Kernel) : Syscall → Prop
  | .pipeInit _ _ | .lockInit _ | .cvarInit _ => Reaches hw (writableTable hw k.liveTable) (k.uctxt.regs 0) 4
  | .wait _ => k.uctxt.regs 0 ≠ 0 → Reaches hw (writableTable hw k.liveTable) (k.uctxt.regs 0) 4
  | .pipeRead _ => Reaches hw (writableTable hw k.liveTable) (k.uctxt.regs 1) (k.uctxt.regs 2)
  | .pipeWrite _ _ => Reaches hw (userTable hw k.liveTable) (k.uctxt.regs 1) (k.uctxt.regs 2)
  | _ => True

def TrapEvent.PassesOwn (k : Kernel) : TrapEvent → Prop
  | .kernel u c => c.PassesOwn hw { k with uctxt := u }
  | _ => True

/-- No call has to wait, and the addresses that `malloc` gives to forks are linked nowhere. -/
def KeepsGoing (k : Kernel) (e : TrapEvent) : Prop := NeverWaits hw k e ∧ ForkUnlinked k e

/-- No call has to wait, and programs pass addresses of their own. -/
def KeepsInside (k : Kernel) (e : TrapEvent) : Prop := KeepsGoing hw k e ∧ e.PassesOwn hw k

/-- Every process has somewhere to resume, but for the idle process in the turn that it gets from boot. -/
def Resumable (k : Kernel) : Prop :=
  ∀ p, k.allocated p = true → (k.pcb p).kernel_context = .uninitialized →
    p = k.idle_process ∧ p = k.current_process ∧ k.mode ≠ .resumed

/-- The children lists `f` are linked, and have every child; parents are allocated and alive, as is whoever
runs or is on a list other than that of the terminated processes. -/
structure Kindred (k : Kernel) (f : PcbPtr → List PcbPtr) : Prop where
  rep : k.family.Rep Set.univ f
  current : (∀ caller, k.mode ≠ .atSchedule caller) → k.allocated k.current_process = true
  listed : ∀ l, l ≠ .zombie → ∀ p ∈ k.queue l, k.allocated p = true
  kin : ∀ c p, k.allocated c = true → (k.pcb c).parent = some p → c ∈ f p
  living : ∀ p, ∀ c ∈ f p, p ≠ c ∧ k.allocated p = true ∧ p ∉ k.queue .zombie

end Yalnix
