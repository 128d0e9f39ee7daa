import Yalnix.Contracts
import Yalnix.Transition.System

/-!
# The heap of a process

What `SysBrk` makes of its address, what it should do with it, and the runs of its calls after
`LoadProgram`.
-/

namespace Yalnix

open Transition

variable (hw : Hardware)

/-- The pages of a loop from `lo` on with `n` turns that are not valid entries of the table. -/
def neededPages (pt : Nat → Pte) (lo n : Nat) : List Nat :=
  (List.range' lo n).filter fun i => !(decide (i < hw.MAX_PT_LEN) && (pt i).valid)

/-- The entries that the growing loop of `SysBrk` reads or writes. The first one outside the table ends the
list: what comes after it cannot be told. -/
def growTouches (m : Memory) (pt : Nat → Pte) (i : Nat) : Nat → List Nat
  | 0 => []
  | n + 1 =>
    if hw.MAX_PT_LEN ≤ i then [i]
    else if (pt i).valid then i :: growTouches m pt (i + 1) n
    else
      let (nf, m) := allocateFrame hw m
      if nf = ERROR then [i]
      else
        i :: growTouches m (Function.update pt i ⟨true, .readWrite, Pte.pfnOfInt nf⟩) (i + 1) n

/-- The page of the recorded break: in `LoadProgram` the one after the data. -/
def Pcb.breakPage (proc : Pcb) : Nat := (hw.page (proc.brk % 2 ^ 32)).toNat

namespace Kernel

variable (k : Kernel)

/-- The table of the current process. -/
def table : Nat → Pte := (k.pcb k.current_process).region1_pt

/-- `nbrk`: the page of the requested break. -/
def nbrk : Nat :=
  ((hw.page (hw.UP_TO_PAGE (k.uctxt.regs 0 % 2 ^ 32)) - hw.MAX_PT_LEN) % 2 ^ 32).toNat

/-- `cbrk`: the page of the recorded break. -/
def cbrk : Nat := (k.pcb k.current_process).breakPage hw

/-- The check of `SysBrk`. It compares a page of region 1 with a page counted from address `0`. -/
def BrkRefused : Prop :=
  (k.nbrk hw : Int) ≥ hw.page (hw.DOWN_TO_PAGE (k.pcb k.current_process).user_context.sp)

instance : Decidable (k.BrkRefused hw) := inferInstanceAs (Decidable (_ ≥ _))

/-- The page in region 1 of the caller's stack pointer. -/
def stackPage : Int := hw.page (hw.DOWN_TO_PAGE k.uctxt.sp) - hw.MAX_PT_LEN

/-- The entries of `region1_pt` that `SysBrk` reads or writes. -/
def brkTouches : List Nat :=
  if k.BrkRefused hw then []
  else growTouches hw k.mem k.table (k.cbrk hw) (k.nbrk hw - k.cbrk hw)

/-- With the table `pt`, the requested break is not below the data, and a page below the stack stays
unmapped. -/
def BreakAllowed (data_end : Nat) (pt : Nat → Pte) : Prop :=
  data_end ≤ k.nbrk hw ∧ ∃ i : Nat, k.nbrk hw ≤ i ∧ (i : Int) < k.stackPage hw ∧ (pt i).valid = false

/-- No frame is free, and the call has to map a page of the table. -/
def NothingFree (limit : Int) : Prop :=
  freeFrames hw k.mem = ∅ ∧
    ∃ i : Nat, k.cbrk hw ≤ i ∧ i < k.nbrk hw ∧ (i : Int) < limit ∧ (k.table i).valid = false

end Kernel

/-- The call of `SysBrk` has failed, and has changed no table, no break and no bit. -/
structure BrkUndone (k k' : Kernel) : Prop where
  result : k'.uctxt.regs 0 = ERROR
  pcb : k'.pcb = k.pcb
  bits : k'.mem.frame_bitMap = k.mem.frame_bitMap

/-- A failed call of `SysBrk` leaves nothing behind. -/
def BrkFailsCleanly (k : Kernel) : Prop := ∃ k', sysBrk hw k = some k' ∧ BrkUndone k k'

/-- `SysBrk` keeps the heap between the data, which end before page `data_end`, and the stack. -/
structure BrkRespects (k : Kernel) (data_end : Nat) (k' : Kernel) : Prop where
  moved : k'.uctxt.regs 0 = 0 → k.BreakAllowed hw data_end k'.table
  refused : ¬ k.BreakAllowed hw data_end k.table → BrkUndone k k'
  below : ∀ i ∈ k.brkTouches hw, (i : Int) < k.stackPage hw ∧ i < hw.MAX_PT_LEN

/-! ## Sequences of calls -/

/-- A page between the data and the stack of a new program, that is not a page of its text. -/
def LoadInfo.HeapPage (li : LoadInfo) (req : LoadRequest) (i : Nat) : Prop :=
  li.data_end hw ≤ i ∧ (i : Int) < hw.MAX_PT_LEN - req.stack_npg hw ∧ ¬ li.TextPage hw i

/-- A call of `SysBrk`: the trap frame, and the context that the last switch has saved. -/
structure BrkCall where
  uctxt : UserContext
  saved : UserContext

/-- The kernel when `SysBrk` is called. -/
def Kernel.enterBrk (k : Kernel) (c : BrkCall) : Kernel :=
  { k with uctxt := c.uctxt }.modifyPcb k.current_process fun pcb => { pcb with user_context := c.saved }

/-- What a call of `SysBrk` that returns `0` should have done, for a program with the header `li`. -/
structure BrkMoved (li : LoadInfo) (req : LoadRequest) (k k' : Kernel) : Prop where
  heap : ∀ i : Nat, li.HeapPage hw req i → ((k'.table i).valid = true ↔ i < k.nbrk hw)
  recorded : k'.cbrk hw = k.nbrk hw
  released : ∀ i, k.nbrk hw ≤ i → i < k.cbrk hw → (k.table i).valid = true →
    (k'.table i).valid = false ∧
      ((k.table i).pfn < hw.NUM_VPN → k'.mem.frame_bitMap (k.table i).pfn = false)
  others : ∀ i < hw.MAX_PT_LEN, i < min (k.cbrk hw) (k.nbrk hw) ∨ max (k.cbrk hw) (k.nbrk hw) ≤ i →
    k'.table i = k.table i

/-- Calls with addresses from the end of the data, which is in region 1, up to the stack, by a process whose
stack pointer is in region 1; there are frames for all the pages that are asked for. -/
def userBrkMachine (li : LoadInfo) (req : LoadRequest) : System Kernel BrkCall where
  enabled k c :=
    let k := k.enterBrk c
    (0 ≤ li.data_end hw ∧ li.data_end hw ≤ k.nbrk hw) ∧
    (k.nbrk hw ≤ hw.MAX_PT_LEN - req.stack_npg hw ∧ k.nbrk hw < hw.MAX_PT_LEN) ∧
    (hw.MAX_PT_LEN : Int) ≤ hw.page (hw.DOWN_TO_PAGE c.saved.sp) ∧
    (neededPages hw k.table (k.cbrk hw) (k.nbrk hw - k.cbrk hw)).length ≤ (freeFrames hw k.mem).card
  step k c := sysBrk hw (k.enterBrk c)

/-- Every call of the run that returns `0` has moved the break, and whenever the break is back where it was, so
are the table and the number of free frames. -/
structure BrkSequence (li : LoadInfo) (req : LoadRequest) (t : List (Kernel × BrkCall)) (k : Kernel) :
    Prop where
  calls : ∀ x ∈ t, ∀ k', (userBrkMachine hw li req).step x.1 x.2 = some k' → k'.uctxt.regs 0 = 0 →
    BrkMoved hw li req (x.1.enterBrk x.2) k'
  restores : ∀ x ∈ t, k.cbrk hw = x.1.cbrk hw →
    k.table = x.1.table ∧ (freeFrames hw k.mem).card = (freeFrames hw x.1.mem).card

end Yalnix
