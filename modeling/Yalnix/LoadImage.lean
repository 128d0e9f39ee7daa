import Yalnix.Contracts

/-!
# What LoadProgram maps

Which entries of the table `LoadProgram` writes, and what the table of the new image has to be.
-/

namespace Yalnix

variable (hw : Hardware)

/-- The indices of a loop with `n` turns, from `lo` on. -/
def loopIndices (lo : Int) (n : Nat) : List Int := (List.range n).map fun d : Nat => lo + d

namespace LoadInfo

variable (li : LoadInfo) (req : LoadRequest)

instance (i : Nat) : Decidable (li.TextPage hw i) := inferInstanceAs (Decidable (_ ∧ _))

/-- The pages of the text, the data and the stack do not overlap. -/
structure Apart : Prop where
  textData : ∀ i : Int, ¬ ((li.text_pg1 hw ≤ i ∧ i < li.text_pg1 hw + li.textTurns hw) ∧
    li.data_pg1 hw ≤ i ∧ i < li.data_pg1 hw + li.dataTurns hw)
  textStack : ∀ i : Int, ¬ ((li.text_pg1 hw ≤ i ∧ i < li.text_pg1 hw + li.textTurns hw) ∧
    hw.MAX_PT_LEN - req.stack_npg hw ≤ i ∧ i < hw.MAX_PT_LEN)
  dataStack : ∀ i : Int, ¬ ((li.data_pg1 hw ≤ i ∧ i < li.data_pg1 hw + li.dataTurns hw) ∧
    hw.MAX_PT_LEN - req.stack_npg hw ≤ i ∧ i < hw.MAX_PT_LEN)

/-- Of the three loops, what `frames` frames are enough for lies in the table. -/
structure Fits (frames : Nat) : Prop where
  text : 0 < min (li.textTurns hw) frames →
    0 ≤ li.text_pg1 hw ∧ li.text_pg1 hw + min (li.textTurns hw) frames ≤ hw.MAX_PT_LEN
  data : 0 < min (li.dataTurns hw) (frames - li.textTurns hw) →
    0 ≤ li.data_pg1 hw ∧
      li.data_pg1 hw + min (li.dataTurns hw) (frames - li.textTurns hw) ≤ hw.MAX_PT_LEN
  stack : 0 < min (req.stack_npg hw).toNat (frames - li.textTurns hw - li.dataTurns hw) →
    req.stack_npg hw ≤ hw.MAX_PT_LEN

/-- The indices that the three loops run through, in order. -/
def indices : List Int :=
  loopIndices (li.text_pg1 hw) (li.textTurns hw) ++ (loopIndices (li.data_pg1 hw) (li.dataTurns hw) ++
    loopIndices (hw.MAX_PT_LEN - req.stack_npg hw) (req.stack_npg hw).toNat)

/-- The tests of the header, before the process is changed. -/
def Checked : Prop :=
  ¬ li.entry % 2 ^ 32 < hw.VMEM_1_BASE ∧ ¬ req.heapAndStack hw li ≥ hw.MAX_PT_LEN

instance : Decidable (li.Checked hw req) := inferInstanceAs (Decidable (_ ∧ _))

end LoadInfo

/-- The indices at which `LoadProgram` writes `region1_pt`: each write of the three loops takes a frame. The
last loop writes those of the text again. -/
def loadWrites (m : Memory) (proc : Pcb) (li : LoadInfo) (req : LoadRequest) : List Int :=
  if li.Checked hw req ∧ req.argbuf = true then
    (li.indices hw req).take (freeFrames hw (freeUserspace hw m proc.region1_pt)).card
  else []

/-- `LoadProgram` returns `ERROR`, and has changed nothing of the process, not even its saved stack
pointer. -/
def RejectsEarly (m : Memory) (proc : Pcb) (req : LoadRequest) : Prop :=
  ∀ u : UserContext, loadProgram hw m { proc with user_context := u } req =
    some (.error, m, { proc with user_context := u })

/-- The header makes `LoadProgram` write no entry outside the table, and asks for pages that do not overlap;
or it is rejected at once. -/
def LoadsInside (m : Memory) (proc : Pcb) (li : LoadInfo) (req : LoadRequest) : Prop :=
  ((∀ i ∈ loadWrites hw m proc li req, 0 ≤ i ∧ i < hw.MAX_PT_LEN) ∧ li.Apart hw req) ∨
    RejectsEarly hw m proc req

/-- The table `pt` holds the image of `li` and nothing else, after `old`. -/
structure ExactImage (li : LoadInfo) (req : LoadRequest) (m : Memory) (old : Nat → Pte) (m' : Memory)
    (pt : Nat → Pte) : Prop where
  text : ∀ i < hw.MAX_PT_LEN, li.TextPage hw i → (pt i).valid = true ∧ (pt i).prot = .readExec
  data : ∀ i < hw.MAX_PT_LEN, li.DataPage hw i → (pt i).valid = true ∧ (pt i).prot = .readWrite
  stack : ∀ i < hw.MAX_PT_LEN, hw.MAX_PT_LEN - req.stack_npg hw ≤ i →
    (pt i).valid = true ∧ (pt i).prot = .readWrite
  only : ∀ i < hw.MAX_PT_LEN, (pt i).valid = true → li.ImagePage hw req i
  distinct : ∀ i < hw.MAX_PT_LEN, ∀ j < hw.MAX_PT_LEN, (pt i).valid = true → (pt j).valid = true →
    (pt i).pfn = (pt j).pfn → i = j
  used : ∀ i < hw.MAX_PT_LEN, (pt i).valid = true → m'.frame_bitMap (pt i).pfn = true
  gap : ∃ i < hw.MAX_PT_LEN, li.data_pg1 hw + li.dataTurns hw ≤ i ∧
    (i : Int) < hw.MAX_PT_LEN - req.stack_npg hw ∧ (pt i).valid = false
  /-- What the new image does not use is free, and mapped neither here nor where it was not before. -/
  released : ∀ i < hw.MAX_PT_LEN, (old i).valid = true → (old i).pfn < hw.NUM_VPN →
    (∀ j < hw.MAX_PT_LEN, li.ImagePage hw req j → (pt j).pfn ≠ (old i).pfn) →
      m'.frame_bitMap (old i).pfn = false ∧
      ∀ j < hw.MAX_PT_LEN, (pt j).valid = true → (pt j).pfn ≠ (old i).pfn
  region0 : m'.region0_pt = m.region0_pt

/-- The new image covers every valid page of the old table, and its text leaves a page free between its data
and its stack. -/
structure CoversOld (li : LoadInfo) (req : LoadRequest) (old : Nat → Pte) : Prop where
  covers : ∀ i < hw.MAX_PT_LEN, (old i).valid = true → li.ImagePage hw req i
  gap : ∃ i < hw.MAX_PT_LEN, li.data_pg1 hw + li.dataTurns hw ≤ i ∧
    (i : Int) < hw.MAX_PT_LEN - req.stack_npg hw ∧ ¬ li.TextPage hw i

end Yalnix
