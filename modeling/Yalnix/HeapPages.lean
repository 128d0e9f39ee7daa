import Yalnix.Contracts
import Yalnix.KernelHeap

/-!
# The pages of the kernel heap

What calls of `SetKernelBrk` leave mapped once virtual memory is enabled, and which frames they use up. The heap
begins where the kernel data ends; an address in a page stands for the whole page in the code.
-/

namespace Yalnix

variable {hw : Hardware} (b : Boot hw) (m : Memory)

/-! ## Which calls succeed -/

/-- `new_brk_page`, or `current_kernel_brk_page`. -/
def Hardware.brkPage (hw : Hardware) (addr : Int) : Nat := (hw.page addr).toNat

/-- The call passes the range checks. -/
def BrkInRange (addr : Int) : Prop :=
  hw.brkPage b.kernel_data_start ≤ hw.brkPage addr ∧ hw.brkPage addr < hw.KSTACK_START_PAGE

/-- It also gets a frame for each page that it has to map. -/
def BrkFits (addr : Int) : Prop :=
  BrkInRange b addr ∧ hw.brkPage addr - hw.brkPage m.kernel_brk ≤ (freeFrames hw m).card

/-- It gets frames, and then runs out of them. -/
def PartlyGrows (addr : Int) : Prop :=
  BrkInRange b addr ∧ 0 < (freeFrames hw m).card ∧
    (freeFrames hw m).card < hw.brkPage addr - hw.brkPage m.kernel_brk

/-- A call that fails changes nothing. -/
def FailsCleanly (addr : Int) : Prop :=
  let r := setKernelBrk hw b.kernel_data_start m addr
  r.1 = ERROR →
    r.2.region0_pt = m.region0_pt ∧ r.2.frame_bitMap = m.frame_bitMap ∧ r.2.kernel_brk = m.kernel_brk

/-! ## The heap -/

/-- The break is an address under the kernel stack. -/
structure BrkInside (hw : Hardware) (m : Memory) : Prop where
  vm : m.vm_enabled = true
  nonneg : 0 ≤ m.kernel_brk
  below : hw.brkPage m.kernel_brk < hw.KSTACK_START_PAGE

/-- The page holds a byte of the heap. -/
def OnHeap (i : Nat) : Prop := b.kernel_brk_start ≤ i ∧ i * hw.PAGESIZE < m.kernel_brk

/-- The page can be read and written, and has a used frame that no page of the heap has but itself. -/
structure HeapEntry (i : Nat) : Prop where
  valid : (m.region0_pt i).valid = true
  prot : (m.region0_pt i).prot = .readWrite
  used : m.frame_bitMap (m.region0_pt i).pfn = true
  own : ∀ j, OnHeap b m j → (m.region0_pt j).pfn = (m.region0_pt i).pfn → j = i

/-- The whole heap is mapped, and nothing between it and the page for temporary mappings. -/
structure HeapMapped : Prop where
  mapped : ∀ i, OnHeap b m i → HeapEntry b m i
  unmapped : ∀ i < hw.tempMappingPage, m.kernel_brk ≤ i * hw.PAGESIZE → (m.region0_pt i).valid = false

/-- Every valid page of region 0 has a used frame that no other has. -/
def OwnFrames (hw : Hardware) (m : Memory) : Prop :=
  ∀ i < hw.MAX_PT_LEN, (m.region0_pt i).valid = true → m.frame_bitMap (m.region0_pt i).pfn = true ∧
    ∀ j < hw.MAX_PT_LEN, (m.region0_pt j).valid = true → (m.region0_pt j).pfn = (m.region0_pt i).pfn → j = i

/-- The new break is at the start of a page, or under the heap, or in a page that is mapped already and stays.
The page of the old break is not left mapped behind the new one: it is mapped anew, or the new break is in it,
or it was not mapped. -/
def WholePages (addr : Int) : Prop :=
  (hw.PAGESIZE ∣ addr ∨ hw.brkPage addr < b.kernel_brk_start ∨
    hw.brkPage m.kernel_brk ≤ hw.brkPage addr ∧ HeapEntry b m (hw.brkPage addr)) ∧
  (hw.brkPage m.kernel_brk < hw.brkPage addr ∨
    hw.brkPage addr = hw.brkPage m.kernel_brk ∧ ¬ hw.PAGESIZE ∣ addr ∨
    (m.region0_pt (hw.brkPage m.kernel_brk)).valid = false ∨
    hw.tempMappingPage ≤ hw.brkPage m.kernel_brk)

/-- The call does not run out of frames half way, and a call that succeeds moves the break by whole pages. -/
def KeepsHeap : BrkEvent → Prop
  | .setKernelBrk addr => ¬ PartlyGrows b m addr ∧ (BrkFits b m addr → WholePages b m addr)
  | .enableVirtualMemory => True

/-! ## Frames -/

/-- The frames that are marked. -/
def usedFrames (hw : Hardware) (m : Memory) : Finset Nat :=
  (Finset.range hw.NUM_VPN).filter fun f => m.frame_bitMap f = true

/-- The frames that region 0 maps. -/
def mappedFrames (hw : Hardware) (m : Memory) : Finset Nat :=
  ((Finset.range hw.MAX_PT_LEN).filter fun i => (m.region0_pt i).valid = true).image fun i =>
    (m.region0_pt i).pfn

/-- The used frames are those that region 0 maps, each once, and those of `others`, which are mapped elsewhere. -/
structure Accounted (hw : Hardware) (others : Finset Nat) (m : Memory) : Prop where
  own : OwnFrames hw m
  used : usedFrames hw m = mappedFrames hw m ∪ others
  disjoint : Disjoint (mappedFrames hw m) others

/-- No page that the call maps is mapped already. -/
def MapsNew (hw : Hardware) (m : Memory) (addr : Int) : Prop :=
  ∀ i < hw.brkPage addr, hw.brkPage m.kernel_brk ≤ i → (m.region0_pt i).valid = false

/-- The call does not run out of frames half way, and a call that succeeds maps no page anew. -/
def KeepsFrames : BrkEvent → Prop
  | .setKernelBrk addr => ¬ PartlyGrows b m addr ∧ (BrkFits b m addr → MapsNew hw m addr)
  | .enableVirtualMemory => True

instance (addr : Int) : Decidable (BrkInRange b addr) := inferInstanceAs (Decidable (_ ∧ _))

instance (addr : Int) : Decidable (BrkFits b m addr) := inferInstanceAs (Decidable (_ ∧ _))

instance (addr : Int) : Decidable (PartlyGrows b m addr) := inferInstanceAs (Decidable (_ ∧ _))

instance (addr : Int) : Decidable (MapsNew hw m addr) :=
  inferInstanceAs (Decidable (∀ i < _, _ → _))

instance (e : BrkEvent) : Decidable (KeepsFrames b m e) :=
  match e with
  | .setKernelBrk _ => inferInstanceAs (Decidable (¬ _ ∧ (_ → _)))
  | .enableVirtualMemory => isTrue trivial

instance : Decidable (OwnFrames hw m) :=
  inferInstanceAs (Decidable (∀ i < _, _ → _ ∧ ∀ j < _, _ → _ → _))

end Yalnix
