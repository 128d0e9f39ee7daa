import Yalnix.KernelStart
import Yalnix.Transition.System

/-!
# Runs of SetKernelBrk

The kernel heap before and after virtual memory is enabled, from the page table that
`init_region0_pageTable` builds.
-/

namespace Yalnix

open Transition

variable {hw : Hardware} (b : Boot hw)

/-- A call of `SetKernelBrk`, or `enable_virtual_memory`. -/
inductive BrkEvent where
  | setKernelBrk (addr : Int)
  | enableVirtualMemory

/-- An address is a 32-bit pointer. -/
def brkMachine : System Memory BrkEvent where
  enabled _ e := match e with
    | .setKernelBrk addr => 0 ≤ addr ∧ addr < 2 ^ 32
    | .enableVirtualMemory => True
  step m e := match e with
    | .setKernelBrk addr => some (setKernelBrk hw b.kernel_data_start m addr).2
    | .enableVirtualMemory => some { m with vm_enabled := true }

/-- The memory after `init_region0_pageTable`, with `kernel_brk` still `NULL`. -/
def Boot.region0 : Memory :=
  initRegion0PageTable hw b.kernel_text_start b.kernel_data_start b.kernel_brk_start b.pmem_size
    { b.globals.mem with kernel_brk := 0 }

/-- A page of kernel text or data: from `_first_kernel_text_page` up to `_orig_kernel_brk_page`. -/
def Boot.ImagePage (i : Nat) : Prop := b.kernel_text_start ≤ i ∧ i < b.kernel_brk_start

/-- The entry of a page of kernel text or data. -/
def Boot.imageEntry (i : Nat) : Pte :=
  ⟨true, if i < b.kernel_data_start then .readExec else .readWrite, i⟩

/-- Kernel text and data are where `init_region0_pageTable` has put them. -/
def ImageKept (m : Memory) : Prop :=
  ∀ i, b.ImagePage i → m.region0_pt i = b.imageEntry i ∧ m.frame_bitMap i = true

/-- The pages between the recorded break and the requested one. -/
def BrkMoves (hw : Hardware) (m : Memory) (addr : Int) (i : Nat) : Prop :=
  min (hw.page m.kernel_brk) (hw.page addr) ≤ i ∧ i < max (hw.page m.kernel_brk) (hw.page addr)

/-- Once virtual memory is enabled, a call that passes the checks moves the break over no page of
kernel text or data. -/
def HeapCall (m : Memory) : BrkEvent → Prop
  | .setKernelBrk addr => m.vm_enabled = true → hw.page b.kernel_data_start ≤ hw.page addr →
      hw.page addr < hw.KSTACK_START_PAGE →
      ∀ i < b.kernel_brk_start, b.kernel_text_start ≤ i → ¬ BrkMoves hw m addr i
  | .enableVirtualMemory => True

instance (m : Memory) (addr : Int) (i : Nat) : Decidable (BrkMoves hw m addr i) :=
  inferInstanceAs (Decidable (_ ∧ _))

instance (m : Memory) (e : BrkEvent) : Decidable (HeapCall b m e) :=
  match e with
  | .setKernelBrk _ => inferInstanceAs (Decidable (_ → _ → _ → ∀ i < _, _ → _))
  | .enableVirtualMemory => isTrue trivial

instance (m : Memory) (e : BrkEvent) : Decidable ((brkMachine b).enabled m e) :=
  match e with
  | .setKernelBrk _ => inferInstanceAs (Decidable (_ ∧ _))
  | .enableVirtualMemory => isTrue trivial

end Yalnix
