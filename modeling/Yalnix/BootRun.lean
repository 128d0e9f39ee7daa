import Yalnix.KernelStart
import Yalnix.Transition.System

/-!
# The memory during KernelStart

What `KernelStart` does to memory up to `enable_virtual_memory`, step by step. Between any two steps
`malloc` may move the break with `SetKernelBrk`.
-/

namespace Yalnix

open Transition

variable (hw : Hardware)

/-- How far `KernelStart` has come. -/
inductive BootPhase where
  /-- In `init_pcb_system`, or at the `calloc` of `init_region0_pageTable`. -/
  | start
  /-- In `create_process`. -/
  | region0Built
  /-- At the `malloc` of `InitializeKernelStack`. -/
  | idleFramed
  | stackMapped
  | vmEnabled
deriving DecidableEq

structure BootState where
  phase : BootPhase
  mem : Memory

/-- The linker's page numbers and the size of the physical memory. -/
structure KernelImage where
  kernel_text_start : Nat
  kernel_data_start : Nat
  /-- `_orig_kernel_brk_page`. -/
  kernel_brk_start : Nat
  pmem_size : Int

inductive BootEvent where
  | setKernelBrk (addr : Int)
  | initRegion0PageTable
  | allocateIdleFrame
  | initializeKernelStack
  | enableVirtualMemory

variable (b : KernelImage)

/-- The frame for the stack of `DoIdle`; without one the machine halts. -/
def allocateIdleFrame (m : Memory) : Option Memory :=
  let (pfn, m) := allocateFrame hw m
  if pfn = ERROR then none
  else some (mapPage m (fun _ => .zero) (hw.MAX_PT_LEN - 1) pfn .readWrite).1

/-- An address is a 32-bit pointer. -/
def bootMachine : System BootState BootEvent where
  enabled _ e := match e with
    | .setKernelBrk addr => 0 ≤ addr ∧ addr < 2 ^ 32
    | _ => True
  step st e := match st.phase, e with
    | .vmEnabled, _ => none
    | _, .setKernelBrk addr =>
      some { st with mem := (setKernelBrk hw b.kernel_data_start st.mem addr).2 }
    | .start, .initRegion0PageTable =>
      some ⟨.region0Built, initRegion0PageTable hw b.kernel_text_start b.kernel_data_start
        b.kernel_brk_start b.pmem_size st.mem⟩
    | .region0Built, .allocateIdleFrame =>
      (allocateIdleFrame hw st.mem).map fun m => ⟨.idleFramed, m⟩
    | .idleFramed, .initializeKernelStack =>
      (initializeKernelStack hw st.mem).map fun r => ⟨.stackMapped, r.1⟩
    | .stackMapped, .enableVirtualMemory => some ⟨.vmEnabled, { st.mem with vm_enabled := true }⟩
    | _, _ => none

/-- Nothing is mapped, and the break is `NULL`. -/
def BootState.initial : BootState where
  phase := .start
  mem :=
    { frame_bitMap := fun _ => false
      region0_pt := fun _ => .zero
      kernel_brk := 0
      vm_enabled := false
      ptbr1 := none
      exhausted := false }

/-- The image of a boot. -/
def Boot.image {hw : Hardware} (b : Boot hw) : KernelImage :=
  ⟨b.kernel_text_start, b.kernel_data_start, b.kernel_brk_start, b.pmem_size⟩

/-- The calls of `SetKernelBrk` succeed. -/
def BrkSucceeds (st : BootState) : BootEvent → Prop
  | .setKernelBrk addr => (setKernelBrk hw b.kernel_data_start st.mem addr).1 = 0
  | _ => True

/-- The call asks for no more than the linker has given to the image. -/
def WithinImage : BootEvent → Prop
  | .setKernelBrk addr => addr ≤ b.kernel_brk_start * hw.PAGESIZE
  | _ => True

/-- A page of the heap: from `_orig_kernel_brk_page` up to the break. -/
def HeapPage (m : Memory) (i : Nat) : Prop :=
  b.kernel_brk_start ≤ i ∧ (i : Int) * hw.PAGESIZE < m.kernel_brk

/-- The heap is where it was before virtual memory was enabled. -/
def HeapSurvives (m : Memory) : Prop :=
  ∀ i, HeapPage hw b m i →
    (m.region0_pt i).valid = true ∧ (m.region0_pt i).pfn = i ∧ m.frame_bitMap i = true

instance (st : BootState) (e : BootEvent) : Decidable (BrkSucceeds hw b st e) :=
  match e with
  | .setKernelBrk _ => inferInstanceAs (Decidable (_ = _))
  | .initRegion0PageTable => isTrue trivial
  | .allocateIdleFrame => isTrue trivial
  | .initializeKernelStack => isTrue trivial
  | .enableVirtualMemory => isTrue trivial

instance (e : BootEvent) : Decidable (WithinImage hw b e) :=
  match e with
  | .setKernelBrk _ => inferInstanceAs (Decidable (_ ≤ _))
  | .initRegion0PageTable => isTrue trivial
  | .allocateIdleFrame => isTrue trivial
  | .initializeKernelStack => isTrue trivial
  | .enableVirtualMemory => isTrue trivial

instance (st : BootState) (e : BootEvent) : Decidable ((bootMachine hw b).enabled st e) :=
  match e with
  | .setKernelBrk _ => inferInstanceAs (Decidable (_ ∧ _))
  | .initRegion0PageTable => isTrue trivial
  | .allocateIdleFrame => isTrue trivial
  | .initializeKernelStack => isTrue trivial
  | .enableVirtualMemory => isTrue trivial

end Yalnix
