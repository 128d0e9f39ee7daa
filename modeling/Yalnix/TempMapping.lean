import Yalnix.BootRun

/-!
# The page for temporary mappings

`CopyPageTable` and `KCCopy` map the frame they copy to at the page under the kernel stack, next to the
heap that `SetKernelBrk` grows.
-/

namespace Yalnix

open Transition

variable (hw : Hardware) (b : KernelImage)

/-- What happens to region 0. The rest of the kernel takes and gives back frames as it likes. -/
inductive Region0Event where
  | initRegion0PageTable
  | setKernelBrk (addr : Int)
  | enableVirtualMemory
  | copyPageTable (parent_pt child_pt : Nat → Pte)
  | kcCopy (kernel_stack : Nat → Pte)
  | mapKernelStack (kernel_stack : Nat → Pte)
  | frames (frame_bitMap : Nat → Bool)

def region0Machine : System Memory Region0Event where
  enabled _ _ := True
  step m e := some <| match e with
    | .initRegion0PageTable => initRegion0PageTable hw b.kernel_text_start b.kernel_data_start
        b.kernel_brk_start b.pmem_size m
    | .setKernelBrk addr => (setKernelBrk hw b.kernel_data_start m addr).2
    | .enableVirtualMemory => { m with vm_enabled := true }
    | .copyPageTable parent_pt child_pt => (copyPageTable hw m parent_pt child_pt).1
    | .kcCopy kernel_stack => (copyKernelStack hw m kernel_stack).1
    | .mapKernelStack kernel_stack => mapKernelStack hw m kernel_stack
    | .frames frame_bitMap => { m with frame_bitMap := frame_bitMap }

/-- The entry of the page for temporary mappings is invalid. -/
def TempFree (m : Memory) : Prop := (m.region0_pt hw.tempMappingPage).valid = false

/-- The memories in which an event calls `setup_temp_mapping`: for a valid page of the parent after the
turns for the pages before it and `allocate_frame`, for a page of the kernel stack after the turns for
the pages before it. -/
def tempSetups (m : Memory) : Region0Event → List Memory
  | .copyPageTable parent_pt child_pt =>
    ((List.range hw.MAX_PT_LEN).filter fun i => (parent_pt i).valid).map fun i =>
      (allocateFrame hw ((List.range i).foldl (copyPage hw parent_pt) (m, child_pt)).1).2
  | .kcCopy kernel_stack =>
    (List.range hw.kernelStackPages).map fun i =>
      ((List.range i).foldl (copyStackPage hw) (m, kernel_stack)).1
  | _ => []

/-- The two functions that use the page. -/
def Region0Event.Copies : Region0Event → Prop
  | .copyPageTable _ _ => True
  | .kcCopy _ => True
  | _ => False

/-- Every entry but that of the page for temporary mappings is the same. -/
def SameOthers (m m' : Memory) : Prop :=
  ∀ i, i ≠ hw.tempMappingPage → m'.region0_pt i = m.region0_pt i

end Yalnix
