import Yalnix.Contracts
import Yalnix.Paging.Memory

/-!
# The bytes that a fork copies

`CopyPageTable` and `KCCopy` with the contents of the frames. Every byte is read and written at a virtual
address, through the tables as they are at that moment.
-/

namespace Yalnix

open Paging

variable (hw : Hardware)

/-- `PAGESIZE`, as a number of bytes. -/
def Hardware.pageBytes : Nat := 2 ^ hw.PAGESHIFT

/-- The frame of a valid entry. -/
def Pte.frame (entry : Pte) : Option Nat := if entry.valid then some entry.pfn else none

/-- The address space of the kernel: region 0, and over it region 1 through the table that `REG_PTBR1` is
set to. `setup_temp_mapping` flushes the TLB, so what counts are the entries. -/
def Memory.space (m : Memory) (region1_pt : Nat → Pte) : Table := fun vpn =>
  if vpn < hw.MAX_PT_LEN then (m.region0_pt vpn).frame
  else if vpn < 2 * hw.MAX_PT_LEN then (region1_pt (vpn - hw.MAX_PT_LEN)).frame
  else none

/-- The region 1 table that the machine walks. -/
def Kernel.liveTable (k : Kernel) : Nat → Pte :=
  match k.mem.ptbr1 with
  | some p => (k.pcb p).region1_pt
  | none => fun _ => .zero

/-- What the loops of a fork change: the memory, the new table, and the contents of the frames. -/
structure CopyState where
  mem : Memory
  pt : Nat → Pte
  frames : Frames UInt8

/-- The frame `pfn` is mapped at `TEMP_MAPPING_VADDR`, gets the bytes of the page `vpn`, and is unmapped
again. -/
def copyThroughTemp (m : Memory) (live : Nat → Pte) (pfn : Int) (vpn : Nat) (frames : Frames UInt8) :
    Option (Memory × Frames UInt8) := do
  let m := setupTempMapping hw m pfn
  let frames ← copy hw.pageBytes (m.space hw live) (hw.tempMappingPage * hw.pageBytes)
    (vpn * hw.pageBytes) hw.pageBytes frames
  return (removeTempMapping hw m, frames)

/-- One turn of the loop of `CopyPageTable`. -/
def copyPageBytes (live parent_pt : Nat → Pte) (st : CopyState) (i : Nat) : Option CopyState :=
  if (parent_pt i).valid then do
    let (child_frame, m) := allocateFrame hw st.mem
    let (m, frames) ← copyThroughTemp hw m live child_frame (i + hw.MAX_PT_LEN) st.frames
    return ⟨m, Function.update st.pt i ⟨true, (parent_pt i).prot, Pte.pfnOfInt child_frame⟩, frames⟩
  else some st

/-- One turn of the loop of `KCCopy`. -/
def copyStackPageBytes (live : Nat → Pte) (st : CopyState) (i : Nat) : Option CopyState := do
  let dest_pfn := (st.pt i).pfn
  let (m, frames) ← copyThroughTemp hw st.mem live dest_pfn (hw.KSTACK_START_PAGE + i) st.frames
  return ⟨m, Function.update st.pt i ⟨true, .readWrite, dest_pfn⟩, frames⟩

/-- The memory of a fork, with the contents of the frames. -/
def forkMemoryBytes (k : Kernel) (parent_pcb child_pcb : PcbPtr) (frames : Frames UInt8) :
    Option (Kernel × Frames UInt8) := do
  let live := k.liveTable
  let st ← (List.range hw.MAX_PT_LEN).foldlM (copyPageBytes hw live (k.pcb parent_pcb).region1_pt)
    ⟨k.mem, (k.pcb child_pcb).region1_pt, frames⟩
  let (m, stack) ← initializeKernelStack hw st.mem
  let st' ← (List.range hw.kernelStackPages).foldlM (copyStackPageBytes hw live) ⟨m, stack, st.frames⟩
  let k := { k with mem := st'.mem }
  return (k.modifyPcb child_pcb fun pcb => { pcb with region1_pt := st.pt, kernel_stack := st'.pt }, st'.frames)

/-- The valid entries of a table. -/
def validPages (pt : Nat → Pte) : List Nat := (List.range hw.MAX_PT_LEN).filter fun i => (pt i).valid

/-- The running process is to be copied to a child with an empty table: what it maps is marked used, and
there are frames for all of it and for a kernel stack. -/
structure CopyStart (k : Kernel) (parent child : PcbPtr) : Prop where
  vm : k.mem.vm_enabled = true
  live : k.mem.ptbr1 = some parent
  new : child ≠ parent
  blank : ∀ i < hw.MAX_PT_LEN, ((k.pcb child).region1_pt i).valid = false
  used : ∀ i ∈ validPages hw (k.pcb parent).region1_pt,
    k.mem.frame_bitMap ((k.pcb parent).region1_pt i).pfn = true
  stack : ∀ i < hw.kernelStackPages, (k.mem.region0_pt (hw.KSTACK_START_PAGE + i)).valid = true ∧
    k.mem.frame_bitMap (k.mem.region0_pt (hw.KSTACK_START_PAGE + i)).pfn = true
  enough : (validPages hw (k.pcb parent).region1_pt).length + hw.kernelStackPages ≤
    (freeFrames hw k.mem).card

/-- The frames of the child: those of its pages, and those of its kernel stack. -/
def Kernel.framesOf (k : Kernel) (child : PcbPtr) : List Nat :=
  (validPages hw (k.pcb child).region1_pt).map (fun i => ((k.pcb child).region1_pt i).pfn) ++
    (List.range hw.kernelStackPages).map fun i => ((k.pcb child).kernel_stack i).pfn

/-- From `k` to `k'` the child has got a copy of the address space and of the kernel stack of its parent, and
nothing that was in use has changed. -/
structure CopiesSpace (k k' : Kernel) (parent child : PcbPtr) (frames frames' : Frames UInt8) : Prop where
  pages : ∀ i < hw.MAX_PT_LEN,
    ((k'.pcb child).region1_pt i).valid = ((k.pcb parent).region1_pt i).valid
  prots : ∀ i ∈ validPages hw (k.pcb parent).region1_pt,
    ((k'.pcb child).region1_pt i).prot = ((k.pcb parent).region1_pt i).prot
  distinct : (k'.framesOf hw child).Nodup
  fresh : ∀ f ∈ k'.framesOf hw child, f ∈ freeFrames hw k.mem ∧ k'.mem.frame_bitMap f = true
  contents : ∀ i ∈ validPages hw (k.pcb parent).region1_pt, ∀ o < hw.pageBytes,
    frames' ((k'.pcb child).region1_pt i).pfn o = frames ((k.pcb parent).region1_pt i).pfn o
  stack : ∀ i < hw.kernelStackPages, ((k'.pcb child).kernel_stack i).valid = true ∧
    ((k'.pcb child).kernel_stack i).prot = .readWrite ∧ ∀ o < hw.pageBytes,
      frames' ((k'.pcb child).kernel_stack i).pfn o =
        frames (k.mem.region0_pt (hw.KSTACK_START_PAGE + i)).pfn o
  others : ∀ p, p ≠ child → k'.pcb p = k.pcb p
  region0 : ∀ vpn, vpn ≠ hw.tempMappingPage → k'.mem.region0_pt vpn = k.mem.region0_pt vpn
  used : ∀ f, k.mem.frame_bitMap f = true → k'.mem.frame_bitMap f = true ∧ frames' f = frames f

/-! ## Running out of frames -/

/-- The call of `SysFork` has failed, and all is as it was before. -/
structure ForkUndone (k k' : Kernel) : Prop where
  result : k'.uctxt.regs 0 = ERROR
  entries : ∀ p, ∀ i < hw.MAX_PT_LEN, ((k'.pcb p).region1_pt i).valid = true →
    ((k'.pcb p).region1_pt i).pfn < hw.NUM_VPN ∨ (k'.pcb p).region1_pt i = (k.pcb p).region1_pt i
  bits : k'.mem.frame_bitMap = k.mem.frame_bitMap
  children : k'.children k.current_process = k.children k.current_process
  ready : k'.queue .ready = k.queue .ready
  others : ∀ p, p ≠ k.current_process → k.allocated p = true → k'.pcb p = k.pcb p

/-- `SysFork` fails, and leaves nothing behind. -/
def ForkFailsCleanly (k : Kernel) (child_pcb : PcbPtr) : Prop :=
  ∃ k', sysFork hw k child_pcb = some k' ∧ ForkUndone hw k k'

/-- There are fewer free frames than the copy of the current process takes. -/
def ShortOfFrames (k : Kernel) : Prop :=
  (freeFrames hw k.mem).card <
    (validPages hw (k.pcb k.current_process).region1_pt).length + hw.kernelStackPages

end Yalnix
