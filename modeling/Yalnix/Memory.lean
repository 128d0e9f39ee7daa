import Yalnix.Kernel

/-!
# Frames and page tables

`frames.c`, the page tables of `memory.c` and the copying of `context_switch.c`. The bytes inside the
pages are not part of the state, so a `memcpy` of a page leaves no trace here; `ForkMemory` has it.
-/

namespace Yalnix

open Intrusive

variable (hw : Hardware)

/-! ## frames.c -/

/-- `allocate_frame`. -/
def allocateFrame (m : Memory) : Int × Memory :=
  match (List.range hw.NUM_VPN).find? fun i => !m.frame_bitMap i with
  | some i => (i, { m with frame_bitMap := Function.update m.frame_bitMap i true })
  | none => (ERROR, { m with exhausted := true })

/-- `free_frame`. -/
def freeFrame (m : Memory) (pfn : Int) : Memory :=
  if pfn < 0 ∨ pfn ≥ hw.NUM_VPN then m
  else if m.frame_bitMap pfn.toNat = false then m
  else { m with frame_bitMap := Function.update m.frame_bitMap pfn.toNat false }

/-! ## memory.c -/

/-- `map_page`: the new table, and the frame marked as used. -/
def mapPage (m : Memory) (pt : Nat → Pte) (vpn : Nat) (pfn : Int) (prot : Prot) :
    Memory × (Nat → Pte) :=
  let entry : Pte := ⟨true, prot, Pte.pfnOfInt pfn⟩
  ({ m with frame_bitMap := Function.update m.frame_bitMap entry.pfn true },
    Function.update pt vpn entry)

/-- `map_page(region0_pt, ..)`. -/
def mapRegion0 (m : Memory) (vpn : Nat) (pfn : Int) (prot : Prot) : Memory :=
  let (m, pt) := mapPage m m.region0_pt vpn pfn prot
  { m with region0_pt := pt }

/-- `unmap_page`: the new table. The frame of the entry is freed even if the entry was not valid. -/
def unmapPage (m : Memory) (pt : Nat → Pte) (vpn : Nat) : Memory × (Nat → Pte) :=
  (freeFrame hw m (pt vpn).pfn, Function.update pt vpn .zero)

/-- The first loop of `init_region0_pageTable`: kernel text, data and heap from page `i` on. -/
def mapKernelImage (kernel_data_start frames : Int) (m : Memory) (i : Nat) : Nat → Memory
  | 0 => m
  | n + 1 =>
    if i ≥ hw.MAX_PT_LEN then m
    else if i ≥ frames then m
    else
      let prot := if i < kernel_data_start then Prot.readExec else Prot.readWrite
      mapKernelImage kernel_data_start frames (mapRegion0 m i i prot) (i + 1) n

/-- The second loop of `init_region0_pageTable`: the kernel stack from page `i` on. -/
def mapBootStack (frames : Int) (m : Memory) (i : Nat) : Nat → Memory
  | 0 => m
  | n + 1 =>
    if i ≥ hw.MAX_PT_LEN then m
    else if i ≥ frames then m
    else mapBootStack frames (mapRegion0 m i i .readWrite) (i + 1) n

/-- `init_region0_pageTable`. -/
def initRegion0PageTable (kernel_text_start kernel_data_start kernel_brk_start : Nat)
    (pmem_size : Int) (m : Memory) : Memory :=
  let num_physical_frames := pmem_size / hw.PAGESIZE
  let m := { m with frame_bitMap := Function.update (fun _ => false) 0 true }
  let m := mapKernelImage hw kernel_data_start num_physical_frames m kernel_text_start
    (kernel_brk_start - kernel_text_start)
  mapBootStack hw num_physical_frames m hw.KSTACK_START_PAGE hw.kernelStackPages

/-- The loop of `InitializeKernelStack` after virtual memory is on, from entry `vpn` on; a missing
frame halts the machine. -/
def allocateStack (m : Memory) (pt : Nat → Pte) (vpn : Nat) : Nat → Option (Memory × (Nat → Pte))
  | 0 => some (m, pt)
  | n + 1 =>
    let (pfn, m) := allocateFrame hw m
    if pfn = ERROR then none
    else
      let (m, pt) := mapPage m pt vpn pfn .readWrite
      allocateStack m pt (vpn + 1) n

/-- The loop of `InitializeKernelStack` before virtual memory is on, from entry `j` on. -/
def identityStack (m : Memory) (pt : Nat → Pte) (j : Nat) : Nat → Memory × (Nat → Pte)
  | 0 => (m, pt)
  | n + 1 =>
    let (m, pt) := mapPage m pt j (hw.KSTACK_START_PAGE + j : Nat) .readWrite
    identityStack m pt (j + 1) n

/-- `InitializeKernelStack`: the entries of the new kernel stack. -/
def initializeKernelStack (m : Memory) : Option (Memory × (Nat → Pte)) :=
  if m.vm_enabled then allocateStack hw m (fun _ => .zero) 0 hw.kernelStackPages
  else some (identityStack hw m (fun _ => .zero) 0 hw.kernelStackPages)

/-- The growing loop of `SetKernelBrk`, from page `i` on. -/
def growKernelHeap (m : Memory) (i : Nat) : Nat → Int × Memory
  | 0 => (0, m)
  | n + 1 =>
    if i ≥ hw.KSTACK_START_PAGE then (ERROR, m)
    else
      let (pfn, m) := allocateFrame hw m
      if pfn = ERROR then (ERROR, m)
      else
        let m := { m with frame_bitMap := Function.update m.frame_bitMap pfn.toNat true }
        let entry : Pte := ⟨true, .readWrite, Pte.pfnOfInt pfn⟩
        growKernelHeap { m with region0_pt := Function.update m.region0_pt i entry } (i + 1) n

/-- The shrinking loop of `SetKernelBrk`, from page `i` on. -/
def shrinkKernelHeap (m : Memory) (i : Nat) : Nat → Memory
  | 0 => m
  | n + 1 =>
    if (m.region0_pt i).valid then
      let pfn_to_free := (m.region0_pt i).pfn
      let m := freeFrame hw m pfn_to_free
      let m := { m with frame_bitMap := Function.update m.frame_bitMap pfn_to_free false }
      shrinkKernelHeap { m with region0_pt := Function.update m.region0_pt i .zero } (i + 1) n
    else shrinkKernelHeap m (i + 1) n

/-- `SetKernelBrk`. The linker's `_first_kernel_data_page` is a page number, and is shifted here like
an address. -/
def setKernelBrk (first_kernel_data_page : Nat) (m : Memory) (addr : Int) : Int × Memory :=
  let new_brk_page := (hw.page addr).toNat
  let current_kernel_brk_page := (hw.page m.kernel_brk).toNat
  if new_brk_page < (hw.page first_kernel_data_page).toNat then (ERROR, m)
  else if !m.vm_enabled then
    if new_brk_page ≥ hw.KSTACK_START_PAGE then (ERROR, m)
    else if addr < m.kernel_brk then (ERROR, m)
    else (0, { m with kernel_brk := addr })
  else if new_brk_page ≥ hw.KSTACK_START_PAGE then (ERROR, m)
  else if new_brk_page < current_kernel_brk_page then
    let m := shrinkKernelHeap hw m new_brk_page (current_kernel_brk_page - new_brk_page)
    (0, { m with kernel_brk := addr })
  else
    let (rc, m) := growKernelHeap hw m current_kernel_brk_page (new_brk_page - current_kernel_brk_page)
    if rc = ERROR then (ERROR, m) else (0, { m with kernel_brk := addr })

/-! ## context_switch.c -/

/-- `setup_temp_mapping`. -/
def setupTempMapping (m : Memory) (pfn : Int) : Memory :=
  { m with region0_pt :=
      Function.update m.region0_pt hw.tempMappingPage ⟨true, .readWrite, Pte.pfnOfInt pfn⟩ }

/-- `remove_temp_mapping`. -/
def removeTempMapping (m : Memory) : Memory :=
  let entry := m.region0_pt hw.tempMappingPage
  { m with region0_pt := Function.update m.region0_pt hw.tempMappingPage { entry with valid := false } }

/-- One turn of the loop of `CopyPageTable`, on the memory and the table of the child. -/
def copyPage (parent_pt : Nat → Pte) (st : Memory × (Nat → Pte)) (i : Nat) :
    Memory × (Nat → Pte) :=
  if (parent_pt i).valid then
    let (child_frame, m) := allocateFrame hw st.1
    let m := removeTempMapping hw (setupTempMapping hw m child_frame)
    (m, Function.update st.2 i ⟨true, (parent_pt i).prot, Pte.pfnOfInt child_frame⟩)
  else st

/-- `CopyPageTable`. -/
def copyPageTable (m : Memory) (parent_pt child_pt : Nat → Pte) : Memory × (Nat → Pte) :=
  (List.range hw.MAX_PT_LEN).foldl (copyPage hw parent_pt) (m, child_pt)

/-- One turn of the loop of `KCCopy`, on the memory and the kernel stack entries of the new process. -/
def copyStackPage (st : Memory × (Nat → Pte)) (i : Nat) : Memory × (Nat → Pte) :=
  let m := removeTempMapping hw (setupTempMapping hw st.1 (st.2 i).pfn)
  (m, Function.update st.2 i ⟨true, .readWrite, (st.2 i).pfn⟩)

/-- The kernel stack pages copied by `KCCopy`. -/
def copyKernelStack (m : Memory) (kernel_stack : Nat → Pte) : Memory × (Nat → Pte) :=
  (List.range hw.kernelStackPages).foldl (copyStackPage hw) (m, kernel_stack)

/-- `map_kernel_stack`. -/
def mapKernelStack (m : Memory) (kernel_stack : Nat → Pte) : Memory :=
  { m with region0_pt := fun vpn =>
      if hw.KSTACK_START_PAGE ≤ vpn ∧ vpn < hw.KSTACK_START_PAGE + hw.kernelStackPages then
        kernel_stack (vpn - hw.KSTACK_START_PAGE)
      else m.region0_pt vpn }

/-! ## The memory of a process: pcb.c and load_program.c -/

/-- `free_userspace`. The loop changes a copy of each entry, so the table keeps its entries. -/
def freeUserspace (m : Memory) (region1_pt : Nat → Pte) : Memory :=
  (List.range hw.MAX_PT_LEN).foldl
    (fun m i => if (region1_pt i).valid then freeFrame hw m (region1_pt i).pfn else m) m

/-- `free_process_memory`. -/
def freeProcessMemory (m : Memory) (proc : Pcb) : Memory :=
  (List.range hw.kernelStackPages).foldl (fun m i => freeFrame hw m (proc.kernel_stack i).pfn)
    (freeUserspace hw m proc.region1_pt)

/-- The fields of `struct load_info` that lay out the pages; they are unsigned words. -/
structure LoadInfo where
  entry : Int
  t_vaddr : Int
  t_npg : Int
  id_vaddr : Int
  id_npg : Int
  ud_npg : Int

/-- The arguments of `LoadProgram`, and what the outside answers: the header of the file (`none` if it
cannot be opened or is not in Yalnix format), `malloc` for the argument buffer, and whether the two
reads deliver their whole segment. -/
structure LoadRequest where
  li : Option LoadInfo
  args : List (List UInt8)
  argbuf : Bool
  textRead : Bool
  dataRead : Bool

inductive LoadResult where
  | success
  | error
  | kill
deriving DecidableEq

/-- A loop of `LoadProgram` that maps `n` pages from page `i` on: whether it got all its frames. There
is no result when it writes outside the table. -/
def mapPages (m : Memory) (pt : Nat → Pte) (i : Int) : Nat → Option (Bool × Memory × (Nat → Pte))
  | 0 => some (true, m, pt)
  | n + 1 =>
    let (nf, m) := allocateFrame hw m
    if nf = ERROR then some (false, m, pt)
    else if 0 ≤ i ∧ i < hw.MAX_PT_LEN then
      mapPages m (Function.update pt i.toNat ⟨true, .readWrite, Pte.pfnOfInt nf⟩) (i + 1) n
    else none

/-- The loop that makes the text read and execute only, from page `text_pg1` on. -/
def protectText (pt : Nat → Pte) (text_pg1 : Int) (n : Nat) : Nat → Pte := fun i =>
  if text_pg1 ≤ i ∧ (i : Int) < text_pg1 + n then { pt i with prot := .readExec } else pt i

namespace LoadInfo

variable (li : LoadInfo)

def text_pg1 : Int := toInt32 (hw.page ((li.t_vaddr - hw.VMEM_1_BASE) % 2 ^ 32))

def data_pg1 : Int := toInt32 (hw.page ((li.id_vaddr - hw.VMEM_1_BASE) % 2 ^ 32))

def data_npg : Int := toInt32 (li.id_npg + li.ud_npg)

/-- The turns of `for (int i = text_pg1; i < text_pg1 + li.t_npg; i++)`, which compares unsigned words. -/
def textTurns : Nat := ((li.text_pg1 hw + li.t_npg) % 2 ^ 32 - li.text_pg1 hw % 2 ^ 32).toNat

/-- `data_pg1 + data_npg`. -/
def data_end : Int := toInt32 (li.data_pg1 hw + li.data_npg)

/-- The turns of `for (int i = data_pg1; i < data_pg1 + data_npg; i++)`. -/
def dataTurns : Nat := (li.data_end hw - li.data_pg1 hw).toNat

end LoadInfo

namespace LoadRequest

variable (req : LoadRequest)

/-- `size`: the bytes of the arguments with their terminators. -/
def size : Int := toInt32 (req.args.map fun a => (a.length : Int) + 1).sum

/-- `cpp` as it is first computed: the address of the argument pointers on the new stack. -/
def cpp : Int :=
  (hw.VMEM_1_LIMIT - req.size - (req.args.length + 3 + hw.POST_ARGV_NULL_SPACE) * 4) % 2 ^ 32 / 8 * 8

/-- The new stack pointer. -/
def cp2 : Int := (req.cpp hw - hw.INITIAL_STACK_FRAME_SIZE) % 2 ^ 32

def stack_npg : Int := toInt32 (hw.page ((hw.VMEM_1_LIMIT - hw.DOWN_TO_PAGE (req.cp2 hw)) % 2 ^ 32))

/-- The left side of the check that at least one page is left between heap and stack. -/
def heapAndStack (li : LoadInfo) : Int := toInt32 (req.stack_npg hw + li.data_pg1 hw + li.data_npg)

end LoadRequest

/-- The part of `LoadProgram` from the point of no return on. -/
def buildImage (m : Memory) (proc : Pcb) (li : LoadInfo) (req : LoadRequest) :
    Option (LoadResult × Memory × Pcb) := do
  let text_pg1 := li.text_pg1 hw
  let data_pg1 := li.data_pg1 hw
  let m := freeUserspace hw m proc.region1_pt
  let (ok, m, pt) ← mapPages hw m proc.region1_pt text_pg1 (li.textTurns hw)
  if !ok then return (.error, m, { proc with region1_pt := pt })
  else
    let (ok, m, pt) ← mapPages hw m pt data_pg1 (li.dataTurns hw)
    if !ok then return (.error, m, { proc with region1_pt := pt })
    else
      let proc := { proc with brk := li.data_end hw * hw.PAGESIZE }
      let stack_npg := req.stack_npg hw
      let (ok, m, pt) ← mapPages hw m pt (hw.MAX_PT_LEN - stack_npg) stack_npg.toNat
      let proc := { proc with region1_pt := pt }
      if !ok then return (.error, m, proc)
      else if !req.textRead then return (.kill, m, proc)
      else if !req.dataRead then return (.kill, m, proc)
      else
        let uc := { proc.user_context with pc := li.entry }
        return (.success, m,
          { proc with region1_pt := protectText pt text_pg1 (li.textTurns hw), user_context := uc })

/-- `LoadProgram`. -/
def loadProgram (m : Memory) (proc : Pcb) (req : LoadRequest) : Option (LoadResult × Memory × Pcb) :=
  match req.li with
  | none => some (.error, m, proc)
  | some li =>
    if li.entry % 2 ^ 32 < hw.VMEM_1_BASE then some (.error, m, proc)
    else if req.heapAndStack hw li ≥ hw.MAX_PT_LEN then some (.error, m, proc)
    else
      let proc := { proc with user_context := { proc.user_context with sp := req.cp2 hw } }
      if !req.argbuf then some (.error, m, proc)
      else buildImage hw m proc li req

/-- The growing loop of `SysBrk`, from page `i` on: whether it got all its frames. -/
def growUserHeap (m : Memory) (pt : Nat → Pte) (i : Nat) : Nat → Option (Bool × Memory × (Nat → Pte))
  | 0 => some (true, m, pt)
  | n + 1 =>
    if hw.MAX_PT_LEN ≤ i then none
    else if (pt i).valid then growUserHeap m pt (i + 1) n
    else
      let (nf, m) := allocateFrame hw m
      if nf = ERROR then some (false, m, pt)
      else
        growUserHeap m (Function.update pt i ⟨true, .readWrite, Pte.pfnOfInt nf⟩) (i + 1) n

/-- The shrinking loop of `SysBrk`, `for(i = cbrk - 1; i < nbrk; i--)`, with `i + 1` as the counter. -/
def shrinkUserHeap (nbrk : Nat) (m : Memory) (pt : Nat → Pte) : Nat → Memory × (Nat → Pte)
  | 0 => (m, pt)
  | i + 1 =>
    if i < nbrk then
      if (pt i).valid then
        shrinkUserHeap nbrk (freeFrame hw m (pt i).pfn) (Function.update pt i .zero) i
      else shrinkUserHeap nbrk m pt i
    else (m, pt)

end Yalnix
