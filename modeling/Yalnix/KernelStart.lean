import Yalnix.Syscalls

/-!
# Boot

`KernelStart`, up to its first return to user mode, as the idle process with the init process ready.
-/

namespace Yalnix

open Intrusive

/-- What the loader, the machine and `malloc` give to `KernelStart`. The kernel image lies under the
page for temporary mappings, and all of region 0 has frames. -/
structure Boot (hw : Hardware) where
  kernel_text_start : Nat
  kernel_data_start : Nat
  kernel_brk_start : Nat
  pmem_size : Int
  uctxt : UserContext
  doIdle : Int
  idle_pcb : PcbPtr
  init_pcb : PcbPtr
  initProgram : LoadRequest
  /-- The break that `malloc` has moved to by the time virtual memory is enabled. -/
  kernel_brk : Int
  init_ne_idle : init_pcb ≠ idle_pcb
  image_fits : kernel_brk_start ≤ hw.tempMappingPage
  frames_fit : hw.MAX_PT_LEN ≤ pmem_size / hw.PAGESIZE
  frames_below : hw.MAX_PT_LEN ≤ hw.NUM_VPN
  pfn_fits : hw.NUM_VPN ≤ 2 ^ 24

namespace Boot

/-- The bytes of a PCB that no `malloc` has given out yet. -/
def blankPcb (u : UserContext) : Pcb where
  user_context := u
  kernel_context := .uninitialized
  pid := 0
  region1_pt := fun _ => .zero
  kernel_stack := fun _ => .zero
  brk := 0
  state := .processDefault
  time_slice := 0
  run_time := 0
  delay_ticks := 0
  exit_code := 0
  parent := none
  waiting_for_children := 0
  waiting_lock_id := 0
  waiting_cvar_id := 0
  waiting_pipe_id := 0
  pipe_buffer := none
  pipe_len := 0
  write_loc := 0
  should_fork := false

variable {hw : Hardware} (b : Boot hw)

/-- The globals before `KernelStart`. -/
def globals : Kernel where
  pcb := fun _ => blankPcb b.uctxt
  allocated := fun _ => false
  queues := .empty
  family := .empty
  current_process := b.idle_pcb
  idle_process := b.idle_pcb
  sync_table := fun _ => none
  id_used := fun _ => false
  global_sync_counter := 0
  mem :=
    { frame_bitMap := fun _ => false
      region0_pt := fun _ => .zero
      kernel_brk := b.kernel_brk
      vm_enabled := false
      ptbr1 := none
      exhausted := false }
  kbuf := fun _ _ => 0
  kbufFreed := fun _ => false
  kstatus := fun _ => 0
  kstatusAllocated := fun _ => false
  uctxt := b.uctxt
  mode := .user
  pidCalls := 0
  userStores := []
  pipeHistory := []

end Boot

variable {hw : Hardware}

/-- `init_pcb_system`. -/
def initPcbSystem (k : Kernel) : Kernel :=
  { k with queues :=
      (((k.queues.listInit .ready).listInit .delay).listInit .blocked).listInit .zombie }

/-- `KernelStart` up to `enable_virtual_memory`: the idle process. -/
def startIdle (b : Boot hw) : Option Kernel := do
  let idle := b.idle_pcb
  let k := initPcbSystem b.globals
  let m := initRegion0PageTable hw b.kernel_text_start b.kernel_data_start b.kernel_brk_start
    b.pmem_size k.mem
  let k := createPcb hw { k with mem := m } idle
  let k := k.modifyPcb idle fun pcb => { pcb with time_slice := 1 }
  let (pfn, m) := allocateFrame hw k.mem
  if pfn = ERROR then none
  else
    let (m, pt) := mapPage m (k.pcb idle).region1_pt (hw.MAX_PT_LEN - 1) pfn .readWrite
    let (m, stack) ← initializeKernelStack hw m
    let k := { k with mem := { m with ptbr1 := some idle, vm_enabled := true } }
    return k.modifyPcb idle fun pcb =>
      { pcb with
        region1_pt := pt
        kernel_stack := stack
        user_context := { b.uctxt with pc := b.doIdle, sp := hw.VMEM_1_LIMIT - 5 } }

/-- `KernelStart` from `enable_virtual_memory` to `KernelContextSwitch(KCCopy, init_pcb)`: the init
process. A failed `LoadProgram` is only reported. -/
def startInit (b : Boot hw) (k : Kernel) : Option Kernel := do
  let init := b.init_pcb
  let k := createPcb hw k init
  let (m, stack) ← initializeKernelStack hw k.mem
  let k := { k with mem := m }
  let k := k.modifyPcb init fun pcb => { pcb with kernel_stack := stack, user_context := b.uctxt }
  let (_rc, m, proc) ← loadProgram hw k.mem (k.pcb init) b.initProgram
  let (m, stack) := copyKernelStack hw m proc.kernel_stack
  let k := { k with mem := m }
  return k.modifyPcb init fun _ =>
    { proc with kernel_stack := stack, kernel_context := .kernelStart }

/-- `SetCurrentProcess`. -/
def setCurrentProcess (k : Kernel) (process : PcbPtr) : Kernel :=
  { k with current_process := process }.setState process .processRunning

/-- `KernelStart`, with `switch_flag` clear. -/
def kernelStart (b : Boot hw) : Option Kernel := do
  let k ← startIdle b
  let k ← startInit b k
  let k ← addToReadyQueue k b.init_pcb
  return setCurrentProcess { k with uctxt := (k.pcb b.idle_pcb).user_context } b.idle_pcb

/-! ## A small machine -/

/-- A machine with eight pages a region, sixteen bytes a page and two bytes a pipe. -/
def Hardware.small : Hardware where
  PIPE_BUFFER_LEN := 2
  PAGESHIFT := 4
  MAX_PT_LEN := 8
  NUM_VPN := 40
  kernelStackPages := 2
  POST_ARGV_NULL_SPACE := 0
  INITIAL_STACK_FRAME_SIZE := 0
  newPid := fun n => n + 1
  pipe_pos := by decide
  stack_fits := by decide
  newPid_injective := fun a b h => by have h : (a : Int) + 1 = b + 1 := h; omega

/-- A program with one page each of text, data and stack. -/
def LoadRequest.small : LoadRequest where
  li := some ⟨128, 128, 1, 144, 1, 0⟩
  args := []
  argbuf := true
  textRead := true
  dataRead := true

/-- A boot of the small machine: the idle process at `100`, the init process at `101`. -/
def Boot.small : Boot .small where
  kernel_text_start := 1
  kernel_data_start := 2
  kernel_brk_start := 4
  pmem_size := 640
  uctxt := ⟨0, 0, 0, 0, 0, 0, fun _ => 0⟩
  doIdle := 16
  idle_pcb := 100
  init_pcb := 101
  initProgram := .small
  kernel_brk := 64
  init_ne_idle := by decide
  image_fits := by decide
  frames_fit := by decide
  frames_below := by decide
  pfn_fits := by decide

/-- The small machine after boot. -/
def Boot.smallKernel : Kernel := (kernelStart Boot.small).get (by decide)

/-- Two more processes on it, at `102` and `103`. -/
def Boot.smallProcesses : Kernel := createPcb .small (createPcb .small Boot.smallKernel 102) 103

end Yalnix
