import Yalnix.SyncRun
import Yalnix.TrapRun
import Mathlib.Data.Finset.Card
import Mathlib.Data.Finset.Range

/-!
# What single calls promise

The contracts of calls whose effect is described from one call to its return.
-/

namespace Yalnix

open Intrusive Transition

variable (hw : Hardware)

/-! ## SysCvarWait -/

/-- The condition variable in slot `i`. -/
def Kernel.cvar (k : Kernel) (i : Nat) : Option Unit := (k.sync_table i).bind (·.object.asCvar)

/-- The lock in slot `l` belongs to the process `p`. -/
def Kernel.Owns (k : Kernel) (p : PcbPtr) (l : Nat) : Prop :=
  ∃ lock, k.lock l = some lock ∧ lock.owner = some p

/-- A monitor's wait on the condition variable in slot `c` with the lock in slot `l`. -/
structure MonitorWait (k : Kernel) (c l : Nat) : Prop where
  /-- The caller gives up the lock and waits for the condition variable. -/
  waits : ∃ k', sysCvarWait k = some k' ∧ ¬ k'.Owns k.current_process l ∧
    k'.queues.OnList (.wait (.cvarWaiters c)) k.current_process
  /-- When the caller runs on for the first time and is told of success, it owns the lock. -/
  returns : ∀ k' t k₁ k₂, sysCvarWait k = some k' → Run (trapMachine hw) (fun _ _ => True) k' t k₁ →
    (∀ x ∈ t, x.2 = .resume → x.1.current_process ≠ k.current_process) →
    k₁.mode = .resumed → k₁.current_process = k.current_process → resume k₁ = some k₂ →
    k₂.uctxt.regs 0 = SUCCESS → k₂.Owns k.current_process l

/-! ## SysExec -/

/-- The frames that `allocate_frame` can still give out. -/
def freeFrames (m : Memory) : Finset Nat :=
  (Finset.range hw.NUM_VPN).filter fun i => m.frame_bitMap i = false

namespace LoadInfo

variable (li : LoadInfo)

def TextPage (i : Nat) : Prop := li.text_pg1 hw ≤ i ∧ i < li.text_pg1 hw + li.textTurns hw

def DataPage (i : Nat) : Prop := li.data_pg1 hw ≤ i ∧ i < li.data_pg1 hw + li.dataTurns hw

/-- The pages of the new image. -/
def ImagePage (req : LoadRequest) (i : Nat) : Prop :=
  li.TextPage hw i ∨ li.DataPage hw i ∨ hw.MAX_PT_LEN - req.stack_npg hw ≤ i

instance (req : LoadRequest) (i : Nat) : Decidable (li.ImagePage hw req i) :=
  inferInstanceAs (Decidable ((_ ∧ _) ∨ (_ ∧ _) ∨ _))

/-- The frames that the new image takes. -/
def frames (req : LoadRequest) : Nat :=
  li.textTurns hw + li.dataTurns hw + (req.stack_npg hw).toNat

/-- The segments of the new image lie in region 1. -/
def InTable (req : LoadRequest) : Prop :=
  (0 < li.textTurns hw → 0 ≤ li.text_pg1 hw ∧ li.text_pg1 hw + li.textTurns hw ≤ hw.MAX_PT_LEN) ∧
  (0 < li.dataTurns hw → 0 ≤ li.data_pg1 hw ∧ li.data_pg1 hw + li.dataTurns hw ≤ hw.MAX_PT_LEN) ∧
  (0 < req.stack_npg hw → req.stack_npg hw ≤ hw.MAX_PT_LEN)

end LoadInfo

/-- The checks of `LoadProgram` that come before the old image is thrown away. -/
def LoadRequest.Refused (req : LoadRequest) : Prop :=
  ∀ li, req.li = some li → li.entry % 2 ^ 32 < hw.VMEM_1_BASE ∨
    req.heapAndStack hw li ≥ hw.MAX_PT_LEN ∨ req.argbuf = false

/-- The process runs the program of `req`, and nothing else is mapped. -/
structure NewImage (req : LoadRequest) (li : LoadInfo) (proc : Pcb) (uctxt : UserContext) : Prop where
  pages : ∀ i < hw.MAX_PT_LEN, (proc.region1_pt i).valid = true ↔ li.ImagePage hw req i
  text : ∀ i < hw.MAX_PT_LEN, li.TextPage hw i → (proc.region1_pt i).prot = .readExec
  data : ∀ i < hw.MAX_PT_LEN, li.ImagePage hw req i → ¬ li.TextPage hw i →
    (proc.region1_pt i).prot = .readWrite
  brk : proc.brk = li.data_end hw * hw.PAGESIZE
  pc : uctxt.pc = li.entry
  sp : uctxt.sp = req.cp2 hw

/-- The saved user context that a refused request finds: `LoadProgram` sets its stack pointer before
`malloc` fails. -/
def LoadRequest.refusedContext (req : LoadRequest) (u : UserContext) : UserContext :=
  match req.li with
  | none => u
  | some li =>
    if li.entry % 2 ^ 32 < hw.VMEM_1_BASE then u
    else if req.heapAndStack hw li ≥ hw.MAX_PT_LEN then u
    else { u with sp := req.cp2 hw }

end Yalnix
