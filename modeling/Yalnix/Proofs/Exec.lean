import Yalnix.Proofs.Frames

/-!
# SysExec

`SysExec` copies the saved user context to `*uctxt` whatever `LoadProgram` returns, and never ends the
process; `free_userspace` leaves the entries of the old image in the table.
-/

namespace Yalnix

open Transition

variable {hw : Hardware} {k k' : Kernel} {m m' : Memory} {proc proc' : Pcb} {req : LoadRequest}
  {li : LoadInfo} {rc : LoadResult}

/-- The table that the three loops of `LoadProgram` and the last one leave. -/
structure BuiltTable (hw : Hardware) (req : LoadRequest) (li : LoadInfo) (old pt : Nat → Pte) : Prop where
  image : ∀ i < hw.MAX_PT_LEN, li.ImagePage hw req i → (pt i).valid = true
  text : ∀ i < hw.MAX_PT_LEN, li.TextPage hw i → (pt i).prot = .readExec
  data : ∀ i < hw.MAX_PT_LEN, li.ImagePage hw req i → ¬ li.TextPage hw i → (pt i).prot = .readWrite
  old : ∀ i < hw.MAX_PT_LEN, ¬ li.ImagePage hw req i → pt i = old i

/-- Three loops that get all their frames leave such a table. -/
theorem BuiltTable.ofLoops {old pt₁ pt₂ pt₃ : Nat → Pte} {m₁ m₂ m₃ : Memory}
    (h₁ : mapPages hw m old (li.text_pg1 hw) (li.textTurns hw) = some (true, m₁, pt₁))
    (h₂ : mapPages hw m₁ pt₁ (li.data_pg1 hw) (li.dataTurns hw) = some (true, m₂, pt₂))
    (h₃ : mapPages hw m₂ pt₂ (hw.MAX_PT_LEN - req.stack_npg hw) (req.stack_npg hw).toNat =
      some (true, m₃, pt₃)) :
    BuiltTable hw req li old (protectText pt₃ (li.text_pg1 hw) (li.textTurns hw)) := by
  obtain ⟨hin₁, -, hpt₁⟩ := mapPages_true h₁
  obtain ⟨hin₂, -, hpt₂⟩ := mapPages_true h₂
  obtain ⟨hin₃, -, hpt₃⟩ := mapPages_true h₃
  -- the loops write the text, the data and the stack one after the other
  have hvalid : ∀ i < hw.MAX_PT_LEN, li.ImagePage hw req i →
      (pt₃ i).valid = true ∧ (pt₃ i).prot = .readWrite := by
    intro i hi himage
    by_cases h3 : hw.MAX_PT_LEN - req.stack_npg hw ≤ i
    · exact (hpt₃ i).1 (by omega)
    · rw [(hpt₃ i).2 (by omega)]
      by_cases h2 : li.DataPage hw i
      · obtain ⟨h2, h2'⟩ := h2
        exact (hpt₂ i).1 (by omega)
      · unfold LoadInfo.DataPage at h2
        rw [(hpt₂ i).2 (by omega)]
        rcases himage with ⟨h1, h1'⟩ | h1 | h1
        · exact (hpt₁ i).1 (by omega)
        · unfold LoadInfo.DataPage at h1
          omega
        · omega
  have hprotect : ∀ i : Nat,
      (protectText pt₃ (li.text_pg1 hw) (li.textTurns hw) i).valid = (pt₃ i).valid := by
    intro i
    unfold protectText
    split <;> rfl
  constructor
  · intro i hi himage
    rw [hprotect]
    exact (hvalid i hi himage).1
  · intro i hi htxt
    unfold LoadInfo.TextPage at htxt
    unfold protectText
    rw [if_pos htxt]
  · intro i hi himage htxt
    unfold LoadInfo.TextPage at htxt
    unfold protectText
    rw [if_neg htxt]
    exact (hvalid i hi himage).2
  · intro i hi hnot
    unfold LoadInfo.ImagePage LoadInfo.TextPage LoadInfo.DataPage at hnot
    unfold protectText
    rw [if_neg (by omega), (hpt₃ i).2 (by omega), (hpt₂ i).2 (by omega), (hpt₁ i).2 (by omega)]

/-- Such loops stay in the table. -/
theorem inTable_ofLoops {old pt₁ pt₂ pt₃ : Nat → Pte} {m₁ m₂ m₃ : Memory}
    (h₁ : mapPages hw m old (li.text_pg1 hw) (li.textTurns hw) = some (true, m₁, pt₁))
    (h₂ : mapPages hw m₁ pt₁ (li.data_pg1 hw) (li.dataTurns hw) = some (true, m₂, pt₂))
    (h₃ : mapPages hw m₂ pt₂ (hw.MAX_PT_LEN - req.stack_npg hw) (req.stack_npg hw).toNat =
      some (true, m₃, pt₃)) : li.InTable hw req := by
  obtain ⟨hin₁, -, -⟩ := mapPages_true h₁
  obtain ⟨hin₂, -, -⟩ := mapPages_true h₂
  obtain ⟨hin₃, -, -⟩ := mapPages_true h₃
  refine ⟨fun hpos => ?_, fun hpos => ?_, fun hpos => ?_⟩
  · have := hin₁ (by omega)
    omega
  · have := hin₂ (by omega)
    omega
  · have := hin₃ (by omega)
    omega

/-- `LoadProgram` comes back with success from its three loops only. -/
theorem buildImage_success (h : buildImage hw m proc li req = some (.success, m', proc')) :
    ∃ m₁ pt₁ m₂ pt₂ pt₃,
      mapPages hw (freeUserspace hw m proc.region1_pt) proc.region1_pt (li.text_pg1 hw) (li.textTurns hw) =
        some (true, m₁, pt₁) ∧
      mapPages hw m₁ pt₁ (li.data_pg1 hw) (li.dataTurns hw) = some (true, m₂, pt₂) ∧
      mapPages hw m₂ pt₂ (hw.MAX_PT_LEN - req.stack_npg hw) (req.stack_npg hw).toNat =
        some (true, m', pt₃) ∧
      proc' = { proc with
        region1_pt := protectText pt₃ (li.text_pg1 hw) (li.textTurns hw)
        brk := li.data_end hw * hw.PAGESIZE
        user_context := { proc.user_context with pc := li.entry } } := by
  cases buildImage_cases h with
  | built h₁ h₂ h₃ => exact ⟨_, _, _, _, _, h₁, h₂, h₃, rfl⟩

/-- So it does from its checks on, with the new stack pointer saved. -/
theorem loadProgram_success (hli : req.li = some li)
    (h : loadProgram hw m proc req = some (.success, m', proc')) :
    ∃ m₁ pt₁ m₂ pt₂ pt₃,
      mapPages hw (freeUserspace hw m proc.region1_pt) proc.region1_pt (li.text_pg1 hw) (li.textTurns hw) =
        some (true, m₁, pt₁) ∧
      mapPages hw m₁ pt₁ (li.data_pg1 hw) (li.dataTurns hw) = some (true, m₂, pt₂) ∧
      mapPages hw m₂ pt₂ (hw.MAX_PT_LEN - req.stack_npg hw) (req.stack_npg hw).toNat =
        some (true, m', pt₃) ∧
      proc' = { proc with
        region1_pt := protectText pt₃ (li.text_pg1 hw) (li.textTurns hw)
        brk := li.data_end hw * hw.PAGESIZE
        user_context := { proc.user_context with sp := req.cp2 hw, pc := li.entry } } := by
  have href : ¬ req.Refused hw := by
    intro href
    rw [loadProgram_refused href] at h
    cases h
  rw [loadProgram_built hli href] at h
  exact buildImage_success h

/-- What `SysExec` makes of the answer of `LoadProgram`. -/
def execed (k : Kernel) (m : Memory) (proc : Pcb) : Kernel :=
  { k with
    pcb := Function.update k.pcb k.current_process proc
    mem := m
    uctxt := proc.user_context }

@[simp] theorem execed_pcb : (execed k m proc).pcb k.current_process = proc := by
  simp [execed]

theorem sysExec_eq (h : loadProgram hw k.mem (k.pcb k.current_process) req = some (rc, m', proc')) :
    sysExec hw k req = some (execed k m' proc') := by
  unfold sysExec
  rw [h]
  rfl

theorem sysExec_loads (h : sysExec hw k req = some k') : ∃ rc m' proc',
    loadProgram hw k.mem (k.pcb k.current_process) req = some (rc, m', proc') := by
  unfold sysExec at h
  simp only [Option.bind_eq_bind, Option.bind_eq_some_iff, Prod.exists] at h
  obtain ⟨rc, m', proc', hload, -⟩ := h
  exact ⟨rc, m', proc', hload⟩

/-- The init process of the small machine runs. -/
def execEvents : List TrapEvent :=
  let u : UserContext := ⟨0, 0, 0, 0, 0, 0, fun _ => 0⟩
  [.clock u, .clock u, .schedule, .resume]

def execKernel : Kernel :=
  ((trapMachine .small).exec Boot.smallKernel execEvents).get (by decide +kernel)

end Yalnix
