import Yalnix.Proofs.UserBrk

/-!
# The break never moves

No call of `SysBrk` writes the recorded break, so every call works from the end of the data.
-/

namespace Yalnix

open Transition

variable {hw : Hardware} {k k' k₀ : Kernel} {m m' : Memory} {proc proc' : Pcb} {req : LoadRequest}
  {li : LoadInfo} {c : BrkCall} {t : List (Kernel × BrkCall)}

/-! ## The recorded break -/

/-- `LoadProgram` records the page after the data. -/
theorem loadProgram_breakPage (hlimit : hw.VMEM_1_LIMIT ≤ 2 ^ 32) (hli : req.li = some li)
    (hload : loadProgram hw m proc req = some (.success, m', proc')) (hpos : 0 ≤ li.data_end hw)
    (hmax : li.data_end hw < hw.MAX_PT_LEN) : (proc'.breakPage hw : Int) = li.data_end hw := by
  obtain ⟨_, _, _, _, _, -, -, -, rfl⟩ := loadProgram_success hli hload
  have hpage := hw.PAGESIZE_pos
  have hlow : 0 ≤ li.data_end hw * hw.PAGESIZE := Int.mul_nonneg hpos (by omega)
  have hhigh : li.data_end hw * hw.PAGESIZE < hw.MAX_PT_LEN * hw.PAGESIZE :=
    Int.mul_lt_mul_of_pos_right hmax hpage
  have hword : li.data_end hw * hw.PAGESIZE < 2 ^ 32 := by
    unfold Hardware.VMEM_1_LIMIT at hlimit
    rw [Int.mul_assoc] at hlimit
    omega
  show ((hw.page (li.data_end hw * hw.PAGESIZE % 2 ^ 32)).toNat : Int) = li.data_end hw
  unfold Hardware.page
  rw [Int.emod_eq_of_lt hlow hword, Int.mul_ediv_cancel _ (by omega)]
  exact Int.toNat_of_nonneg hpos

@[simp] theorem enterBrk_pcb : (k.enterBrk c).pcb k.current_process =
    { k.pcb k.current_process with user_context := c.saved } := by
  simp [Kernel.enterBrk, Kernel.modifyPcb]

@[simp] theorem enterBrk_table : (k.enterBrk c).table = k.table := by
  show ((k.enterBrk c).pcb k.current_process).region1_pt = _
  rw [enterBrk_pcb]
  rfl

@[simp] theorem enterBrk_cbrk : (k.enterBrk c).cbrk hw = k.cbrk hw := by
  show ((k.enterBrk c).pcb k.current_process).breakPage hw = _
  rw [enterBrk_pcb]
  rfl

theorem grown_cbrk {pt : Nat → Pte} : (grown k m pt).cbrk hw = k.cbrk hw := by
  simp [grown, Kernel.cbrk, Kernel.modifyPcb, Pcb.breakPage]

/-- A call in the run returns `0` and keeps the recorded break; one that asks for no more than that changes
nothing. -/
theorem userBrk_step (hen : (userBrkMachine hw li req).enabled k c)
    (hstep : (userBrkMachine hw li req).step k c = some k') :
    k'.uctxt.regs 0 = 0 ∧ k'.cbrk hw = k.cbrk hw ∧
      ((k.enterBrk c).nbrk hw ≤ k.cbrk hw → k'.table = k.table ∧ k'.mem = k.mem) := by
  obtain ⟨-, ⟨-, hmax⟩, hsp, henough⟩ := hen
  have hstep : sysBrk hw (k.enterBrk c) = some k' := hstep
  have href : ¬ (k.enterBrk c).BrkRefused hw := by
    unfold Kernel.BrkRefused
    show ¬ _ ≥ hw.page (hw.DOWN_TO_PAGE ((k.enterBrk c).pcb k.current_process).user_context.sp)
    rw [enterBrk_pcb]
    show ¬ _ ≥ hw.page (hw.DOWN_TO_PAGE c.saved.sp)
    omega
  by_cases hle : (k.enterBrk c).nbrk hw ≤ (k.enterBrk c).cbrk hw
  · rw [sysBrk_kept href hle] at hstep
    obtain rfl := Option.some.inj hstep
    refine ⟨returnValue_result, ?_, fun _ => ⟨?_, rfl⟩⟩
    · exact enterBrk_cbrk
    · exact enterBrk_table
  · rw [sysBrk_grows href (by omega)] at hstep
    obtain ⟨m₁, pt₁, hgrow⟩ := growUserHeap_enough (show (k.enterBrk c).cbrk hw +
      ((k.enterBrk c).nbrk hw - (k.enterBrk c).cbrk hw) ≤ hw.MAX_PT_LEN by omega) henough
    rw [hgrow] at hstep
    obtain rfl := Option.some.inj hstep
    refine ⟨returnValue_result, ?_, fun hle' => ?_⟩
    · show (grown (k.enterBrk c) m₁ pt₁).cbrk hw = _
      rw [grown_cbrk, enterBrk_cbrk]
    · rw [enterBrk_cbrk] at hle
      exact absurd hle' hle

/-! ## Runs -/

theorem run_cbrk {P : Kernel → BrkCall → Prop} (hrun : Run (userBrkMachine hw li req) P k₀ t k) :
    ∀ x ∈ t, x.1.cbrk hw = k₀.cbrk hw ∧ (userBrkMachine hw li req).enabled x.1 x.2 := by
  intro x hx
  obtain ⟨hcbrk, hen, -⟩ := hrun.before (I := fun s => s.cbrk hw = k₀.cbrk hw) rfl
    (fun s e s' hs hen _ hstep => (userBrk_step hen hstep).2.1.trans hs) x hx
  exact ⟨hcbrk, hen⟩

/-- In a run whose calls all move the break, they all ask for the recorded one. -/
theorem BrkSequence.asked (hseq : BrkSequence hw li req t k)
    (hrun : Run (userBrkMachine hw li req) (fun _ _ => True) k₀ t k) :
    ∀ x ∈ t, (x.1.enterBrk x.2).nbrk hw = k₀.cbrk hw := by
  intro x hx
  obtain ⟨t₁, t₂, rfl⟩ := List.append_of_mem hx
  obtain ⟨k₁, -, hen, -, hstep, -⟩ := hrun.split
  obtain ⟨hzero, hcbrk, -⟩ := userBrk_step hen hstep
  have hmoved := hseq.calls x hx k₁ hstep hzero
  rw [← hmoved.recorded, hcbrk]
  exact (run_cbrk hrun x hx).1

/-- Calls that ask for the recorded break change nothing. -/
theorem run_kept (hrun : Run (userBrkMachine hw li req) (fun _ _ => True) k₀ t k)
    (hasked : ∀ x ∈ t, (x.1.enterBrk x.2).nbrk hw = k₀.cbrk hw) :
    (k.table = k₀.table ∧ k.mem = k₀.mem) ∧ ∀ x ∈ t, (x.1.table = k₀.table ∧ x.1.mem = k₀.mem) ∧
      ∀ k', (userBrkMachine hw li req).step x.1 x.2 = some k' →
        k'.table = k₀.table ∧ k'.cbrk hw = k₀.cbrk hw := by
  have hpres : ∀ s e s', (s.table = k₀.table ∧ s.mem = k₀.mem ∧ s.cbrk hw = k₀.cbrk hw) →
      (userBrkMachine hw li req).enabled s e → (s.enterBrk e).nbrk hw = k₀.cbrk hw →
      (userBrkMachine hw li req).step s e = some s' →
      s'.table = k₀.table ∧ s'.mem = k₀.mem ∧ s'.cbrk hw = k₀.cbrk hw := by
    rintro s e s' ⟨htable, hmem, hcbrk⟩ hen hasked hstep
    obtain ⟨-, hcbrk', hsame⟩ := userBrk_step hen hstep
    obtain ⟨htable', hmem'⟩ := hsame (by omega)
    exact ⟨htable'.trans htable, hmem'.trans hmem, hcbrk'.trans hcbrk⟩
  have hrun' : Run (userBrkMachine hw li req) (fun s e => (s.enterBrk e).nbrk hw = k₀.cbrk hw) k₀ t k :=
    (hrun.restrict hasked).mono fun _ _ h => h.2
  obtain ⟨htable, hmem, -⟩ := hrun'.invariant ⟨rfl, rfl, rfl⟩ hpres
  refine ⟨⟨htable, hmem⟩, fun x hx => ?_⟩
  obtain ⟨hx₀, hen, hx'⟩ := hrun'.before ⟨rfl, rfl, rfl⟩ hpres x hx
  refine ⟨⟨hx₀.1, hx₀.2.1⟩, fun k' hstep => ?_⟩
  obtain ⟨htable', -, hcbrk'⟩ := hpres x.1 x.2 k' hx₀ hen hx' hstep
  exact ⟨htable', hcbrk'⟩

/-- Every call of a run moves the break exactly when there is no call, or every call asks for the end of the
data and no page above it is mapped from the start. -/
theorem brk_moves_break (hlimit : hw.VMEM_1_LIMIT ≤ 2 ^ 32) (hli : req.li = some li)
    (hload : loadProgram hw m proc req = some (.success, m', proc'))
    (hproc : k₀.pcb k₀.current_process = proc')
    (hrun : Run (userBrkMachine hw li req) (fun _ _ => True) k₀ t k) :
    BrkSequence hw li req t k ↔ t = [] ∨
      (∀ i, li.HeapPage hw req i → (proc'.region1_pt i).valid = false) ∧
        ∀ x ∈ t, ((x.1.enterBrk x.2).nbrk hw : Int) = li.data_end hw := by
  have htable₀ : k₀.table = proc'.region1_pt := by
    rw [← hproc]
    rfl
  -- in a run with a call, the recorded break is the end of the data
  have hend : ∀ x ∈ t, (k₀.cbrk hw : Int) = li.data_end hw := by
    intro x hx
    obtain ⟨-, ⟨hpos, hlo⟩, ⟨-, hmax⟩, -⟩ := run_cbrk hrun x hx
    have hpage := loadProgram_breakPage hlimit hli hload hpos (by omega)
    rw [← hproc] at hpage
    exact hpage
  constructor
  · intro hseq
    by_cases hne : t = []
    · exact Or.inl hne
    · have hasked := hseq.asked hrun
      refine Or.inr ⟨fun i hi => ?_, fun x hx => ?_⟩
      · obtain ⟨x, hx⟩ := List.exists_mem_of_ne_nil t hne
        have hkept := ((run_kept hrun hasked).2 x hx).2
        have hend := hend x hx
        obtain ⟨t₁, t₂, rfl⟩ := List.append_of_mem hx
        obtain ⟨k₁, -, hen, -, hstep, -⟩ := hrun.split
        have hvalid := (hseq.calls x hx k₁ hstep (userBrk_step hen hstep).1).heap i hi
        rw [(hkept k₁ hstep).1, htable₀, hasked x hx] at hvalid
        have hlo := hi.1
        by_contra hv
        have := hvalid.1 (by simpa using hv)
        omega
      · rw [hasked x hx]
        exact hend x hx
  · rintro (rfl | ⟨hfresh, hasked⟩)
    · constructor
      · intro x hx
        cases hx
      · intro x hx
        cases hx
    · have hasked : ∀ x ∈ t, (x.1.enterBrk x.2).nbrk hw = k₀.cbrk hw := by
        intro x hx
        have := hasked x hx
        have := hend x hx
        omega
      obtain ⟨⟨htable, hmem⟩, hsteps⟩ := run_kept hrun hasked
      constructor
      · intro x hx k' hstep _
        obtain ⟨⟨hxtable, -⟩, hafter⟩ := hsteps x hx
        obtain ⟨htable', hcbrk'⟩ := hafter k' hstep
        have hcbrk : (x.1.enterBrk x.2).cbrk hw = k₀.cbrk hw := by
          rw [enterBrk_cbrk]
          exact (run_cbrk hrun x hx).1
        have hx' := hasked x hx
        constructor
        · intro i hi
          have hlo := hi.1
          have hend := hend x hx
          rw [htable', htable₀, hfresh i hi]
          constructor
          · intro h
            cases h
          · intro h
            omega
        · rw [hcbrk', hx']
        · intro i hlo hhi
          omega
        · intro i _ _
          rw [htable', enterBrk_table, hxtable]
      · intro x hx _
        obtain ⟨hxtable, hxmem⟩ := (hsteps x hx).1
        rw [htable, hmem, hxtable, hxmem]
        exact ⟨rfl, rfl⟩

/-- The init process after it has loaded its own program again. -/
def loadedKernel : Kernel := (sysExec .small execKernel .small).get (by decide +kernel)

/-- It asks for the break `addr`, with its stack pointer in the last page. -/
def smallCall (addr : Int) : BrkCall where
  uctxt := ⟨0, 0, 0, 0, 255, 0, fun _ => addr⟩
  saved := ⟨0, 0, 0, 0, 255, 0, fun _ => 0⟩

theorem loadedKernel_loads : ∃ m' proc', loadProgram .small execKernel.mem execCaller .small =
    some (.success, m', proc') ∧ loadedKernel.pcb loadedKernel.current_process = proc' := by
  have hsuccess : (loadProgram .small execKernel.mem execCaller .small).map Prod.fst = some .success := by
    decide +kernel
  obtain ⟨⟨rc, m', proc'⟩, hload, rfl⟩ := Option.map_eq_some_iff.1 hsuccess
  have hexec : sysExec .small execKernel .small = some loadedKernel := (Option.some_get _).symm
  have hloaded : loadedKernel = execed execKernel m' proc' :=
    Option.some.inj (hexec.symm.trans (sysExec_eq hload))
  refine ⟨m', proc', hload, ?_⟩
  rw [hloaded]
  exact execed_pcb

/-- A call with the break of the data, and one with a page more. -/
def keptKernel : Kernel :=
  ((userBrkMachine .small smallInfo .small).step loadedKernel (smallCall 160)).get (by decide +kernel)

def grownKernel : Kernel :=
  ((userBrkMachine .small smallInfo .small).step loadedKernel (smallCall 176)).get (by decide +kernel)

theorem brk_moves_break_small :
    BrkSequence .small smallInfo .small [(loadedKernel, smallCall 160)] keptKernel := by
  obtain ⟨m', proc', hload, hproc⟩ := loadedKernel_loads
  have hen : (userBrkMachine .small smallInfo .small).enabled loadedKernel (smallCall 160) :=
    ⟨⟨by decide +kernel, by decide +kernel⟩, ⟨by decide +kernel, by decide +kernel⟩, by decide +kernel,
      by decide +kernel⟩
  have hstep : (userBrkMachine .small smallInfo .small).step loadedKernel (smallCall 160) =
      some keptKernel := (Option.some_get _).symm
  have hrun : Run (userBrkMachine .small smallInfo .small) (fun _ _ => True) loadedKernel
      [(loadedKernel, smallCall 160)] keptKernel := Run.nil.snoc hen trivial hstep
  refine (brk_moves_break (by decide) rfl hload hproc hrun).2 (Or.inr ⟨?_, ?_⟩)
  · have hfresh : ∀ i < 7, 2 ≤ i →
        ((loadedKernel.pcb loadedKernel.current_process).region1_pt i).valid = false := by
      decide +kernel
    have hpages : smallInfo.data_end .small = 2 ∧
        (Hardware.small.MAX_PT_LEN : Int) - LoadRequest.small.stack_npg .small = 7 := by
      decide +kernel
    intro i hi
    obtain ⟨hlo, hhi, -⟩ := hi
    rw [← hproc]
    exact hfresh i (by omega) (by omega)
  · intro x hx
    rw [List.mem_singleton.1 hx]
    decide +kernel

/-- The page more is mapped, but the recorded break stays. -/
theorem brk_moves_break_fails : ¬ ∀ t k, Run (userBrkMachine .small smallInfo .small) (fun _ _ => True)
    loadedKernel t k → BrkSequence .small smallInfo .small t k := by
  intro hall
  have hen : (userBrkMachine .small smallInfo .small).enabled loadedKernel (smallCall 176) :=
    ⟨⟨by decide +kernel, by decide +kernel⟩, ⟨by decide +kernel, by decide +kernel⟩, by decide +kernel,
      by decide +kernel⟩
  have hstep : (userBrkMachine .small smallInfo .small).step loadedKernel (smallCall 176) =
      some grownKernel := (Option.some_get _).symm
  have hseq := hall _ _ (Run.nil.snoc hen trivial hstep)
  have hmoved := hseq.calls (loadedKernel, smallCall 176) (by simp) grownKernel hstep (by decide +kernel)
  have hrecorded := hmoved.recorded
  have hpages : grownKernel.cbrk .small = 2 ∧ (loadedKernel.enterBrk (smallCall 176)).nbrk .small = 3 := by
    decide +kernel
  simp only at hrecorded
  omega

end Yalnix
