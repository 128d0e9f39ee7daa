import Yalnix.Proofs.ForkMemory

/-!
# A fork without enough frames

`CopyPageTable` does not look at the answer of `allocate_frame`, and goes on to the last page; then
`InitializeKernelStack` finds no frame, and halts the machine.
-/

namespace Yalnix

variable {hw : Hardware} {k k' : Kernel} {m m' : Memory} {pt parent_pt : Nat → Pte} {n vpn : Nat}
  {child_pcb : PcbPtr} {pfn : Int}

/-- `allocate_frame` takes a frame if there is one. -/
theorem allocateFrame_card (h : allocateFrame hw m = (pfn, m')) :
    (freeFrames hw m').card = (freeFrames hw m).card - 1 := by
  rcases allocateFrame_cases h with ⟨f, -, hf, hbit, rfl⟩ | ⟨-, hfull, rfl⟩
  · have htake := freeFrames_take hf hbit
    omega
  · have hnone : freeFrames hw ({ m with exhausted := true } : Memory) = ∅ := freeFrames_full hfull
    rw [hnone, freeFrames_full hfull]
    rfl

/-- The turns of `CopyPageTable` take a frame for each page, as long as there are any. -/
theorem copyPages_card (hw : Hardware) (parent_pt : Nat → Pte) (st : Memory × (Nat → Pte)) (n : Nat) :
    (freeFrames hw ((List.range n).foldl (copyPage hw parent_pt) st).1).card =
        (freeFrames hw st.1).card - ((List.range n).filter fun i => (parent_pt i).valid).length ∧
      ((List.range n).foldl (copyPage hw parent_pt) st).1.vm_enabled = st.1.vm_enabled := by
  induction n with
  | zero => simp
  | succ n ih =>
    obtain ⟨hcard, hvm⟩ := ih
    rw [List.range_succ, List.foldl_append, List.filter_append, List.length_append]
    simp only [List.foldl_cons, List.foldl_nil]
    generalize (List.range n).foldl (copyPage hw parent_pt) st = st' at hcard hvm
    unfold copyPage
    cases hvalid : (parent_pt n).valid with
    | false =>
      rw [List.filter_singleton, hvalid]
      exact ⟨by simpa using hcard, by simpa using hvm⟩
    | true =>
      rw [List.filter_singleton, hvalid]
      generalize halloc : allocateFrame hw st'.1 = r
      obtain ⟨pfn, m'⟩ := r
      have htaken := allocateFrame_card halloc
      constructor
      · show (freeFrames hw m').card = _
        simp only [cond_true, List.length_singleton]
        omega
      · show m'.vm_enabled = _
        rcases allocateFrame_cases halloc with ⟨f, -, -, -, rfl⟩ | ⟨-, -, rfl⟩
        · exact hvm
        · exact hvm

/-- `InitializeKernelStack` halts when it gets to an entry without a frame. -/
theorem allocateStack_short (h : (freeFrames hw m).card < n) : allocateStack hw m pt vpn n = none := by
  induction n generalizing m pt vpn with
  | zero => omega
  | succ n ih =>
    unfold allocateStack
    generalize halloc : allocateFrame hw m = r
    obtain ⟨pfn, m'⟩ := r
    simp only
    split
    · rfl
    · rename_i hne
      apply ih
      have hcard := allocateFrame_card halloc
      rcases allocateFrame_cases halloc with ⟨f, rfl, hf, hbit, rfl⟩ | ⟨rfl, -, -⟩
      · -- `map_page` may mark another frame, but it frees none
        have hsub : freeFrames hw (mapPage { m with frame_bitMap := Function.update m.frame_bitMap f true } pt
            vpn f .readWrite).1 ⊆ freeFrames hw { m with frame_bitMap := Function.update m.frame_bitMap f true } := by
          intro i hi
          obtain ⟨hlt, hfree⟩ := mem_freeFrames.1 hi
          refine mem_freeFrames.2 ⟨hlt, ?_⟩
          unfold mapPage at hfree
          simp only at hfree
          by_cases e : i = Pte.pfnOfInt f
          · subst e
            rw [Function.update_self] at hfree
            cases hfree
          · rwa [Function.update_of_ne e] at hfree
        have hle := Finset.card_le_card hsub
        have hpos : 0 < (freeFrames hw m).card := Finset.card_pos.2 ⟨f, mem_freeFrames.2 ⟨hf, hbit⟩⟩
        omega
      · exact absurd rfl hne

/-- So a fork that is short of frames halts the machine. -/
theorem sysFork_short (hstack : 0 < hw.kernelStackPages) (hvm : k.mem.vm_enabled = true)
    (hshort : ShortOfFrames hw k) (hnew : child_pcb ≠ k.current_process)
    (hfork : (k.pcb k.current_process).should_fork = true) : sysFork hw k child_pcb = none := by
  unfold sysFork
  simp only
  rw [if_pos hfork]
  cases hadd : addChild (createPcb hw k child_pcb) k.current_process child_pcb with
  | none => rfl
  | some k₁ =>
    simp only [Option.bind_eq_bind, Option.bind_some]
    generalize hk₂ : k₁.modifyPcb child_pcb (fun pcb =>
      { pcb with should_fork := false, user_context := k₁.uctxt }) = k₂
    -- neither the memory nor the table of the parent has changed so far
    obtain ⟨family, -, rfl⟩ := Option.map_eq_some_iff.1 hadd
    have hmem : k₂.mem = k.mem := by
      rw [← hk₂]
      rfl
    have hpt : (k₂.pcb k.current_process).region1_pt = (k.pcb k.current_process).region1_pt := by
      rw [← hk₂]
      simp [Kernel.modifyPcb, createPcb, hnew.symm]
    have hmemory : forkMemory hw k₂ k.current_process child_pcb = none := by
      unfold forkMemory copyPageTable
      rw [hmem, hpt]
      obtain ⟨hcard, hvm'⟩ := copyPages_card hw (k.pcb k.current_process).region1_pt
        (k.mem, (k₂.pcb child_pcb).region1_pt) hw.MAX_PT_LEN
      simp only at hcard
      unfold ShortOfFrames validPages at hshort
      have hinit : initializeKernelStack hw ((List.range hw.MAX_PT_LEN).foldl
          (copyPage hw (k.pcb k.current_process).region1_pt) (k.mem, (k₂.pcb child_pcb).region1_pt)).1 = none := by
        unfold initializeKernelStack
        rw [if_pos (hvm'.trans hvm)]
        apply allocateStack_short
        rw [hcard]
        omega
      simp only [Option.bind_eq_bind, hinit, Option.bind_none]
    rw [hmemory]
    rfl

/-- `SysFork` never fails cleanly: with too few frames it halts the machine. -/
theorem fork_never_fails_cleanly (hstack : 0 < hw.kernelStackPages) (hvm : k.mem.vm_enabled = true)
    (hshort : ShortOfFrames hw k) (hnew : child_pcb ≠ k.current_process) :
    ¬ ForkFailsCleanly hw k child_pcb ∧
      ((k.pcb k.current_process).should_fork = true → sysFork hw k child_pcb = none) := by
  refine ⟨?_, sysFork_short hstack hvm hshort hnew⟩
  rintro ⟨k', hk', hundone⟩
  by_cases hfork : (k.pcb k.current_process).should_fork = true
  · rw [sysFork_short hstack hvm hshort hnew hfork] at hk'
    cases hk'
  · unfold sysFork at hk'
    simp only at hk'
    rw [if_neg hfork] at hk'
    obtain rfl := Option.some.inj hk'
    have hresult := hundone.result
    rw [Kernel.returnValue, UserContext.setReg0_regs_zero] at hresult
    cases hresult

/-- The init process of the small machine has forked as long as there were frames. -/
def shortKernel : Kernel :=
  ((trapMachine .small).exec initKernel ((List.range 5).map fun i =>
    .kernel Boot.small.uctxt (.fork (102 + i)))).get (by decide +kernel)

theorem shortKernel_short : ShortOfFrames .small shortKernel ∧ 3 ≤ (freeFrames .small shortKernel.mem).card := by
  unfold ShortOfFrames
  decide +kernel

theorem fork_never_fails_cleanly_small : ¬ ForkFailsCleanly .small shortKernel 107 ∧
    sysFork .small shortKernel 107 = none := by
  have hnew : (107 : PcbPtr) ≠ shortKernel.current_process := by decide +kernel
  obtain ⟨hunclean, hhalts⟩ := fork_never_fails_cleanly (by decide) (by decide +kernel)
    shortKernel_short.1 hnew
  exact ⟨hunclean, hhalts (by decide +kernel)⟩

/-- Three frames are left, enough for the pages; the kernel stack finds none. -/
theorem fork_never_fails_cleanly_fails : ¬ (ShortOfFrames .small shortKernel →
    ForkFailsCleanly .small shortKernel 107) := by
  intro hclean
  obtain ⟨k', hk', -⟩ := hclean shortKernel_short.1
  have hnone : (sysFork .small shortKernel 107).isNone = true := by decide +kernel
  rw [hk'] at hnone
  cases hnone

end Yalnix
