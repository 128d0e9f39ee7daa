import Yalnix.TempMapping
import Yalnix.Proofs.BootRun

/-!
# Nobody else uses the page for temporary mappings

The heap ends under the page that a break may lie in, the break lies under the kernel stack, and so
`SetKernelBrk` maps pages under the page for temporary mappings only.
-/

namespace Yalnix

open Transition

variable {hw : Hardware} {b : KernelImage} {m m' m₀ : Memory} {t : List (Memory × Region0Event)}

theorem Hardware.tempMappingPage_lt (hw : Hardware) : hw.tempMappingPage < hw.KSTACK_START_PAGE := by
  have hstack := hw.stack_fits
  unfold Hardware.tempMappingPage Hardware.KSTACK_START_PAGE
  omega

theorem TempFree.congr (h : TempFree hw m)
    (he : m'.region0_pt hw.tempMappingPage = m.region0_pt hw.tempMappingPage) : TempFree hw m' := by
  unfold TempFree at *
  rw [he, h]

/-! ## Growing and shrinking -/

/-- The growing loop maps the pages from `i` up to `i + n`. -/
theorem growKernelHeap_outside {i n j : Nat} (h : i + n ≤ j) :
    (growKernelHeap hw m i n).2.region0_pt j = m.region0_pt j := by
  induction n generalizing m i with
  | zero => rfl
  | succ n ih =>
    unfold growKernelHeap
    split
    · rfl
    · generalize halloc : allocateFrame hw m = r
      obtain ⟨pfn, m₁⟩ := r
      simp only
      have hsame : m₁.region0_pt = m.region0_pt := by
        rcases allocateFrame_cases halloc with ⟨f, -, -, -, rfl⟩ | ⟨-, -, rfl⟩ <;> rfl
      split
      · rw [hsame]
      · have hne : j ≠ i := by omega
        rw [ih (by omega)]
        simp [hne, hsame]

/-- The shrinking loop makes no entry valid. -/
theorem shrinkKernelHeap_invalid {i n j : Nat} (h : (m.region0_pt j).valid = false) :
    ((shrinkKernelHeap hw m i n).region0_pt j).valid = false := by
  induction n generalizing m i with
  | zero => exact h
  | succ n ih =>
    unfold shrinkKernelHeap
    split
    · refine ih ?_
      show ((Function.update (freeFrame hw m (m.region0_pt i).pfn).region0_pt i .zero) j).valid = false
      rw [freeFrame_frame]
      by_cases hji : j = i
      · simp [hji, Pte.zero]
      · simpa [hji] using h
    · exact ih h

/-- A break is refused unless it lies under the kernel stack, so the heap stays under the page. -/
theorem TempFree.setKernelBrk {data : Nat} {addr : Int} (h : TempFree hw m) :
    TempFree hw (setKernelBrk hw data m addr).2 := by
  have htemp := hw.tempMappingPage_lt
  unfold Yalnix.setKernelBrk
  simp only
  split
  · exact h
  · split
    · split_ifs <;> exact h
    · split
      · exact h
      · rename_i hhigh
        split
        · exact shrinkKernelHeap_invalid h
        · have hgrow : TempFree hw (growKernelHeap hw m (hw.page m.kernel_brk).toNat
              ((hw.page addr).toNat - (hw.page m.kernel_brk).toNat)).2 := by
            refine h.congr (growKernelHeap_outside ?_)
            unfold Hardware.tempMappingPage
            omega
          split <;> exact hgrow

/-! ## Copying -/

/-- A temporary mapping that is taken away again leaves the other entries alone. -/
theorem tempMapping_keeps (m : Memory) (pfn : Int) :
    TempFree hw (removeTempMapping hw (setupTempMapping hw m pfn)) ∧
      SameOthers hw m (removeTempMapping hw (setupTempMapping hw m pfn)) := by
  refine ⟨by simp [TempFree, removeTempMapping], fun i hi => ?_⟩
  simp [removeTempMapping, setupTempMapping, hi]

theorem SameOthers.trans {m₁ : Memory} (h : SameOthers hw m m₁) (h' : SameOthers hw m₁ m') :
    SameOthers hw m m' := fun i hi => (h' i hi).trans (h i hi)

theorem allocateFrame_region0 (m : Memory) :
    (allocateFrame hw m).2.region0_pt = m.region0_pt := by
  generalize halloc : allocateFrame hw m = r
  obtain ⟨pfn, m₁⟩ := r
  rcases allocateFrame_cases halloc with ⟨f, -, -, -, rfl⟩ | ⟨-, -, rfl⟩ <;> rfl

/-- The page is free after every turn of a copying loop, and the other entries are as before. -/
theorem copyLoop_keeps {f : Memory × (Nat → Pte) → Nat → Memory × (Nat → Pte)}
    (hf : ∀ st i, TempFree hw st.1 → TempFree hw (f st i).1 ∧ SameOthers hw st.1 (f st i).1)
    (is : List Nat) (st : Memory × (Nat → Pte)) (h : TempFree hw st.1) :
    TempFree hw (is.foldl f st).1 ∧ SameOthers hw st.1 (is.foldl f st).1 := by
  induction is generalizing st with
  | nil => exact ⟨h, fun _ _ => rfl⟩
  | cons i is ih =>
    obtain ⟨hfree, hsame⟩ := hf st i h
    obtain ⟨hfree', hsame'⟩ := ih (f st i) hfree
    exact ⟨hfree', hsame.trans hsame'⟩

theorem copyPage_keeps {parent_pt : Nat → Pte} (st : Memory × (Nat → Pte)) (i : Nat)
    (h : TempFree hw st.1) : TempFree hw (copyPage hw parent_pt st i).1 ∧
      SameOthers hw st.1 (copyPage hw parent_pt st i).1 := by
  unfold copyPage
  split
  · obtain ⟨hfree, hsame⟩ := tempMapping_keeps (allocateFrame hw st.1).2 (allocateFrame hw st.1).1
    have halloc : SameOthers hw st.1 (allocateFrame hw st.1).2 := fun j _ => by
      rw [allocateFrame_region0]
    exact ⟨hfree, halloc.trans hsame⟩
  · exact ⟨h, fun _ _ => rfl⟩

theorem copyStackPage_keeps (st : Memory × (Nat → Pte)) (i : Nat) (_h : TempFree hw st.1) :
    TempFree hw (copyStackPage hw st i).1 ∧ SameOthers hw st.1 (copyStackPage hw st i).1 :=
  tempMapping_keeps st.1 _

theorem TempFree.setups (h : TempFree hw m) (e : Region0Event) :
    ∀ m₁ ∈ tempSetups hw m e, TempFree hw m₁ := by
  intro m₁ hm₁
  cases e with
  | copyPageTable parent_pt child_pt =>
    obtain ⟨i, -, rfl⟩ := List.mem_map.1 hm₁
    obtain ⟨hfree, -⟩ := copyLoop_keeps copyPage_keeps (List.range i) (m, child_pt) h
    exact hfree.congr (by rw [allocateFrame_region0])
  | kcCopy kernel_stack =>
    obtain ⟨i, -, rfl⟩ := List.mem_map.1 hm₁
    exact (copyLoop_keeps copyStackPage_keeps (List.range i) (m, kernel_stack) h).1
  | _ => simp [tempSetups] at hm₁

/-! ## Runs -/

theorem TempFree.step {e : Region0Event} (h : TempFree hw m)
    (himage : b.kernel_brk_start ≤ hw.tempMappingPage)
    (hstep : (region0Machine hw b).step m e = some m') :
    TempFree hw m' ∧ (e.Copies → SameOthers hw m m') := by
  have htemp := hw.tempMappingPage_lt
  obtain rfl := Option.some.inj hstep
  cases e with
  | initRegion0PageTable =>
    have hsame : SamePages b.kernel_brk_start hw.KSTACK_START_PAGE m _ :=
      .initRegion0PageTable b.kernel_text_start b.kernel_data_start b.kernel_brk_start b.pmem_size m
    exact ⟨h.congr (hsame.entry _ himage htemp), False.elim⟩
  | setKernelBrk addr => exact ⟨h.setKernelBrk, False.elim⟩
  | enableVirtualMemory => exact ⟨h, False.elim⟩
  | copyPageTable parent_pt child_pt =>
    obtain ⟨hfree, hsame⟩ := copyLoop_keeps copyPage_keeps (List.range hw.MAX_PT_LEN) (m, child_pt) h
    exact ⟨hfree, fun _ => hsame⟩
  | kcCopy kernel_stack =>
    obtain ⟨hfree, hsame⟩ :=
      copyLoop_keeps copyStackPage_keeps (List.range hw.kernelStackPages) (m, kernel_stack) h
    exact ⟨hfree, fun _ => hsame⟩
  | mapKernelStack kernel_stack => exact ⟨h.congr (if_neg (by omega)), False.elim⟩
  | frames frame_bitMap => exact ⟨h, False.elim⟩

/-- The page for temporary mappings is free in every state, in particular whenever a frame is mapped
there and after each copying; and the copying leaves every other entry of region 0 as it was. -/
theorem temp_mapping_private (himage : b.kernel_brk_start ≤ hw.tempMappingPage)
    (hrun : Run (region0Machine hw b) (fun _ _ => True) BootState.initial.mem t m) :
    TempFree hw m ∧ ∀ x ∈ t, (∀ m₁ ∈ tempSetups hw x.1 x.2, TempFree hw m₁) ∧
      ∀ m', (region0Machine hw b).step x.1 x.2 = some m' →
        TempFree hw m' ∧ (x.2.Copies → SameOthers hw x.1 m') := by
  refine hrun.traceInvariant (I := fun t m => TempFree hw m ∧ ∀ x ∈ t,
    (∀ m₁ ∈ tempSetups hw x.1 x.2, TempFree hw m₁) ∧
      ∀ m', (region0Machine hw b).step x.1 x.2 = some m' →
        TempFree hw m' ∧ (x.2.Copies → SameOthers hw x.1 m')) ⟨rfl, by simp⟩ ?_
  rintro t m e m' ⟨hfree, hsteps⟩ - - hstep
  refine ⟨(hfree.step himage hstep).1, fun x hx => ?_⟩
  rcases List.mem_append.1 hx with hx | hx
  · exact hsteps x hx
  · obtain rfl := List.mem_singleton.1 hx
    exact ⟨hfree.setups e, fun m₁ hstep₁ => hfree.step himage hstep₁⟩

/-- The heap grows up to the page, and a fork copies through it. -/
def region0Events : List Region0Event :=
  [.initRegion0PageTable, .setKernelBrk 64, .enableVirtualMemory, .setKernelBrk 80,
    .copyPageTable (fun i => ⟨i = 1, .readWrite, 1⟩) (fun _ => .zero),
    .kcCopy fun i => ⟨true, .readWrite, i + 20⟩]

def region0EventsMemory : Memory :=
  ((region0Machine .small Boot.small.image).exec BootState.initial.mem region0Events).get (by decide)

theorem temp_mapping_private_small : TempFree .small region0EventsMemory :=
  (temp_mapping_private (b := Boot.small.image) (by decide)
    (.ofExec (Option.some_get _).symm fun _ _ => ⟨trivial, trivial⟩)).1

end Yalnix
