import Yalnix.Proofs.Frames

/-!
# The kernel stack in region 0

The operations on frames and page tables that leave `REG_PTBR1` and the kernel stack pages of region 0
as they are: all of them, except `map_kernel_stack` and the writes of the register.
-/

namespace Yalnix

variable {hw : Hardware} {m m₁ m' : Memory} {pt pt' : Nat → Pte}

/-- `REG_PTBR1` and the kernel stack pages of region 0 are the same. -/
structure SameWindow (hw : Hardware) (m m' : Memory) : Prop where
  ptbr1 : m'.ptbr1 = m.ptbr1
  stack : ∀ vpn, hw.KSTACK_START_PAGE ≤ vpn → m'.region0_pt vpn = m.region0_pt vpn

namespace SameWindow

theorem of_eq (hptbr1 : m'.ptbr1 = m.ptbr1) (htable : m'.region0_pt = m.region0_pt) :
    SameWindow hw m m' :=
  ⟨hptbr1, fun _ _ => by rw [htable]⟩

theorem refl (m : Memory) : SameWindow hw m m := of_eq rfl rfl

theorem trans (h : SameWindow hw m m₁) (h' : SameWindow hw m₁ m') : SameWindow hw m m' :=
  ⟨h'.ptbr1.trans h.ptbr1, fun vpn hvpn => (h'.stack vpn hvpn).trans (h.stack vpn hvpn)⟩

/-- A loop over the state `S`, the memory in it. -/
theorem foldl {S ι : Type} (mem : S → Memory) {f : S → ι → S}
    (hf : ∀ st i, SameWindow hw (mem st) (mem (f st i))) (is : List ι) (st : S) :
    SameWindow hw (mem st) (mem (is.foldl f st)) := by
  induction is generalizing st with
  | nil => exact refl _
  | cons i is ih => exact (hf st i).trans (ih (f st i))

theorem allocateFrame {pfn : Int} (h : Yalnix.allocateFrame hw m = (pfn, m')) : SameWindow hw m m' := by
  rcases allocateFrame_cases h with ⟨i, -, -, -, rfl⟩ | ⟨-, -, rfl⟩
  · exact of_eq rfl rfl
  · exact of_eq rfl rfl

theorem freeFrame (m : Memory) (pfn : Int) : SameWindow hw m (Yalnix.freeFrame hw m pfn) := by
  rw [freeFrame_frame]
  exact of_eq rfl rfl

/-- The page for temporary mappings is under the kernel stack. -/
theorem tempMapping (m : Memory) (pfn : Int) :
    SameWindow hw m (removeTempMapping hw (setupTempMapping hw m pfn)) := by
  have hfits := hw.stack_fits
  refine ⟨rfl, fun vpn hvpn => ?_⟩
  have hne : vpn ≠ hw.tempMappingPage := by
    unfold Hardware.tempMappingPage Hardware.KSTACK_START_PAGE at *
    omega
  simp [removeTempMapping, setupTempMapping, hne]

/-! ## Forks -/

theorem copyPageTable {parent_pt child_pt : Nat → Pte}
    (h : Yalnix.copyPageTable hw m parent_pt child_pt = (m', pt)) : SameWindow hw m m' := by
  have hpage : ∀ (st : Memory × (Nat → Pte)) (i : Nat),
      SameWindow hw st.1 (copyPage hw parent_pt st i).1 := by
    intro st i
    unfold copyPage
    split
    · exact (allocateFrame rfl).trans (tempMapping _ _)
    · exact refl _
  have hall := foldl Prod.fst hpage (List.range hw.MAX_PT_LEN) (m, child_pt)
  unfold Yalnix.copyPageTable at h
  rwa [h] at hall

theorem copyKernelStack {kernel_stack : Nat → Pte}
    (h : Yalnix.copyKernelStack hw m kernel_stack = (m', pt)) : SameWindow hw m m' := by
  have hpage : ∀ (st : Memory × (Nat → Pte)) (i : Nat),
      SameWindow hw st.1 (copyStackPage hw st i).1 := fun st i => tempMapping _ _
  have hall := foldl Prod.fst hpage (List.range hw.kernelStackPages) (m, kernel_stack)
  unfold Yalnix.copyKernelStack at h
  rwa [h] at hall

theorem allocateStack {n vpn : Nat} (h : Yalnix.allocateStack hw m pt vpn n = some (m', pt')) :
    SameWindow hw m m' := by
  induction n generalizing m pt vpn with
  | zero =>
    obtain ⟨rfl, -⟩ := Prod.mk.inj (Option.some.inj h)
    exact refl _
  | succ n ih =>
    unfold Yalnix.allocateStack at h
    simp only at h
    split at h
    · cases h
    · refine trans ?_ (ih h)
      exact (allocateFrame rfl).trans (of_eq rfl rfl)

theorem identityStack {n j : Nat} (h : Yalnix.identityStack hw m pt j n = (m', pt')) :
    SameWindow hw m m' := by
  induction n generalizing m pt j with
  | zero =>
    obtain ⟨rfl, -⟩ := Prod.mk.inj h
    exact refl _
  | succ n ih => exact (of_eq rfl rfl : SameWindow hw m (mapPage m pt j _ _).1).trans (ih h)

theorem initializeKernelStack (h : Yalnix.initializeKernelStack hw m = some (m', pt)) :
    SameWindow hw m m' := by
  unfold Yalnix.initializeKernelStack at h
  split at h
  · exact allocateStack h
  · exact identityStack (Option.some.inj h)

/-! ## Programs, breaks and exits -/

theorem freeUserspace (m : Memory) (pt : Nat → Pte) : SameWindow hw m (Yalnix.freeUserspace hw m pt) := by
  refine foldl id (fun m i => ?_) (List.range hw.MAX_PT_LEN) m
  simp only [id]
  split
  · exact freeFrame m _
  · exact refl m

theorem freeProcessMemory (m : Memory) (proc : Pcb) :
    SameWindow hw m (Yalnix.freeProcessMemory hw m proc) :=
  (freeUserspace m proc.region1_pt).trans
    (foldl id (fun m _ => freeFrame m _) (List.range hw.kernelStackPages) _)

theorem mapPages {i : Int} {n : Nat} {ok : Bool}
    (h : Yalnix.mapPages hw m pt i n = some (ok, m', pt')) : SameWindow hw m m' := by
  induction n generalizing m pt i with
  | zero =>
    obtain ⟨-, rfl, -⟩ := (Option.some.inj h : _ = _)
    exact refl _
  | succ n ih =>
    unfold Yalnix.mapPages at h
    simp only at h
    split at h
    · obtain ⟨-, rfl, -⟩ := (Option.some.inj h : _ = _)
      exact allocateFrame rfl
    · split at h
      · exact (allocateFrame rfl).trans (ih h)
      · cases h

theorem loadProgram {proc proc' : Pcb} {req : LoadRequest} {rc : LoadResult}
    (h : Yalnix.loadProgram hw m proc req = some (rc, m', proc')) : SameWindow hw m m' := by
  rcases loadProgram_cases h with ⟨-, rfl, -⟩ | ⟨li, -, -, hcase⟩
  · exact refl _
  · have hfreed : SameWindow hw m (Yalnix.freeUserspace hw m proc.region1_pt) := freeUserspace m _
    cases hcase with
    | noText h₁ => exact hfreed.trans (mapPages h₁)
    | noData h₁ h₂ => exact hfreed.trans ((mapPages h₁).trans (mapPages h₂))
    | noStack h₁ h₂ h₃ => exact hfreed.trans ((mapPages h₁).trans ((mapPages h₂).trans (mapPages h₃)))
    | unread h₁ h₂ h₃ => exact hfreed.trans ((mapPages h₁).trans ((mapPages h₂).trans (mapPages h₃)))
    | built h₁ h₂ h₃ => exact hfreed.trans ((mapPages h₁).trans ((mapPages h₂).trans (mapPages h₃)))

theorem growUserHeap {i n : Nat} {ok : Bool}
    (h : Yalnix.growUserHeap hw m pt i n = some (ok, m', pt')) : SameWindow hw m m' := by
  induction n generalizing m pt i with
  | zero =>
    obtain ⟨-, rfl, -⟩ := (Option.some.inj h : _ = _)
    exact refl _
  | succ n ih =>
    unfold Yalnix.growUserHeap at h
    simp only at h
    split at h
    · cases h
    · split at h
      · exact ih h
      · split at h
        · obtain ⟨-, rfl, -⟩ := (Option.some.inj h : _ = _)
          exact allocateFrame rfl
        · exact (allocateFrame rfl).trans (ih h)

theorem shrinkUserHeap {nbrk n : Nat} (h : Yalnix.shrinkUserHeap hw nbrk m pt n = (m', pt')) :
    SameWindow hw m m' := by
  induction n generalizing m pt with
  | zero =>
    obtain ⟨rfl, -⟩ := Prod.mk.inj h
    exact refl _
  | succ n ih =>
    unfold Yalnix.shrinkUserHeap at h
    split at h
    · split at h
      · exact (freeFrame m _).trans (ih h)
      · exact ih h
    · obtain ⟨rfl, -⟩ := Prod.mk.inj h
      exact refl _

end SameWindow

end Yalnix
