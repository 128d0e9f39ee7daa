import Yalnix.Effects
import Yalnix.Proofs.Frames

/-!
# Handlers and the mappings of the kernel

No operation on frames and on tables of processes changes an entry of region 0, but for the page for
temporary mappings, which is invalid again afterwards.
-/

namespace Yalnix

variable {hw : Hardware} {m m₁ m' : Memory} {pt pt' : Nat → Pte}

namespace SameKernelMap

theorem of_eq (htable : m'.region0_pt = m.region0_pt) (hbrk : m'.kernel_brk = m.kernel_brk)
    (hvm : m'.vm_enabled = m.vm_enabled) (hptbr1 : m'.ptbr1 = m.ptbr1) : SameKernelMap hw m m' :=
  ⟨fun _ _ => by rw [htable], fun hvalid => by rwa [htable] at hvalid, hbrk, hvm, hptbr1⟩

theorem refl (m : Memory) : SameKernelMap hw m m := of_eq rfl rfl rfl rfl

theorem trans (h : SameKernelMap hw m m₁) (h' : SameKernelMap hw m₁ m') : SameKernelMap hw m m' where
  entry i hi := (h'.entry i hi).trans (h.entry i hi)
  temp hvalid := h.temp (h'.temp hvalid)
  kernel_brk := h'.kernel_brk.trans h.kernel_brk
  vm_enabled := h'.vm_enabled.trans h.vm_enabled
  ptbr1 := h'.ptbr1.trans h.ptbr1

/-- A loop over the state `S`, the memory in it. -/
theorem foldl {S ι : Type} (mem : S → Memory) {f : S → ι → S}
    (hf : ∀ st i, SameKernelMap hw (mem st) (mem (f st i))) (is : List ι) (st : S) :
    SameKernelMap hw (mem st) (mem (is.foldl f st)) := by
  induction is generalizing st with
  | nil => exact refl _
  | cons i is ih => exact (hf st i).trans (ih (f st i))

theorem allocateFrame {pfn : Int} (h : Yalnix.allocateFrame hw m = (pfn, m')) : SameKernelMap hw m m' := by
  rcases allocateFrame_cases h with ⟨i, -, -, -, rfl⟩ | ⟨-, -, rfl⟩
  · exact of_eq rfl rfl rfl rfl
  · exact of_eq rfl rfl rfl rfl

theorem freeFrame (m : Memory) (pfn : Int) : SameKernelMap hw m (Yalnix.freeFrame hw m pfn) := by
  rw [freeFrame_frame]
  exact of_eq rfl rfl rfl rfl

theorem tempMapping (m : Memory) (pfn : Int) :
    SameKernelMap hw m (removeTempMapping hw (setupTempMapping hw m pfn)) := by
  refine ⟨fun i hi => ?_, fun hvalid => ?_, rfl, rfl, rfl⟩
  · simp [removeTempMapping, setupTempMapping, hi]
  · simp [removeTempMapping] at hvalid

/-! ## Forks -/

theorem copyPageTable {parent_pt child_pt : Nat → Pte}
    (h : Yalnix.copyPageTable hw m parent_pt child_pt = (m', pt)) : SameKernelMap hw m m' := by
  have hpage : ∀ (st : Memory × (Nat → Pte)) (i : Nat),
      SameKernelMap hw st.1 (copyPage hw parent_pt st i).1 := by
    intro st i
    unfold copyPage
    split
    · exact (allocateFrame rfl).trans (tempMapping _ _)
    · exact refl _
  have hall := foldl Prod.fst hpage (List.range hw.MAX_PT_LEN) (m, child_pt)
  unfold Yalnix.copyPageTable at h
  rwa [h] at hall

theorem copyKernelStack {kernel_stack : Nat → Pte}
    (h : Yalnix.copyKernelStack hw m kernel_stack = (m', pt)) : SameKernelMap hw m m' := by
  have hpage : ∀ (st : Memory × (Nat → Pte)) (i : Nat),
      SameKernelMap hw st.1 (copyStackPage hw st i).1 := fun st i => tempMapping _ _
  have hall := foldl Prod.fst hpage (List.range hw.kernelStackPages) (m, kernel_stack)
  unfold Yalnix.copyKernelStack at h
  rwa [h] at hall

theorem allocateStack {n vpn : Nat} (h : Yalnix.allocateStack hw m pt vpn n = some (m', pt')) :
    SameKernelMap hw m m' := by
  induction n generalizing m pt vpn with
  | zero =>
    obtain ⟨rfl, -⟩ := Prod.mk.inj (Option.some.inj h)
    exact refl _
  | succ n ih =>
    unfold Yalnix.allocateStack at h
    simp only at h
    split at h
    · cases h
    · refine trans ?_ (ih h)
      exact (allocateFrame rfl).trans (of_eq rfl rfl rfl rfl)

theorem identityStack {n j : Nat} (h : Yalnix.identityStack hw m pt j n = (m', pt')) :
    SameKernelMap hw m m' := by
  induction n generalizing m pt j with
  | zero =>
    obtain ⟨rfl, -⟩ := Prod.mk.inj h
    exact refl _
  | succ n ih =>
    have hpage : SameKernelMap hw m (mapPage m pt j (hw.KSTACK_START_PAGE + j : Nat) .readWrite).1 :=
      of_eq rfl rfl rfl rfl
    exact hpage.trans (ih h)

theorem initializeKernelStack (h : Yalnix.initializeKernelStack hw m = some (m', pt)) :
    SameKernelMap hw m m' := by
  unfold Yalnix.initializeKernelStack at h
  split at h
  · exact allocateStack h
  · exact identityStack (Option.some.inj h)

/-! ## Programs, breaks and exits -/

theorem freeUserspace (m : Memory) (pt : Nat → Pte) :
    SameKernelMap hw m (Yalnix.freeUserspace hw m pt) := by
  rw [freeUserspace_frame]
  exact of_eq rfl rfl rfl rfl

theorem freeProcessMemory (m : Memory) (proc : Pcb) :
    SameKernelMap hw m (Yalnix.freeProcessMemory hw m proc) :=
  (freeUserspace m proc.region1_pt).trans
    (foldl id (fun m _ => freeFrame m _) (List.range hw.kernelStackPages) _)

theorem mapPages {i : Int} {n : Nat} {ok : Bool}
    (h : Yalnix.mapPages hw m pt i n = some (ok, m', pt')) : SameKernelMap hw m m' := by
  induction n generalizing m pt i with
  | zero =>
    obtain ⟨-, rfl, -⟩ := (Option.some.inj h : _ = _)
    exact refl _
  | succ n ih =>
    unfold Yalnix.mapPages at h
    simp only at h
    split at h
    · obtain ⟨-, rfl, -⟩ := (Option.some.inj h : _ = _)
      exact allocateFrame rfl
    · split at h
      · exact (allocateFrame rfl).trans (ih h)
      · cases h

theorem loadProgram {proc proc' : Pcb} {req : LoadRequest} {rc : LoadResult}
    (h : Yalnix.loadProgram hw m proc req = some (rc, m', proc')) : SameKernelMap hw m m' := by
  rcases loadProgram_cases h with ⟨-, rfl, -⟩ | ⟨li, -, -, hcase⟩
  · exact refl _
  · have hfreed : SameKernelMap hw m (Yalnix.freeUserspace hw m proc.region1_pt) := freeUserspace m _
    cases hcase with
    | noText h₁ => exact hfreed.trans (mapPages h₁)
    | noData h₁ h₂ => exact hfreed.trans ((mapPages h₁).trans (mapPages h₂))
    | noStack h₁ h₂ h₃ => exact hfreed.trans ((mapPages h₁).trans ((mapPages h₂).trans (mapPages h₃)))
    | unread h₁ h₂ h₃ => exact hfreed.trans ((mapPages h₁).trans ((mapPages h₂).trans (mapPages h₃)))
    | built h₁ h₂ h₃ => exact hfreed.trans ((mapPages h₁).trans ((mapPages h₂).trans (mapPages h₃)))

theorem growUserHeap {i n : Nat} {ok : Bool}
    (h : Yalnix.growUserHeap hw m pt i n = some (ok, m', pt')) : SameKernelMap hw m m' := by
  induction n generalizing m pt i with
  | zero =>
    obtain ⟨-, rfl, -⟩ := (Option.some.inj h : _ = _)
    exact refl _
  | succ n ih =>
    unfold Yalnix.growUserHeap at h
    simp only at h
    split at h
    · cases h
    · split at h
      · exact ih h
      · split at h
        · obtain ⟨-, rfl, -⟩ := (Option.some.inj h : _ = _)
          exact allocateFrame rfl
        · exact (allocateFrame rfl).trans (ih h)

theorem shrinkUserHeap {nbrk n : Nat} (h : Yalnix.shrinkUserHeap hw nbrk m pt n = (m', pt')) :
    SameKernelMap hw m m' := by
  induction n generalizing m pt with
  | zero =>
    obtain ⟨rfl, -⟩ := Prod.mk.inj h
    exact refl _
  | succ n ih =>
    unfold Yalnix.shrinkUserHeap at h
    split at h
    · split at h
      · exact (freeFrame m _).trans (ih h)
      · exact ih h
    · obtain ⟨rfl, -⟩ := Prod.mk.inj h
      exact refl _

end SameKernelMap

end Yalnix
