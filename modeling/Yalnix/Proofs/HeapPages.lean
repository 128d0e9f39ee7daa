import Yalnix.HeapPages
import Yalnix.Proofs.Frames

/-!
# The loops of SetKernelBrk

The growing loop puts free frames under the pages, one after the other, as far as there are any. The shrinking
loop takes the frames of its pages away.
-/

namespace Yalnix

open Transition

variable {hw : Hardware} {b : Boot hw} {m m' : Memory} {addr : Int}

/-! ## Growing -/

/-- The frames `fs` are under the pages from `i` on. -/
structure Grown (hw : Hardware) (m m' : Memory) (i : Nat) (fs : List Nat) : Prop where
  takes : Takes hw m m' fs
  entry : ∀ j (hj : j < fs.length), m'.region0_pt (i + j) = ⟨true, .readWrite, fs[j]⟩
  other : ∀ j, j < i ∨ i + fs.length ≤ j → m'.region0_pt j = m.region0_pt j
  brk : m'.kernel_brk = m.kernel_brk
  vm : m'.vm_enabled = m.vm_enabled

theorem Grown.none (hbits : m'.frame_bitMap = m.frame_bitMap) (hpt : m'.region0_pt = m.region0_pt)
    (hbrk : m'.kernel_brk = m.kernel_brk) (hvm : m'.vm_enabled = m.vm_enabled) (i : Nat) :
    Grown hw m m' i [] where
  takes := ⟨List.nodup_nil, by simp, by simp [hbits]⟩
  entry j hj := by simp at hj
  other j _ := by rw [hpt]
  brk := hbrk
  vm := hvm

/-- One turn of the loop, and the rest of it. -/
theorem Grown.cons {i f : Nat} {fs : List Nat} (hf : f < hw.NUM_VPN) (hfree : m.frame_bitMap f = false)
    (h : Grown hw { m with
      frame_bitMap := Function.update m.frame_bitMap f true
      region0_pt := Function.update m.region0_pt i ⟨true, .readWrite, f⟩ } m' (i + 1) fs) :
    Grown hw m m' i (f :: fs) where
  takes := by
    have hone : Takes hw m { m with
        frame_bitMap := Function.update m.frame_bitMap f true
        region0_pt := Function.update m.region0_pt i ⟨true, .readWrite, f⟩ } [f] :=
      ⟨(takes_one hf hfree).nodup, (takes_one hf hfree).free, (takes_one hf hfree).bits⟩
    exact hone.trans h.takes
  entry j hj := by
    cases j with
    | zero =>
      have hfirst := h.other i (Or.inl (Nat.lt_succ_self i))
      rw [Nat.add_zero, hfirst]
      simp
    | succ j =>
      have hrest := h.entry j (by simpa using hj)
      rw [show i + (j + 1) = i + 1 + j by omega, hrest]
      simp
  other j hj := by
    rw [List.length_cons] at hj
    have hne : j ≠ i := by omega
    rw [h.other j (by omega)]
    simp [hne]
  brk := h.brk
  vm := h.vm

/-- The loop gets as many frames as there are, and fails if it needs more. -/
theorem growKernelHeap_grown (hpfn : hw.NUM_VPN ≤ 2 ^ 24) {rc : Int} {i n : Nat}
    (hfit : i + n ≤ hw.KSTACK_START_PAGE) (h : growKernelHeap hw m i n = (rc, m')) :
    ∃ fs, Grown hw m m' i fs ∧ fs.length = min n (freeFrames hw m).card ∧
      rc = if (freeFrames hw m).card < n then ERROR else 0 := by
  induction n generalizing m i with
  | zero =>
    obtain ⟨rfl, rfl⟩ := Prod.mk.inj h
    exact ⟨[], .none rfl rfl rfl rfl i, by simp, by simp⟩
  | succ n ih =>
    unfold growKernelHeap at h
    rw [if_neg (by omega)] at h
    generalize halloc : allocateFrame hw m = r at h
    obtain ⟨pfn, m₁⟩ := r
    simp only at h
    rcases allocateFrame_cases halloc with ⟨f, rfl, hf, hfree, rfl⟩ | ⟨rfl, hfull, rfl⟩
    · rw [if_neg (by unfold ERROR; omega), Pte.pfnOfInt_natCast (by omega), Int.toNat_natCast] at h
      simp only [Function.update_idem] at h
      obtain ⟨fs, hgrown, hlen, hrc⟩ := ih (by omega) h
      have hcard := freeFrames_take hf hfree
      have hsame : freeFrames hw { m with
          frame_bitMap := Function.update m.frame_bitMap f true
          region0_pt := Function.update m.region0_pt i ⟨true, .readWrite, f⟩ } =
        freeFrames hw { m with frame_bitMap := Function.update m.frame_bitMap f true } := rfl
      rw [hsame] at hlen hrc
      refine ⟨f :: fs, hgrown.cons hf hfree, ?_, ?_⟩
      · rw [List.length_cons]
        omega
      · rw [hrc]
        exact if_congr (by omega) rfl rfl
    · rw [if_pos rfl] at h
      obtain ⟨rfl, rfl⟩ := Prod.mk.inj h
      have hnone : (freeFrames hw m).card = 0 := by
        rw [freeFrames_full hfull, Finset.card_empty]
      have hgrown : Grown hw m { m with exhausted := true } i [] := by
        refine .none ?_ ?_ ?_ ?_ i <;> rfl
      exact ⟨[], hgrown, by simp [hnone], by simp [hnone]⟩

/-! ## Shrinking -/

/-- The pages from `i` on are no longer valid, and their frames are free. -/
structure Shrunk (m m' : Memory) (i n : Nat) : Prop where
  entry : ∀ j, i ≤ j → j < i + n → (m'.region0_pt j).valid = false
  other : ∀ j, j < i ∨ i + n ≤ j → m'.region0_pt j = m.region0_pt j
  bits : ∀ f, m'.frame_bitMap f = true ↔ m.frame_bitMap f = true ∧
    ∀ j, i ≤ j → j < i + n → (m.region0_pt j).valid = true → (m.region0_pt j).pfn ≠ f
  brk : m'.kernel_brk = m.kernel_brk
  vm : m'.vm_enabled = m.vm_enabled

/-- The loop clears the bit whether or not `free_frame` has done so. -/
theorem freeFrame_clear (hw : Hardware) (m : Memory) (f : Nat) :
    { freeFrame hw m f with frame_bitMap := Function.update (freeFrame hw m f).frame_bitMap f false } =
      { m with frame_bitMap := Function.update m.frame_bitMap f false } := by
  have hbits : Function.update (freeFrame hw m f).frame_bitMap f false =
      Function.update m.frame_bitMap f false := by
    funext j
    by_cases e : j = f
    · simp [e]
    · simp [e, freeFrame_bitMap_ne e]
  rw [hbits, freeFrame_frame]

theorem forall_range_succ {p : Nat → Prop} {i n : Nat} : (∀ j, i ≤ j → j < i + (n + 1) → p j) ↔
    p i ∧ ∀ j, i + 1 ≤ j → j < i + 1 + n → p j := by
  constructor
  · intro h
    exact ⟨h i le_rfl (by omega), fun j hj hj' => h j (by omega) (by omega)⟩
  · rintro ⟨hfirst, hrest⟩ j hj hj'
    by_cases e : j = i
    · rwa [e]
    · exact hrest j (by omega) (by omega)

/-- One turn of the loop, and the rest of it. -/
theorem Shrunk.cons {i n : Nat} (hvalid : (m.region0_pt i).valid = true)
    (h : Shrunk { m with
      frame_bitMap := Function.update m.frame_bitMap (m.region0_pt i).pfn false
      region0_pt := Function.update m.region0_pt i .zero } m' (i + 1) n) : Shrunk m m' i (n + 1) where
  entry := by
    refine forall_range_succ.2 ⟨?_, h.entry⟩
    rw [h.other i (Or.inl (Nat.lt_succ_self i))]
    simp [Pte.zero]
  other j hj := by
    have hne : j ≠ i := by omega
    rw [h.other j (by omega)]
    simp [hne]
  bits f := by
    have hrest : (∀ j, i + 1 ≤ j → j < i + 1 + n →
        (Function.update m.region0_pt i .zero j).valid = true →
          (Function.update m.region0_pt i .zero j).pfn ≠ f) ↔
        ∀ j, i + 1 ≤ j → j < i + 1 + n → (m.region0_pt j).valid = true → (m.region0_pt j).pfn ≠ f := by
      refine forall₃_congr fun j hj _ => ?_
      have hne : j ≠ i := by omega
      simp [hne]
    rw [h.bits f, forall_range_succ, hrest]
    by_cases e : f = (m.region0_pt i).pfn
    · simp [e, hvalid]
    · have hne : (m.region0_pt i).pfn ≠ f := fun h => e h.symm
      simp [e, hne]
  brk := h.brk
  vm := h.vm

/-- A page that is not valid is left alone. -/
theorem Shrunk.skip {i n : Nat} (hvalid : (m.region0_pt i).valid = false) (h : Shrunk m m' (i + 1) n) :
    Shrunk m m' i (n + 1) where
  entry := by
    refine forall_range_succ.2 ⟨?_, h.entry⟩
    rw [h.other i (Or.inl (Nat.lt_succ_self i)), hvalid]
  other j hj := h.other j (by omega)
  bits f := by
    rw [h.bits f, forall_range_succ]
    simp [hvalid]
  brk := h.brk
  vm := h.vm

theorem shrinkKernelHeap_shrunk (hw : Hardware) (m : Memory) (i n : Nat) :
    Shrunk m (shrinkKernelHeap hw m i n) i n := by
  induction n generalizing m i with
  | zero =>
    exact ⟨fun j hj hj' => by omega, fun _ _ => rfl,
      fun f => ⟨fun h => ⟨h, fun j hj hj' => absurd hj' (by omega)⟩, fun h => h.1⟩, rfl, rfl⟩
  | succ n ih =>
    unfold shrinkKernelHeap
    split
    · rename_i hvalid
      show Shrunk m (shrinkKernelHeap hw
        (let m₁ : Memory := { freeFrame hw m (m.region0_pt i).pfn with
          frame_bitMap := Function.update (freeFrame hw m (m.region0_pt i).pfn).frame_bitMap
            (m.region0_pt i).pfn false }
        { m₁ with region0_pt := Function.update m₁.region0_pt i .zero }) (i + 1) n) i (n + 1)
      rw [freeFrame_clear]
      exact .cons hvalid (ih _ (i + 1))
    · rename_i hvalid
      exact (ih m (i + 1)).skip (by simpa using hvalid)

/-! ## SetKernelBrk -/

/-- What a call does once virtual memory is enabled. -/
inductive BrkCase (b : Boot hw) (m : Memory) (addr : Int) : Int → Memory → Prop
  | refused (hout : ¬ BrkInRange b addr) : BrkCase b m addr ERROR m
  | shrinks {m' : Memory} (hfits : BrkFits b m addr) (hless : hw.brkPage addr < hw.brkPage m.kernel_brk)
      (hshrunk : Shrunk m m' (hw.brkPage addr) (hw.brkPage m.kernel_brk - hw.brkPage addr)) :
      BrkCase b m addr 0 { m' with kernel_brk := addr }
  | grows {m' : Memory} {fs : List Nat} (hfits : BrkFits b m addr)
      (hle : hw.brkPage m.kernel_brk ≤ hw.brkPage addr) (hgrown : Grown hw m m' (hw.brkPage m.kernel_brk) fs)
      (hlen : fs.length = hw.brkPage addr - hw.brkPage m.kernel_brk) :
      BrkCase b m addr 0 { m' with kernel_brk := addr }
  | short {m' : Memory} {fs : List Nat} (hrange : BrkInRange b addr)
      (hless : (freeFrames hw m).card < hw.brkPage addr - hw.brkPage m.kernel_brk)
      (hgrown : Grown hw m m' (hw.brkPage m.kernel_brk) fs) (hlen : fs.length = (freeFrames hw m).card) :
      BrkCase b m addr ERROR m'

theorem setKernelBrk_cases (b : Boot hw) (hvm : m.vm_enabled = true) (addr : Int) :
    ∃ rc m', setKernelBrk hw b.kernel_data_start m addr = (rc, m') ∧ BrkCase b m addr rc m' := by
  unfold setKernelBrk
  simp only [hvm, Bool.not_true, Bool.false_eq_true, if_false]
  split
  · rename_i hlow
    exact ⟨_, _, rfl, .refused fun h => absurd h.1 (not_le.2 hlow)⟩
  · rename_i hlow
    split
    · rename_i hhigh
      exact ⟨_, _, rfl, .refused fun h => absurd h.2 (not_lt.2 hhigh)⟩
    · rename_i hhigh
      have hrange : BrkInRange b addr := ⟨not_lt.1 hlow, not_le.1 hhigh⟩
      split
      · rename_i hless
        have hnone : hw.brkPage addr - hw.brkPage m.kernel_brk = 0 := Nat.sub_eq_zero_of_le hless.le
        exact ⟨_, _, rfl, .shrinks ⟨hrange, by rw [hnone]; exact Nat.zero_le _⟩ hless
          (shrinkKernelHeap_shrunk hw m _ _)⟩
      · rename_i hless
        have hle : hw.brkPage m.kernel_brk ≤ hw.brkPage addr := not_lt.1 hless
        generalize hgrow : growKernelHeap hw m _ _ = r
        obtain ⟨rc, m'⟩ := r
        have hfit : hw.brkPage m.kernel_brk + (hw.brkPage addr - hw.brkPage m.kernel_brk) ≤
            hw.KSTACK_START_PAGE := by
          have := hrange.2
          omega
        obtain ⟨fs, hgrown, hlen, rfl⟩ := growKernelHeap_grown b.pfn_fits hfit hgrow
        by_cases hfree : (freeFrames hw m).card < hw.brkPage addr - hw.brkPage m.kernel_brk
        · simp only [hfree, if_true]
          exact ⟨_, _, rfl, .short hrange hfree hgrown (by omega)⟩
        · have hok : ¬ (0 : Int) = ERROR := by decide
          simp only [hfree, if_false, hok]
          exact ⟨_, _, rfl, .grows ⟨hrange, by omega⟩ hle hgrown (by omega)⟩

theorem Grown.of_nil {i : Nat} (h : Grown hw m m' i []) :
    m'.region0_pt = m.region0_pt ∧ m'.frame_bitMap = m.frame_bitMap ∧ m'.kernel_brk = m.kernel_brk := by
  refine ⟨funext fun j => h.other j (by simp; omega), funext fun f => ?_, h.brk⟩
  have hbits := h.takes.bits f
  simp only [List.not_mem_nil, or_false] at hbits
  exact Bool.eq_iff_iff.2 hbits

/-- A call that fails after it has got a frame leaves the frame marked. -/
theorem failsCleanly_iff (hvm : m.vm_enabled = true) :
    FailsCleanly b m addr ↔ ¬ PartlyGrows b m addr := by
  obtain ⟨rc, m', hcall, hcase⟩ := setKernelBrk_cases b hvm addr
  unfold FailsCleanly
  rw [hcall]
  have hok : ¬ (0 : Int) = ERROR := by decide
  cases hcase with
  | refused hout => exact iff_of_true (fun _ => ⟨rfl, rfl, rfl⟩) fun h => hout h.1
  | shrinks hfits hless hshrunk =>
    exact iff_of_true (fun h => absurd h hok) fun h => absurd h.2.2 (not_lt.2 hfits.2)
  | grows hfits hle hgrown hlen =>
    exact iff_of_true (fun h => absurd h hok) fun h => absurd h.2.2 (not_lt.2 hfits.2)
  | @short _ fs hrange hless hgrown hlen =>
    cases fs with
    | nil =>
      obtain ⟨hpt, hbits, hbrk⟩ := hgrown.of_nil
      refine iff_of_true (fun _ => ⟨hpt, hbits, hbrk⟩) fun h => ?_
      exact absurd h.2.1 (by rw [← hlen]; simp)
    | cons f fs =>
      refine iff_of_false (fun h => ?_) fun h => h ⟨hrange, by rw [← hlen]; simp, hless⟩
      -- the first frame was free and is marked
      obtain ⟨-, hfree⟩ := mem_freeFrames.1 (hgrown.takes.free f (by simp))
      have hused := (hgrown.takes.bits f).2 (Or.inr (by simp))
      rw [(h rfl).2.1, hfree] at hused
      cases hused

end Yalnix
