import Yalnix.Proofs.HeapPages

/-!
# The kernel heap stays mapped

The page of a break that is not at the start of a page is where the heap is lost or left mapped: the loops stop
in front of it and begin with it.
-/

namespace Yalnix

open Transition

variable {hw : Hardware} {b : Boot hw} {m m₀ m' : Memory} {addr : Int} {i cur new : Nat}
  {t : List (Memory × BrkEvent)}

/-- A page begins under a break if it is under the page of the break, or is this page and the break is not at
its start. -/
theorem mul_PAGESIZE_lt_iff {brk : Int} (hbrk : 0 ≤ brk) : i * hw.PAGESIZE < brk ↔
    i < hw.brkPage brk ∨ i = hw.brkPage brk ∧ ¬ hw.PAGESIZE ∣ brk := by
  have hpos := hw.PAGESIZE_pos
  have hle : (i : Int) ≤ hw.page brk ↔ i * hw.PAGESIZE ≤ brk := Int.le_ediv_iff_mul_le hpos
  have hpage : (hw.brkPage brk : Int) = hw.page brk := Int.toNat_of_nonneg (hw.page_nonneg hbrk)
  -- the page that begins at the break
  have heq : (i : Int) * hw.PAGESIZE = brk ↔ i = hw.brkPage brk ∧ hw.PAGESIZE ∣ brk := by
    constructor
    · rintro rfl
      have hdiv : hw.page (i * hw.PAGESIZE) = i := Int.mul_ediv_cancel _ (ne_of_gt hpos)
      exact ⟨by omega, Int.dvd_mul_left _ _⟩
    · rintro ⟨hi, hdvd⟩
      have hi : (i : Int) = brk / hw.PAGESIZE := by
        rw [← show hw.page brk = brk / hw.PAGESIZE from rfl]
        omega
      rw [hi]
      exact Int.ediv_mul_cancel hdvd
  rw [lt_iff_le_and_ne, ← hle, Ne, heq]
  constructor
  · rintro ⟨h1, h2⟩
    by_cases e : i = hw.brkPage brk
    · exact Or.inr ⟨e, fun hdvd => h2 ⟨e, hdvd⟩⟩
    · exact Or.inl (by omega)
  · rintro (h | ⟨h1, h2⟩)
    · exact ⟨by omega, fun h' => by omega⟩
    · exact ⟨by omega, fun h' => h2 h'.2⟩

/-- The pages of the heap, by their numbers. -/
theorem onHeap_iff (hbrk : 0 ≤ m.kernel_brk) : OnHeap b m i ↔ b.kernel_brk_start ≤ i ∧
    (i < hw.brkPage m.kernel_brk ∨ i = hw.brkPage m.kernel_brk ∧ ¬ hw.PAGESIZE ∣ m.kernel_brk) :=
  and_congr_right fun _ => mul_PAGESIZE_lt_iff hbrk

/-- Nothing is mapped behind the page of the break. -/
theorem HeapMapped.unmapped_of_lt (h : HeapMapped b m) (hbrk : 0 ≤ m.kernel_brk)
    (hi : i < hw.tempMappingPage) (hlt : hw.brkPage m.kernel_brk < i) : (m.region0_pt i).valid = false := by
  refine h.unmapped i hi (not_lt.1 fun hon => ?_)
  rcases (mul_PAGESIZE_lt_iff hbrk).1 hon with h | ⟨h, -⟩ <;> omega

/-- Nothing changes but the break. -/
theorem HeapMapped.congr (h : HeapMapped b m) (hpt : m'.region0_pt = m.region0_pt)
    (hbits : m'.frame_bitMap = m.frame_bitMap) (hbrk : m'.kernel_brk = m.kernel_brk) : HeapMapped b m' := by
  have hon : ∀ j, OnHeap b m' j ↔ OnHeap b m j := fun j => by simp only [OnHeap, hbrk]
  constructor
  · intro i hi
    obtain ⟨hvalid, hprot, hused, hown⟩ := h.mapped i ((hon i).1 hi)
    exact ⟨by rw [hpt, hvalid], by rw [hpt, hprot], by rw [hpt, hbits, hused], fun j hj heq =>
      hown j ((hon j).1 hj) (by rw [← hpt, heq])⟩
  · rw [hpt, hbrk]
    exact h.unmapped

/-- The pages of the heap under a new break. -/
theorem onHeap_moved (haddr : 0 ≤ addr) : OnHeap b { m' with kernel_brk := addr } i ↔
    b.kernel_brk_start ≤ i ∧ (i < hw.brkPage addr ∨ i = hw.brkPage addr ∧ ¬ hw.PAGESIZE ∣ addr) :=
  onHeap_iff haddr

/-- The same for the pages behind it. -/
theorem moved_le (haddr : 0 ≤ addr) (hle : addr ≤ i * hw.PAGESIZE) :
    hw.brkPage addr < i ∨ i = hw.brkPage addr ∧ hw.PAGESIZE ∣ addr := by
  have hnot := mt (mul_PAGESIZE_lt_iff haddr).2 (not_lt.2 hle)
  by_cases hdvd : hw.PAGESIZE ∣ addr
  · by_cases e : i = hw.brkPage addr
    · exact Or.inr ⟨e, hdvd⟩
    · exact Or.inl (by omega)
  · exact Or.inl (by simp only [hdvd, not_false_eq_true, and_true] at hnot; omega)

/-- When the new break is not behind its own page, the page of the old break is behind the new one. -/
theorem le_mul_PAGESIZE (haddr : 0 ≤ addr) (hle : hw.brkPage addr ≤ i)
    (hin : ¬ (hw.brkPage addr = i ∧ ¬ hw.PAGESIZE ∣ addr)) : addr ≤ i * hw.PAGESIZE := by
  refine not_lt.1 fun hlt => ?_
  rcases (mul_PAGESIZE_lt_iff haddr).1 hlt with h | ⟨h, hdvd⟩
  · omega
  · exact hin ⟨h.symm, hdvd⟩

/-! ## Shrinking -/

section Shrinks

variable (haddr : 0 ≤ addr) (hless : hw.brkPage addr < hw.brkPage m.kernel_brk)
  (hshrunk : Shrunk m m' (hw.brkPage addr) (hw.brkPage m.kernel_brk - hw.brkPage addr))

include haddr hless hshrunk

theorem HeapMapped.shrinks (h : HeapMapped b m) (hbrk : 0 ≤ m.kernel_brk) (hwhole : WholePages b m addr) :
    HeapMapped b { m' with kernel_brk := addr } := by
  obtain ⟨hnew, hold⟩ := hwhole
  -- the heap that is left
  have hkept : ∀ j, OnHeap b { m' with kernel_brk := addr } j → j < hw.brkPage addr ∧ OnHeap b m j := by
    intro j hj
    obtain ⟨hstart, hlt⟩ := (onHeap_moved haddr).1 hj
    have hlt : j < hw.brkPage addr := by
      rcases hlt with hlt | ⟨rfl, hdvd⟩
      · exact hlt
      · rcases hnew with h | h | h
        · exact absurd h hdvd
        · omega
        · omega
    exact ⟨hlt, (onHeap_iff hbrk).2 ⟨hstart, Or.inl (by omega)⟩⟩
  constructor
  · intro i hi
    obtain ⟨hlt, hon⟩ := hkept i hi
    obtain ⟨hvalid, hprot, hused, hown⟩ := h.mapped i hon
    have hsame := hshrunk.other i (Or.inl hlt)
    refine ⟨by rw [← hvalid, ← hsame], by rw [← hprot, ← hsame], ?_, fun j hj heq => ?_⟩
    · show m'.frame_bitMap (m'.region0_pt i).pfn = true
      rw [hsame]
      refine (hshrunk.bits _).2 ⟨hused, fun j hj hj' _ heq => ?_⟩
      have hstart := hon.1
      have hj : j = i := hown j ((onHeap_iff hbrk).2 ⟨by omega, Or.inl (by omega)⟩) heq
      omega
    · obtain ⟨hlt', hon'⟩ := hkept j hj
      refine hown j hon' ?_
      rw [← hsame, ← hshrunk.other j (Or.inl hlt')]
      exact heq
  · intro i hi hle
    show (m'.region0_pt i).valid = false
    by_cases hin : i < hw.brkPage m.kernel_brk
    · refine hshrunk.entry i ?_ (by omega)
      rcases moved_le haddr hle with h | h <;> omega
    · rw [hshrunk.other i (Or.inr (by omega))]
      by_cases e : i = hw.brkPage m.kernel_brk
      · subst e
        rcases hold with h | h | h | h
        · omega
        · omega
        · exact h
        · omega
      · exact h.unmapped_of_lt hbrk hi (by omega)

theorem WholePages.of_shrinks (h' : HeapMapped b { m' with kernel_brk := addr }) : WholePages b m addr := by
  constructor
  · by_cases hdvd : hw.PAGESIZE ∣ addr
    · exact Or.inl hdvd
    · refine Or.inr (Or.inl (not_le.1 fun hstart => ?_))
      -- the page of the new break has been taken away
      have hvalid := (h'.mapped _ ((onHeap_moved haddr).2 ⟨hstart, Or.inr ⟨rfl, hdvd⟩⟩)).valid
      have hentry := hshrunk.entry (hw.brkPage addr) le_rfl (by omega)
      rw [show ({ m' with kernel_brk := addr } : Memory).region0_pt = m'.region0_pt from rfl, hentry] at hvalid
      cases hvalid
  · refine Or.inr (Or.inr ?_)
    by_cases htemp : hw.tempMappingPage ≤ hw.brkPage m.kernel_brk
    · exact Or.inr htemp
    · refine Or.inl ?_
      have hbehind : addr ≤ hw.brkPage m.kernel_brk * hw.PAGESIZE :=
        le_mul_PAGESIZE haddr hless.le fun hin => by omega
      rw [← hshrunk.other (hw.brkPage m.kernel_brk) (Or.inr (by omega))]
      exact h'.unmapped _ (not_le.1 htemp) hbehind

end Shrinks

/-! ## Growing -/

theorem Grown.entry_of_mem {i j : Nat} {fs : List Nat} (h : Grown hw m m' i fs) (hj : i ≤ j)
    (hj' : j < i + fs.length) :
    ∃ d, ∃ hd : d < fs.length, j = i + d ∧ m'.region0_pt j = ⟨true, .readWrite, fs[d]⟩ := by
  obtain ⟨d, rfl⟩ := Nat.exists_eq_add_of_le hj
  exact ⟨d, by omega, rfl, h.entry d (by omega)⟩

/-- A used frame is none of those that the loop has got. -/
theorem Grown.used_ne {i d f : Nat} {fs : List Nat} (h : Grown hw m m' i fs) (hd : d < fs.length)
    (hused : m.frame_bitMap f = true) : f ≠ fs[d] := by
  rintro rfl
  obtain ⟨-, hfree⟩ := mem_freeFrames.1 (h.takes.free fs[d] (List.getElem_mem hd))
  rw [hfree] at hused
  cases hused

section Grows

variable {fs : List Nat} (haddr : 0 ≤ addr) (hle : hw.brkPage m.kernel_brk ≤ hw.brkPage addr)
  (hgrown : Grown hw m m' (hw.brkPage m.kernel_brk) fs)
  (hlen : fs.length = hw.brkPage addr - hw.brkPage m.kernel_brk) (h : HeapMapped b m)
  (hbrk : 0 ≤ m.kernel_brk)

include haddr hle hgrown hlen h hbrk

theorem HeapMapped.grows (hwhole : WholePages b m addr) : HeapMapped b { m' with kernel_brk := addr } := by
  obtain ⟨hnew, hold⟩ := hwhole
  -- a page of the heap is mapped now, or was a page of the heap
  have hpages : ∀ j, OnHeap b { m' with kernel_brk := addr } j →
      (hw.brkPage m.kernel_brk ≤ j ∧ j < hw.brkPage m.kernel_brk + fs.length) ∨
      (m'.region0_pt j = m.region0_pt j ∧ HeapEntry b m j ∧ (OnHeap b m j ∨ j = hw.brkPage addr)) := by
    intro j hj
    obtain ⟨hstart, hlt⟩ := (onHeap_moved haddr).1 hj
    rcases hlt with hlt | ⟨rfl, hdvd⟩
    · by_cases hin : hw.brkPage m.kernel_brk ≤ j
      · exact Or.inl ⟨hin, by omega⟩
      · have hon : OnHeap b m j := (onHeap_iff hbrk).2 ⟨hstart, Or.inl (by omega)⟩
        exact Or.inr ⟨hgrown.other j (Or.inl (by omega)), h.mapped j hon, Or.inl hon⟩
    · refine Or.inr ⟨hgrown.other _ (Or.inr (by omega)), ?_, Or.inr rfl⟩
      rcases hnew with h | h | h
      · exact absurd h hdvd
      · omega
      · exact h.2
  constructor
  · intro i hi
    rcases hpages i hi with ⟨hin, hin'⟩ | ⟨hsame, hentry, hon⟩
    · obtain ⟨d, hd, rfl, hpte⟩ := hgrown.entry_of_mem hin hin'
      have hvalid : (m'.region0_pt (hw.brkPage m.kernel_brk + d)).valid = true := by rw [hpte]
      have hprot : (m'.region0_pt (hw.brkPage m.kernel_brk + d)).prot = .readWrite := by rw [hpte]
      have hused : m'.frame_bitMap (m'.region0_pt (hw.brkPage m.kernel_brk + d)).pfn = true := by
        rw [hpte]
        exact (hgrown.takes.bits _).2 (Or.inr (List.getElem_mem hd))
      refine ⟨hvalid, hprot, hused, fun j hj heq => ?_⟩
      replace heq : (m'.region0_pt j).pfn = (m'.region0_pt (hw.brkPage m.kernel_brk + d)).pfn := heq
      rw [hpte] at heq
      rcases hpages j hj with ⟨hj, hj'⟩ | ⟨hsame, hentry, -⟩
      · obtain ⟨c, hc, rfl, hpte'⟩ := hgrown.entry_of_mem hj hj'
        rw [hpte'] at heq
        rw [(hgrown.takes.nodup.getElem_inj_iff).1 heq]
      · rw [hsame] at heq
        exact absurd heq (hgrown.used_ne hd hentry.used)
    · have hvalid : (m'.region0_pt i).valid = true := by rw [hsame, hentry.valid]
      have hprot : (m'.region0_pt i).prot = .readWrite := by rw [hsame, hentry.prot]
      have hused : m'.frame_bitMap (m'.region0_pt i).pfn = true := by
        rw [hsame]
        exact (hgrown.takes.bits _).2 (Or.inl hentry.used)
      refine ⟨hvalid, hprot, hused, fun j hj heq => ?_⟩
      replace heq : (m'.region0_pt j).pfn = (m'.region0_pt i).pfn := heq
      rw [hsame] at heq
      rcases hpages j hj with ⟨hj, hj'⟩ | ⟨hsame', hentry', hon'⟩
      · obtain ⟨c, hc, rfl, hpte'⟩ := hgrown.entry_of_mem hj hj'
        rw [hpte'] at heq
        exact absurd heq.symm (hgrown.used_ne hc hentry.used)
      · rw [hsame'] at heq
        rcases hon' with hon' | rfl
        · exact hentry.own j hon' heq
        · rcases hon with hon | rfl
          · exact (hentry'.own i hon heq.symm).symm
          · rfl
  · intro i hi hle'
    show (m'.region0_pt i).valid = false
    have hge : hw.brkPage addr ≤ i := by
      rcases moved_le haddr hle' with h | h <;> omega
    rw [hgrown.other i (Or.inr (by omega))]
    by_cases e : i = hw.brkPage m.kernel_brk
    · subst e
      rcases hold with h | h | h | h
      · omega
      · rcases moved_le haddr hle' with h' | h'
        · omega
        · exact absurd h'.2 h.2
      · exact h
      · omega
    · exact h.unmapped_of_lt hbrk hi (by omega)

/-- The other direction takes it that no frame of a valid page is free. -/
theorem WholePages.of_grows (hfits : hw.brkPage addr < hw.KSTACK_START_PAGE) (hown : OwnFrames hw m)
    (h' : HeapMapped b { m' with kernel_brk := addr }) : WholePages b m addr := by
  constructor
  · by_cases hdvd : hw.PAGESIZE ∣ addr
    · exact Or.inl hdvd
    · by_cases hstart : hw.brkPage addr < b.kernel_brk_start
      · exact Or.inr (Or.inl hstart)
      · -- the page of the new break was there before
        have hentry := h'.mapped _ ((onHeap_moved haddr).2 ⟨not_lt.1 hstart, Or.inr ⟨rfl, hdvd⟩⟩)
        have hsame := hgrown.other (hw.brkPage addr) (Or.inr (by omega))
        have hvalid : (m.region0_pt (hw.brkPage addr)).valid = true := hsame ▸ hentry.valid
        have hprot : (m.region0_pt (hw.brkPage addr)).prot = .readWrite := hsame ▸ hentry.prot
        have hmax : hw.KSTACK_START_PAGE ≤ hw.MAX_PT_LEN := Nat.sub_le _ _
        obtain ⟨hused, honly⟩ := hown _ (lt_of_lt_of_le hfits hmax) hvalid
        refine Or.inr (Or.inr ⟨hle, hvalid, hprot, hused, fun j hj heq => ?_⟩)
        have hj' : j < hw.MAX_PT_LEN := by
          rcases ((onHeap_iff hbrk).1 hj).2 with h | h <;> omega
        exact honly j hj' (h.mapped j hj).valid heq
  · by_cases hlt : hw.brkPage m.kernel_brk < hw.brkPage addr
    · exact Or.inl hlt
    · have heq : hw.brkPage addr = hw.brkPage m.kernel_brk := by omega
      by_cases hdvd : hw.PAGESIZE ∣ addr
      · refine Or.inr (Or.inr ?_)
        by_cases htemp : hw.tempMappingPage ≤ hw.brkPage m.kernel_brk
        · exact Or.inr htemp
        · have hbehind : addr ≤ hw.brkPage m.kernel_brk * hw.PAGESIZE :=
            le_mul_PAGESIZE haddr heq.le fun hin => hin.2 hdvd
          have hinvalid : (m'.region0_pt (hw.brkPage m.kernel_brk)).valid = false :=
            h'.unmapped _ (not_le.1 htemp) hbehind
          rw [hgrown.other _ (Or.inr (by omega))] at hinvalid
          exact Or.inl hinvalid
      · exact Or.inr (Or.inl ⟨heq, hdvd⟩)

end Grows

/-! ## Frames -/

theorem Shrunk.ownFrames {i n : Nat} (h : Shrunk m m' i n) (hfit : i + n ≤ hw.MAX_PT_LEN)
    (hown : OwnFrames hw m) : OwnFrames hw m' := by
  -- a page that is still valid is none of those of the loop
  have hold : ∀ j, (m'.region0_pt j).valid = true → m'.region0_pt j = m.region0_pt j ∧ (j < i ∨ i + n ≤ j) := by
    intro j hj
    have hout : j < i ∨ i + n ≤ j := by
      by_contra hin
      rw [h.entry j (by omega) (by omega)] at hj
      cases hj
    exact ⟨h.other j hout, hout⟩
  intro j hj hvalid
  obtain ⟨hsame, hout⟩ := hold j hvalid
  rw [hsame] at hvalid ⊢
  obtain ⟨hused, honly⟩ := hown j hj hvalid
  refine ⟨(h.bits _).2 ⟨hused, fun l hl hl' hlvalid heq => ?_⟩, fun l hl hlvalid heq => ?_⟩
  · have hlj := honly l (by omega) hlvalid heq
    omega
  · obtain ⟨hsame', -⟩ := hold l hlvalid
    rw [hsame'] at hlvalid heq
    exact honly l hl hlvalid heq

theorem Grown.ownFrames {i : Nat} {fs : List Nat} (h : Grown hw m m' i fs) (hown : OwnFrames hw m) :
    OwnFrames hw m' := by
  have hpages : ∀ j, (i ≤ j ∧ j < i + fs.length) ∨ m'.region0_pt j = m.region0_pt j := by
    intro j
    by_cases hin : i ≤ j ∧ j < i + fs.length
    · exact Or.inl hin
    · exact Or.inr (h.other j (by omega))
  intro j hj hvalid
  rcases hpages j with ⟨hin, hin'⟩ | hsame
  · obtain ⟨d, hd, rfl, hpte⟩ := h.entry_of_mem hin hin'
    rw [hpte]
    refine ⟨(h.takes.bits _).2 (Or.inr (List.getElem_mem hd)), fun l hl hlvalid heq => ?_⟩
    rcases hpages l with ⟨hl, hl'⟩ | hsame
    · obtain ⟨c, hc, rfl, hpte'⟩ := h.entry_of_mem hl hl'
      rw [hpte'] at heq
      rw [(h.takes.nodup.getElem_inj_iff).1 heq]
    · rw [hsame] at hlvalid heq
      exact absurd heq (h.used_ne hd (hown l hl hlvalid).1)
  · rw [hsame] at hvalid ⊢
    obtain ⟨hused, honly⟩ := hown j hj hvalid
    refine ⟨(h.takes.bits _).2 (Or.inl hused), fun l hl hlvalid heq => ?_⟩
    rcases hpages l with ⟨hl, hl'⟩ | hsame'
    · obtain ⟨c, hc, rfl, hpte'⟩ := h.entry_of_mem hl hl'
      rw [hpte'] at heq
      exact absurd heq.symm (h.used_ne hc hused)
    · rw [hsame'] at hlvalid heq
      exact honly l hl hlvalid heq

/-! ## Runs -/

theorem BrkInside.step (h : BrkInside hw m) (haddr : 0 ≤ addr) :
    BrkInside hw (setKernelBrk hw b.kernel_data_start m addr).2 := by
  obtain ⟨rc, m', hcall, hcase⟩ := setKernelBrk_cases b h.vm addr
  rw [hcall]
  cases hcase with
  | refused hout => exact h
  | shrinks hfits hless hshrunk => exact ⟨hshrunk.vm.trans h.vm, haddr, hfits.1.2⟩
  | grows hfits hle hgrown hlen => exact ⟨hgrown.vm.trans h.vm, haddr, hfits.1.2⟩
  | short hrange hless hgrown hlen =>
    exact ⟨hgrown.vm.trans h.vm, hgrown.brk ▸ h.nonneg, hgrown.brk ▸ h.below⟩

theorem OwnFrames.step (hown : OwnFrames hw m) (h : BrkInside hw m) (addr : Int) :
    OwnFrames hw (setKernelBrk hw b.kernel_data_start m addr).2 := by
  have hmax : hw.KSTACK_START_PAGE ≤ hw.MAX_PT_LEN := Nat.sub_le _ _
  have hbelow := h.below
  obtain ⟨rc, m', hcall, hcase⟩ := setKernelBrk_cases b h.vm addr
  rw [hcall]
  cases hcase with
  | refused hout => exact hown
  | shrinks hfits hless hshrunk => exact hshrunk.ownFrames (by omega) hown
  | grows hfits hle hgrown hlen => exact hgrown.ownFrames hown
  | short hrange hless hgrown hlen => exact hgrown.ownFrames hown

theorem HeapMapped.step (h : HeapMapped b m) (hin : BrkInside hw m) (haddr : 0 ≤ addr)
    (hkeeps : KeepsHeap b m (.setKernelBrk addr)) :
    HeapMapped b (setKernelBrk hw b.kernel_data_start m addr).2 := by
  obtain ⟨hpartly, hwhole⟩ := hkeeps
  have hclean := (failsCleanly_iff hin.vm).2 hpartly
  obtain ⟨rc, m', hcall, hcase⟩ := setKernelBrk_cases b hin.vm addr
  unfold FailsCleanly at hclean
  rw [hcall] at hclean ⊢
  cases hcase with
  | refused hout => exact h
  | shrinks hfits hless hshrunk => exact .shrinks haddr hless hshrunk h hin.nonneg (hwhole hfits)
  | grows hfits hle hgrown hlen => exact .grows haddr hle hgrown hlen h hin.nonneg (hwhole hfits)
  | short hrange hless hgrown hlen =>
    obtain ⟨hpt, hbits, hbrk⟩ := hclean rfl
    exact h.congr hpt hbits hbrk

/-- A call that succeeds keeps the heap only if it moves the break by whole pages. -/
theorem wholePages_of_success (h : HeapMapped b m) (hin : BrkInside hw m) (haddr : 0 ≤ addr)
    (hown : OwnFrames hw m) (hok : (setKernelBrk hw b.kernel_data_start m addr).1 = 0) :
    BrkFits b m addr ∧
      (HeapMapped b (setKernelBrk hw b.kernel_data_start m addr).2 ↔ WholePages b m addr) := by
  obtain ⟨rc, m', hcall, hcase⟩ := setKernelBrk_cases b hin.vm addr
  rw [hcall] at hok ⊢
  cases hcase with
  | refused hout => cases hok
  | shrinks hfits hless hshrunk =>
    exact ⟨hfits, .of_shrinks haddr hless hshrunk, .shrinks haddr hless hshrunk h hin.nonneg⟩
  | grows hfits hle hgrown hlen =>
    exact ⟨hfits, .of_grows haddr hle hgrown hlen h hin.nonneg hfits.1.2 hown,
      .grows haddr hle hgrown hlen h hin.nonneg⟩
  | short hrange hless hgrown hlen => cases hok

/-- In every run whose calls move the break by whole pages and do not run out of frames half way, the heap stays
mapped, and every valid page of region 0 keeps a frame of its own. A next call that succeeds keeps the heap only if
it moves the break by whole pages too. -/
theorem heap_kept (hin : BrkInside hw m₀) (hheap : HeapMapped b m₀)
    (hrun : Run (brkMachine b) (KeepsHeap b) m₀ t m) :
    HeapMapped b m ∧ (OwnFrames hw m₀ → OwnFrames hw m ∧ ∀ addr, 0 ≤ addr → addr < 2 ^ 32 →
      (setKernelBrk hw b.kernel_data_start m addr).1 = 0 →
        (HeapMapped b (setKernelBrk hw b.kernel_data_start m addr).2 ↔ WholePages b m addr)) := by
  obtain ⟨hin', hheap', hown'⟩ : BrkInside hw m ∧ HeapMapped b m ∧ (OwnFrames hw m₀ → OwnFrames hw m) := by
    refine hrun.invariant
      (I := fun m => BrkInside hw m ∧ HeapMapped b m ∧ (OwnFrames hw m₀ → OwnFrames hw m))
      ⟨hin, hheap, id⟩ ?_
    rintro m e m' ⟨hin, hheap, hown⟩ hen hkeeps hstep
    cases e with
    | setKernelBrk addr =>
      obtain rfl := Option.some.inj hstep
      have hen : 0 ≤ addr ∧ addr < 2 ^ 32 := hen
      exact ⟨hin.step hen.1, hheap.step hin hen.1 hkeeps, fun h => (hown h).step hin addr⟩
    | enableVirtualMemory =>
      obtain rfl := Option.some.inj hstep
      exact ⟨⟨rfl, hin.nonneg, hin.below⟩, hheap.congr rfl rfl rfl, hown⟩
  refine ⟨hheap', fun hown => ⟨hown' hown, fun addr haddr _ hok => ?_⟩⟩
  exact (wholePages_of_success hheap' hin' haddr (hown' hown) hok).2

/-- A call with the address of a page, on a break behind which no page is mapped. -/
def PageCall (b : Boot hw) (m : Memory) : BrkEvent → Prop
  | .setKernelBrk addr => ¬ PartlyGrows b m addr ∧ hw.PAGESIZE ∣ addr ∧
      (m.region0_pt (hw.brkPage m.kernel_brk)).valid = false
  | .enableVirtualMemory => True

instance (e : BrkEvent) : Decidable (PageCall b m e) :=
  match e with
  | .setKernelBrk _ => inferInstanceAs (Decidable (_ ∧ _ ∧ _))
  | .enableVirtualMemory => isTrue trivial

theorem PageCall.keepsHeap {e : BrkEvent} (h : PageCall b m e) : KeepsHeap b m e := by
  cases e with
  | setKernelBrk addr => exact ⟨h.1, fun _ => ⟨Or.inl h.2.1, Or.inr (Or.inr (Or.inl h.2.2))⟩⟩
  | enableVirtualMemory => trivial

/-- The small machine with virtual memory and a heap of no pages, which begins at page 4. -/
def heapStart : Memory := { Boot.small.region0 with kernel_brk := 64, vm_enabled := true }

theorem heapStart_mapped : HeapMapped Boot.small heapStart := by
  have hsize : Hardware.small.PAGESIZE = 16 := rfl
  constructor
  · rintro i ⟨hi, hlt⟩
    have hi : 4 ≤ i := hi
    have hlt : (i : Int) * Hardware.small.PAGESIZE < 64 := hlt
    rw [hsize] at hlt
    omega
  · intro i hi hle
    have hi : i < 5 := hi
    have hle : (64 : Int) ≤ i * Hardware.small.PAGESIZE := hle
    rw [hsize] at hle
    obtain rfl : i = 4 := by omega
    decide

/-- The heap grows by a page and shrinks again. -/
def heapCalls : List BrkEvent := [.setKernelBrk 80, .setKernelBrk 64, .setKernelBrk 992]

def heapEnd : Memory := ((brkMachine Boot.small).exec heapStart heapCalls).get (by decide)

theorem heap_kept_small : HeapMapped Boot.small heapEnd :=
  have hrun : Run (brkMachine Boot.small) (PageCall Boot.small) heapStart _ heapEnd :=
    Run.ofExec (Option.some_get _).symm (by decide +kernel)
  (heap_kept ⟨rfl, by decide, by decide⟩ heapStart_mapped (hrun.mono fun _ _ => PageCall.keepsHeap)).1

/-- A break in the middle of page 4 is recorded, and the page is not mapped. -/
theorem heap_kept_fails : HeapMapped Boot.small heapStart ∧
    ∃ t m, Run (brkMachine Boot.small) (fun _ _ => True) heapStart t m ∧
    (∀ x ∈ t, x.2 = .setKernelBrk 72 ∧ (setKernelBrk .small Boot.small.kernel_data_start x.1 72).1 = 0) ∧
    ¬ HeapMapped Boot.small m := by
  refine ⟨heapStart_mapped, _,
    ((brkMachine Boot.small).exec heapStart [.setKernelBrk 72]).get (by decide),
    Run.ofExec (Option.some_get _).symm (by decide +kernel), ?_, fun h => ?_⟩
  · intro x hx
    obtain rfl := List.mem_singleton.1 hx
    exact ⟨rfl, by decide +kernel⟩
  · exact absurd (h.mapped 4 ⟨by decide, by decide +kernel⟩).valid (by decide +kernel)

end Yalnix
