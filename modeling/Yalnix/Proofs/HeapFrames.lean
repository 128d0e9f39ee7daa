import Yalnix.Proofs.HeapKept

/-!
# The frames of the kernel heap

The frames that the loops mark are under pages, and those whose pages they take away are free again. A page that is
mapped anew leaves its old frame marked.
-/

namespace Yalnix

open Transition

variable {hw : Hardware} {b : Boot hw} {m m₀ m' : Memory} {addr : Int} {i n f : Nat} {fs : List Nat}
  {others : Finset Nat} {t : List (Memory × BrkEvent)}

theorem mem_usedFrames : f ∈ usedFrames hw m ↔ f < hw.NUM_VPN ∧ m.frame_bitMap f = true := by
  simp [usedFrames]

theorem mem_mappedFrames : f ∈ mappedFrames hw m ↔
    ∃ i < hw.MAX_PT_LEN, (m.region0_pt i).valid = true ∧ (m.region0_pt i).pfn = f := by
  simp [mappedFrames, and_assoc]

namespace Accounted

theorem card (h : Accounted hw others m) :
    (usedFrames hw m).card = (mappedFrames hw m).card + others.card := by
  rw [h.used, Finset.card_union_of_disjoint h.disjoint]

theorem mapped_used (h : Accounted hw others m) (hf : f ∈ mappedFrames hw m) : f ∈ usedFrames hw m := by
  rw [h.used]
  exact Finset.mem_union_left _ hf

theorem others_used (h : Accounted hw others m) (hf : f ∈ others) : f ∈ usedFrames hw m := by
  rw [h.used]
  exact Finset.mem_union_right _ hf

theorem congr (h : Accounted hw others m) (hpt : m'.region0_pt = m.region0_pt)
    (hbits : m'.frame_bitMap = m.frame_bitMap) : Accounted hw others m' := by
  obtain ⟨hown, hused, hdisjoint⟩ := h
  unfold OwnFrames at hown
  unfold usedFrames mappedFrames at hused
  unfold mappedFrames at hdisjoint
  rw [← hpt, ← hbits] at hown hused
  rw [← hpt] at hdisjoint
  exact ⟨hown, hused, hdisjoint⟩

end Accounted

/-! ## Growing -/

/-- What the growing loop marks. -/
theorem Grown.usedFrames_eq (h : Grown hw m m' i fs) : usedFrames hw m' = usedFrames hw m ∪ fs.toFinset := by
  ext f
  rw [mem_usedFrames, h.takes.bits, Finset.mem_union, mem_usedFrames, List.mem_toFinset]
  constructor
  · rintro ⟨hf, hused | hmem⟩
    · exact Or.inl ⟨hf, hused⟩
    · exact Or.inr hmem
  · rintro (⟨hf, hused⟩ | hmem)
    · exact ⟨hf, Or.inl hused⟩
    · exact ⟨(mem_freeFrames.1 (h.takes.free f hmem)).1, Or.inr hmem⟩

/-- What it maps, when it maps over no page. -/
theorem Grown.mappedFrames_eq (h : Grown hw m m' i fs) (hfit : i + fs.length ≤ hw.MAX_PT_LEN)
    (hnew : ∀ j, i ≤ j → j < i + fs.length → (m.region0_pt j).valid = false) :
    mappedFrames hw m' = mappedFrames hw m ∪ fs.toFinset := by
  ext f
  rw [Finset.mem_union, mem_mappedFrames, mem_mappedFrames, List.mem_toFinset]
  constructor
  · rintro ⟨j, hj, hvalid, rfl⟩
    by_cases hin : i ≤ j ∧ j < i + fs.length
    · obtain ⟨d, hd, rfl, hpte⟩ := h.entry_of_mem hin.1 hin.2
      rw [hpte]
      exact Or.inr (List.getElem_mem hd)
    · have hsame := h.other j (by omega)
      rw [hsame] at hvalid ⊢
      exact Or.inl ⟨j, hj, hvalid, rfl⟩
  · rintro (⟨j, hj, hvalid, rfl⟩ | hmem)
    · have hout : ¬ (i ≤ j ∧ j < i + fs.length) := fun hin => by
        rw [hnew j hin.1 hin.2] at hvalid
        cases hvalid
      have hsame := h.other j (by omega)
      exact ⟨j, hj, by rw [hsame, hvalid], by rw [hsame]⟩
    · obtain ⟨d, hd, rfl⟩ := List.getElem_of_mem hmem
      have hpte := h.entry d hd
      exact ⟨i + d, by omega, by rw [hpte], by rw [hpte]⟩

/-- The frames that the loop gets are no frames of others. -/
theorem Grown.disjoint_others (h : Grown hw m m' i fs) (hacc : Accounted hw others m) :
    Disjoint fs.toFinset others := by
  refine Finset.disjoint_left.2 fun f hmem hother => ?_
  obtain ⟨-, hused⟩ := mem_usedFrames.1 (hacc.others_used hother)
  obtain ⟨-, hfree⟩ := mem_freeFrames.1 (h.takes.free f (List.mem_toFinset.1 hmem))
  rw [hfree] at hused
  cases hused

theorem Grown.accounted (h : Grown hw m m' i fs) (hacc : Accounted hw others m)
    (hfit : i + fs.length ≤ hw.MAX_PT_LEN)
    (hnew : ∀ j, i ≤ j → j < i + fs.length → (m.region0_pt j).valid = false) : Accounted hw others m' where
  own := h.ownFrames hacc.own
  used := by rw [h.usedFrames_eq, h.mappedFrames_eq hfit hnew, hacc.used, Finset.union_right_comm]
  disjoint := by
    rw [h.mappedFrames_eq hfit hnew]
    exact Finset.disjoint_union_left.2 ⟨hacc.disjoint, h.disjoint_others hacc⟩

/-- When the loop maps over a page, the frame of the page stays marked and is mapped nowhere. -/
theorem Grown.leaks (h : Grown hw m m' i fs) (hacc : Accounted hw others m) {j : Nat} (hij : i ≤ j)
    (hj : j < i + fs.length) (hmax : j < hw.MAX_PT_LEN) (hvalid : (m.region0_pt j).valid = true) :
    (mappedFrames hw m').card + others.card < (usedFrames hw m').card := by
  obtain ⟨hused, honly⟩ := hacc.own j hmax hvalid
  -- what is mapped afterwards was mapped before or is new
  have hmapped : ∀ f ∈ mappedFrames hw m', f ≠ (m.region0_pt j).pfn ∧ (f ∈ mappedFrames hw m ∨ f ∈ fs) := by
    intro f hf
    obtain ⟨l, hl, hlvalid, rfl⟩ := mem_mappedFrames.1 hf
    by_cases hin : i ≤ l ∧ l < i + fs.length
    · obtain ⟨d, hd, rfl, hpte⟩ := h.entry_of_mem hin.1 hin.2
      rw [hpte]
      exact ⟨(h.used_ne hd hused).symm, Or.inr (List.getElem_mem hd)⟩
    · have hsame := h.other l (by omega)
      rw [hsame] at hlvalid ⊢
      refine ⟨fun heq => hin ?_, Or.inl (mem_mappedFrames.2 ⟨l, hl, hlvalid, rfl⟩)⟩
      rw [honly l hl hlvalid heq]
      exact ⟨hij, hj⟩
  have hold : (m.region0_pt j).pfn ∈ mappedFrames hw m := mem_mappedFrames.2 ⟨j, hmax, hvalid, rfl⟩
  have hdisjoint : Disjoint (mappedFrames hw m') others := by
    refine Finset.disjoint_left.2 fun f hf hother => ?_
    rcases (hmapped f hf).2 with hbefore | hmem
    · exact Finset.disjoint_left.1 hacc.disjoint hbefore hother
    · exact Finset.disjoint_left.1 (h.disjoint_others hacc) (List.mem_toFinset.2 hmem) hother
  rw [← Finset.card_union_of_disjoint hdisjoint]
  refine Finset.card_lt_card (Finset.ssubset_iff_of_subset ?_ |>.2 ⟨(m.region0_pt j).pfn, ?_, ?_⟩)
  · intro f hf
    rw [h.usedFrames_eq, Finset.mem_union, List.mem_toFinset]
    rcases Finset.mem_union.1 hf with hf | hother
    · exact (hmapped f hf).2.imp_left hacc.mapped_used
    · exact Or.inl (hacc.others_used hother)
  · rw [h.usedFrames_eq]
    exact Finset.mem_union_left _ (hacc.mapped_used hold)
  · intro hmem
    rcases Finset.mem_union.1 hmem with hf | hother
    · exact (hmapped _ hf).1 rfl
    · exact Finset.disjoint_left.1 hacc.disjoint hold hother

/-! ## Shrinking -/

theorem Shrunk.accounted (h : Shrunk m m' i n) (hfit : i + n ≤ hw.MAX_PT_LEN)
    (hacc : Accounted hw others m) : Accounted hw others m' := by
  have hown := h.ownFrames hfit hacc.own
  -- a page is mapped still if it is none of those of the loop
  have hmapped : ∀ f, f ∈ mappedFrames hw m' ↔
      ∃ j < hw.MAX_PT_LEN, (j < i ∨ i + n ≤ j) ∧ (m.region0_pt j).valid = true ∧ (m.region0_pt j).pfn = f := by
    intro f
    rw [mem_mappedFrames]
    constructor
    · rintro ⟨j, hj, hvalid, rfl⟩
      have hout : j < i ∨ i + n ≤ j := by
        by_contra hin
        rw [h.entry j (by omega) (by omega)] at hvalid
        cases hvalid
      rw [h.other j hout] at hvalid ⊢
      exact ⟨j, hj, hout, hvalid, rfl⟩
    · rintro ⟨j, hj, hout, hvalid, rfl⟩
      exact ⟨j, hj, by rw [h.other j hout, hvalid], by rw [h.other j hout]⟩
  have hsub : mappedFrames hw m' ⊆ mappedFrames hw m := by
    intro f hf
    obtain ⟨j, hj, -, hvalid, rfl⟩ := (hmapped f).1 hf
    exact mem_mappedFrames.2 ⟨j, hj, hvalid, rfl⟩
  refine ⟨hown, ?_, Finset.disjoint_of_subset_left hsub hacc.disjoint⟩
  ext f
  rw [mem_usedFrames, h.bits, Finset.mem_union, hmapped]
  constructor
  · rintro ⟨hf, hused, hkept⟩
    have hbefore := mem_usedFrames.2 ⟨hf, hused⟩
    rw [hacc.used, Finset.mem_union] at hbefore
    rcases hbefore with hbefore | hother
    · obtain ⟨j, hj, hvalid, rfl⟩ := mem_mappedFrames.1 hbefore
      refine Or.inl ⟨j, hj, ?_, hvalid, rfl⟩
      by_contra hin
      exact hkept j (by omega) (by omega) hvalid rfl
    · exact Or.inr hother
  · rintro (⟨j, hj, hout, hvalid, rfl⟩ | hother)
    · obtain ⟨hf, hused⟩ := mem_usedFrames.1 (hacc.mapped_used (mem_mappedFrames.2 ⟨j, hj, hvalid, rfl⟩))
      refine ⟨hf, hused, fun l hl hl' hlvalid heq => ?_⟩
      have hlj := (hacc.own j hj hvalid).2 l (by omega) hlvalid heq
      omega
    · obtain ⟨hf, hused⟩ := mem_usedFrames.1 (hacc.others_used hother)
      refine ⟨hf, hused, fun l hl hl' hlvalid heq => ?_⟩
      subst heq
      exact Finset.disjoint_left.1 hacc.disjoint (mem_mappedFrames.2 ⟨l, by omega, hlvalid, rfl⟩) hother

/-! ## Runs -/

theorem Accounted.step (hacc : Accounted hw others m) (hin : BrkInside hw m)
    (hkeeps : KeepsFrames b m (.setKernelBrk addr)) :
    Accounted hw others (setKernelBrk hw b.kernel_data_start m addr).2 := by
  have hmax : hw.KSTACK_START_PAGE ≤ hw.MAX_PT_LEN := Nat.sub_le _ _
  have hbelow := hin.below
  obtain ⟨hpartly, hnew⟩ := hkeeps
  have hclean := (failsCleanly_iff hin.vm).2 hpartly
  obtain ⟨rc, m', hcall, hcase⟩ := setKernelBrk_cases b hin.vm addr
  unfold FailsCleanly at hclean
  rw [hcall] at hclean ⊢
  cases hcase with
  | refused hout => exact hacc
  | shrinks hfits hless hshrunk => exact (hshrunk.accounted (by omega) hacc).congr rfl rfl
  | grows hfits hle hgrown hlen =>
    have hhigh := hfits.1.2
    exact (hgrown.accounted hacc (by omega) fun j hj hj' => hnew hfits j (by omega) hj).congr rfl rfl
  | short hrange hless hgrown hlen =>
    obtain ⟨hpt, hbits, -⟩ := hclean rfl
    exact hacc.congr hpt hbits

/-- A call that succeeds keeps the account only if no page that it maps is mapped already. -/
theorem Accounted.card_iff (hacc : Accounted hw others m) (hin : BrkInside hw m) (hfits : BrkFits b m addr) :
    (usedFrames hw (setKernelBrk hw b.kernel_data_start m addr).2).card =
      (mappedFrames hw (setKernelBrk hw b.kernel_data_start m addr).2).card + others.card ↔
    MapsNew hw m addr := by
  have hmax : hw.KSTACK_START_PAGE ≤ hw.MAX_PT_LEN := Nat.sub_le _ _
  have hhigh := hfits.1.2
  constructor
  · obtain ⟨rc, m', hcall, hcase⟩ := setKernelBrk_cases b hin.vm addr
    rw [hcall]
    intro hcard j hj hj'
    cases hcase with
    | refused hout => exact absurd hfits.1 hout
    | shrinks _ hless hshrunk => omega
    | short _ hless _ _ => exact absurd hfits.2 (not_le.2 hless)
    | grows _ hle hgrown hlen =>
      by_contra hvalid
      have hleak := hgrown.leaks hacc hj' (by omega) (by omega) (by simpa using hvalid)
      exact absurd hcard (ne_of_gt hleak)
  · intro hnew
    exact (hacc.step hin ⟨fun h => absurd h.2.2 (not_lt.2 hfits.2), fun _ => hnew⟩).card

/-- A call that fails changes nothing just when it does not run out of frames half way. In every run whose calls do
not, and map no page anew, there are as many used frames as mapped ones; a next call that succeeds leaves it so
only if it maps no page anew either. -/
theorem failed_brk_leaks_nothing (b : Boot hw) :
    (∀ m addr, m.vm_enabled = true → (FailsCleanly b m addr ↔ ¬ PartlyGrows b m addr)) ∧
    ∀ others m₀ t m, BrkInside hw m₀ → Accounted hw others m₀ → Run (brkMachine b) (KeepsFrames b) m₀ t m →
      (usedFrames hw m).card = (mappedFrames hw m).card + others.card ∧
      ∀ addr, BrkFits b m addr →
        ((usedFrames hw (setKernelBrk hw b.kernel_data_start m addr).2).card =
          (mappedFrames hw (setKernelBrk hw b.kernel_data_start m addr).2).card + others.card ↔
        MapsNew hw m addr) := by
  refine ⟨fun m addr hvm => failsCleanly_iff hvm, fun others m₀ t m hin hacc hrun => ?_⟩
  obtain ⟨hin', hacc'⟩ : BrkInside hw m ∧ Accounted hw others m := by
    refine hrun.invariant (I := fun m => BrkInside hw m ∧ Accounted hw others m) ⟨hin, hacc⟩ ?_
    rintro m e m' ⟨hin, hacc⟩ hen hkeeps hstep
    cases e with
    | setKernelBrk addr =>
      obtain rfl := Option.some.inj hstep
      have hen : 0 ≤ addr ∧ addr < 2 ^ 32 := hen
      exact ⟨hin.step hen.1, hacc.step hin hkeeps⟩
    | enableVirtualMemory =>
      obtain rfl := Option.some.inj hstep
      exact ⟨⟨rfl, hin.nonneg, hin.below⟩, hacc.congr rfl rfl⟩
  exact ⟨hacc'.card, fun addr hfits => hacc'.card_iff hin' hfits⟩

/-! ## A machine with more pages -/

/-- The small machine with sixteen pages a region. -/
def Hardware.wide : Hardware := { Hardware.small with
  MAX_PT_LEN := 16
  stack_fits := by decide }

def Boot.wide : Boot .wide where
  kernel_text_start := 1
  kernel_data_start := 2
  kernel_brk_start := 4
  pmem_size := 640
  uctxt := Boot.small.uctxt
  doIdle := 16
  idle_pcb := 104
  init_pcb := 105
  initProgram := .small
  kernel_brk := 64
  init_ne_idle := by decide
  image_fits := by decide
  frames_fit := by decide
  frames_below := by decide
  pfn_fits := by decide

/-- Virtual memory is enabled, and the heap has no pages. -/
def wideStart : Memory := { Boot.wide.region0 with kernel_brk := 64, vm_enabled := true }

/-- The heap grows, shrinks and grows over the same pages. -/
def wideEnd : Memory := ((brkMachine Boot.wide).exec wideStart
  [.setKernelBrk 100, .setKernelBrk 80, .setKernelBrk 1000, .setKernelBrk 130]).get (by decide)

theorem failed_brk_leaks_nothing_small :
    (usedFrames .wide wideEnd).card = (mappedFrames .wide wideEnd).card + 1 :=
  ((failed_brk_leaks_nothing Boot.wide).2 {0} wideStart _ wideEnd ⟨rfl, by decide, by decide⟩
    ⟨by decide +kernel, by decide +kernel, by decide +kernel⟩
    (Run.ofExec (Option.some_get _).symm (by decide +kernel))).1

/-- The same with one frame left. -/
def wideFull : Memory := { wideStart with frame_bitMap := fun f => decide (f ≠ 20) }

/-- A call that needs two pages maps the first and fails. -/
theorem failed_brk_leaks_nothing_fails : wideFull.vm_enabled = true ∧ ¬ FailsCleanly Boot.wide wideFull 96 := by
  refine ⟨rfl, fun h => ?_⟩
  have hentry := congrFun (h (by decide +kernel)).1 4
  exact absurd (congrArg Pte.valid hentry) (by decide +kernel)

end Yalnix
