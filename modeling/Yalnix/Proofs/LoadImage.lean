import Yalnix.LoadImage
import Yalnix.Proofs.Exec

/-!
# The image that LoadProgram leaves

When nothing is left of the old table, the image is exact. `free_userspace` gives back the frames of the old
entries, but only the loops overwrite the entries themselves.
-/

namespace Yalnix

variable {hw : Hardware} {m m' m₁ m₂ m₃ : Memory} {proc proc' : Pcb} {req : LoadRequest} {li : LoadInfo}
  {old pt pt₁ pt₂ pt₃ : Nat → Pte} {i : Nat}

/-! ## The frames of the image -/

/-- The pages of the image, in the order in which they are mapped. -/
def imagePages (hw : Hardware) (li : LoadInfo) (req : LoadRequest) : List Nat :=
  (List.range (li.textTurns hw)).map (fun d : Nat => (li.text_pg1 hw + d).toNat) ++
    ((List.range (li.dataTurns hw)).map (fun d : Nat => (li.data_pg1 hw + d).toNat) ++
      (List.range (req.stack_npg hw).toNat).map fun d : Nat => (hw.MAX_PT_LEN - req.stack_npg hw + d).toNat)

theorem mem_pages {lo : Int} {n : Nat} (hlo : 0 < n → 0 ≤ lo) :
    i ∈ (List.range n).map (fun d : Nat => (lo + d).toNat) ↔ lo ≤ i ∧ (i : Int) < lo + n := by
  rw [List.mem_map]
  constructor
  · rintro ⟨d, hd, rfl⟩
    rw [List.mem_range] at hd
    have := hlo (by omega)
    omega
  · rintro ⟨h, h'⟩
    exact ⟨(i - lo).toNat, List.mem_range.2 (by omega), by omega⟩

theorem mem_imagePages (hin : li.InTable hw req) :
    i ∈ imagePages hw li req ↔ i < hw.MAX_PT_LEN ∧ li.ImagePage hw req i := by
  obtain ⟨htext, hdata, hstack⟩ := hin
  have hstack' : 0 < (req.stack_npg hw).toNat → 0 ≤ hw.MAX_PT_LEN - req.stack_npg hw := by
    intro h
    have := hstack (by omega)
    omega
  unfold imagePages LoadInfo.ImagePage LoadInfo.TextPage LoadInfo.DataPage
  rw [List.mem_append, List.mem_append, mem_pages fun h => (htext h).1, mem_pages fun h => (hdata h).1,
    mem_pages hstack']
  omega

/-- Loops over pages that do not overlap take a frame for each page of the image. -/
theorem image_takes (hpfn : hw.NUM_VPN ≤ 2 ^ 24) (hapart : li.Apart hw req)
    (h₁ : mapPages hw m old (li.text_pg1 hw) (li.textTurns hw) = some (true, m₁, pt₁))
    (h₂ : mapPages hw m₁ pt₁ (li.data_pg1 hw) (li.dataTurns hw) = some (true, m₂, pt₂))
    (h₃ : mapPages hw m₂ pt₂ (hw.MAX_PT_LEN - req.stack_npg hw) (req.stack_npg hw).toNat =
      some (true, m₃, pt₃)) :
    Takes hw m m₃ ((imagePages hw li req).map fun i => (pt₃ i).pfn) ∧ m₃.region0_pt = m.region0_pt := by
  obtain ⟨hin₁, -, -⟩ := mapPages_true h₁
  obtain ⟨hin₂, -, hpt₂⟩ := mapPages_true h₂
  obtain ⟨-, -, hpt₃⟩ := mapPages_true h₃
  obtain ⟨htakes₁, hregion₁⟩ := mapPages_takes hpfn h₁
  obtain ⟨htakes₂, hregion₂⟩ := mapPages_takes hpfn h₂
  obtain ⟨htakes₃, hregion₃⟩ := mapPages_takes hpfn h₃
  refine ⟨?_, hregion₃.trans (hregion₂.trans hregion₁)⟩
  -- the later loops leave the entries of the earlier ones alone
  have htext : ∀ d : Nat, d < li.textTurns hw →
      pt₃ (li.text_pg1 hw + d).toNat = pt₁ (li.text_pg1 hw + d).toNat := by
    intro d hd
    have hpos := hin₁ (by omega)
    have hdata := hapart.textData (li.text_pg1 hw + d)
    have hstack := hapart.textStack (li.text_pg1 hw + d)
    rw [(hpt₃ _).2 (by omega), (hpt₂ _).2 (by omega)]
  have hdata : ∀ d : Nat, d < li.dataTurns hw →
      pt₃ (li.data_pg1 hw + d).toNat = pt₂ (li.data_pg1 hw + d).toNat := by
    intro d hd
    have hpos := hin₂ (by omega)
    have hstack := hapart.dataStack (li.data_pg1 hw + d)
    rw [(hpt₃ _).2 (by omega)]
  have hall := htakes₁.trans (htakes₂.trans htakes₃)
  have hfirst : (List.range (li.textTurns hw)).map (fun d : Nat => (pt₃ (li.text_pg1 hw + d).toNat).pfn) =
      (List.range (li.textTurns hw)).map fun d : Nat => (pt₁ (li.text_pg1 hw + d).toNat).pfn := by
    refine List.map_congr_left ?_
    intro d hd
    exact congrArg Pte.pfn (htext d (List.mem_range.1 hd))
  have hsecond : (List.range (li.dataTurns hw)).map (fun d : Nat => (pt₃ (li.data_pg1 hw + d).toNat).pfn) =
      (List.range (li.dataTurns hw)).map fun d : Nat => (pt₂ (li.data_pg1 hw + d).toNat).pfn := by
    refine List.map_congr_left ?_
    intro d hd
    exact congrArg Pte.pfn (hdata d (List.mem_range.1 hd))
  rw [← hfirst, ← hsecond] at hall
  unfold imagePages
  rw [List.map_append, List.map_append, List.map_map, List.map_map, List.map_map]
  exact hall

theorem protectText_pfn {text_pg1 : Int} {n : Nat} : (protectText pt text_pg1 n i).pfn = (pt i).pfn := by
  unfold protectText
  split
  · rfl
  · rfl

/-- With the old table covered, and a page left free, the image is exact. -/
theorem exactImage_of_covered (hin : li.InTable hw req) (hapart : li.Apart hw req)
    (htable : BuiltTable hw req li old pt)
    (htakes : Takes hw (freeUserspace hw m old) m' ((imagePages hw li req).map fun i => (pt i).pfn))
    (hregion0 : m'.region0_pt = m.region0_pt) (hcovers : CoversOld hw li req old) :
    ExactImage hw li req m old m' pt := by
  have honly : ∀ i < hw.MAX_PT_LEN, (pt i).valid = true → li.ImagePage hw req i := by
    intro i hi hv
    by_contra hnot
    rw [htable.old i hi hnot] at hv
    exact hnot (hcovers.covers i hi hv)
  have hframe : ∀ i < hw.MAX_PT_LEN, (pt i).valid = true →
      (pt i).pfn ∈ (imagePages hw li req).map fun i => (pt i).pfn := by
    intro i hi hv
    exact List.mem_map_of_mem ((mem_imagePages hin).2 ⟨hi, honly i hi hv⟩)
  refine ⟨?_, ?_, ?_, honly, ?_, ?_, ?_, ?_, hregion0⟩
  · intro i hi htext
    exact ⟨htable.image i hi (Or.inl htext), htable.text i hi htext⟩
  · intro i hi hdata
    refine ⟨htable.image i hi (Or.inr (Or.inl hdata)), htable.data i hi (Or.inr (Or.inl hdata)) ?_⟩
    intro htext
    exact hapart.textData i ⟨htext, hdata⟩
  · intro i hi hstack
    refine ⟨htable.image i hi (Or.inr (Or.inr hstack)), htable.data i hi (Or.inr (Or.inr hstack)) ?_⟩
    intro htext
    exact hapart.textStack i ⟨htext, hstack, by omega⟩
  · intro i hi j hj hv hv' e
    exact List.inj_on_of_nodup_map htakes.nodup ((mem_imagePages hin).2 ⟨hi, honly i hi hv⟩)
      ((mem_imagePages hin).2 ⟨hj, honly j hj hv'⟩) e
  · intro i hi hv
    exact (htakes.bits _).2 (Or.inr (hframe i hi hv))
  · obtain ⟨i, hi, hdata, hstack, htext⟩ := hcovers.gap
    refine ⟨i, hi, hdata, hstack, ?_⟩
    by_contra hv
    rcases honly i hi (by simpa using hv) with h | h | h
    · exact htext h
    · unfold LoadInfo.DataPage at h
      omega
    · omega
  · intro i hi hv hlt hunused
    constructor
    · rw [← Bool.not_eq_true, htakes.bits, not_or]
      constructor
      · rw [freeUserspace_bits]
        intro hused
        exact hused.2 ⟨hlt, i, hi, hv, rfl⟩
      · intro hmem
        obtain ⟨j, hj, e⟩ := List.mem_map.1 hmem
        obtain ⟨hlt', himage⟩ := (mem_imagePages hin).1 hj
        exact hunused j hlt' himage e
    · intro j hj hv'
      exact hunused j hj (honly j hj hv')

/-- A successful `LoadProgram` leaves exactly the new image if and only if the image covers every page of the
old table, and leaves a page free between its data and its stack. -/
theorem exec_leaves_exact_image (hpfn : hw.NUM_VPN ≤ 2 ^ 24) (hli : req.li = some li)
    (hapart : li.Apart hw req) (h : loadProgram hw m proc req = some (.success, m', proc')) :
    ExactImage hw li req m proc.region1_pt m' proc'.region1_pt ↔ CoversOld hw li req proc.region1_pt := by
  obtain ⟨m₁, pt₁, m₂, pt₂, pt₃, h₁, h₂, h₃, rfl⟩ := loadProgram_success hli h
  have hin := inTable_ofLoops h₁ h₂ h₃
  have htable := BuiltTable.ofLoops h₁ h₂ h₃
  obtain ⟨htakes, hregion0⟩ := image_takes hpfn hapart h₁ h₂ h₃
  show ExactImage hw li req m proc.region1_pt m' (protectText pt₃ (li.text_pg1 hw) (li.textTurns hw)) ↔
    CoversOld hw li req proc.region1_pt
  constructor
  · intro hexact
    constructor
    · intro i hi hv
      by_contra hnot
      refine hnot (hexact.only i hi ?_)
      rw [htable.old i hi hnot]
      exact hv
    · obtain ⟨i, hi, hdata, hstack, hinvalid⟩ := hexact.gap
      refine ⟨i, hi, hdata, hstack, ?_⟩
      intro htext
      rw [(hexact.text i hi htext).1] at hinvalid
      cases hinvalid
  · intro hcovers
    refine exactImage_of_covered hin hapart htable ?_ (hregion0.trans freeUserspace_region0) hcovers
    simp only [protectText_pfn]
    exact htakes

/-- The caller of `SysExec` on the small machine. -/
def execCaller : Pcb := execKernel.pcb execKernel.current_process

/-- The header of the program that it runs. -/
def smallInfo : LoadInfo := ⟨128, 128, 1, 144, 1, 0⟩

/-- A program that leaves a page between its text and its data. -/
def spacedInfo : LoadInfo := ⟨128, 128, 1, 160, 1, 0⟩

theorem small_apart (htext : li.text_pg1 .small = 0) (hone : li.textTurns .small = 1)
    (hdata : 1 ≤ li.data_pg1 .small) (hend : li.data_pg1 .small + li.dataTurns .small ≤ 7)
    (hstack : req.stack_npg .small = 1) : li.Apart .small req := by
  have hlen : (Hardware.small.MAX_PT_LEN : Int) = 8 := by decide
  constructor
  · intro i hi
    omega
  · intro i hi
    omega
  · intro i hi
    omega

theorem exec_leaves_exact_image_small : ∃ m' proc',
    loadProgram .small execKernel.mem execCaller .small = some (.success, m', proc') ∧
      ExactImage .small smallInfo .small execKernel.mem execCaller.region1_pt m' proc'.region1_pt := by
  have hsuccess : (loadProgram .small execKernel.mem execCaller .small).map Prod.fst = some .success := by
    decide +kernel
  obtain ⟨⟨rc, m', proc'⟩, hload, rfl⟩ := Option.map_eq_some_iff.1 hsuccess
  have hapart : smallInfo.Apart .small .small := by
    apply small_apart <;> decide +kernel
  have hcovers : CoversOld .small smallInfo .small execCaller.region1_pt :=
    ⟨by decide +kernel, by decide +kernel⟩
  exact ⟨m', proc', hload, (exec_leaves_exact_image (by decide) rfl hapart hload).2 hcovers⟩

/-- The program with the page between is loaded over the other one, whose data stays in that page. -/
theorem exec_leaves_exact_image_fails :
    ¬ ∀ m' proc', loadProgram .small execKernel.mem execCaller { LoadRequest.small with li := some spacedInfo } =
        some (.success, m', proc') → spacedInfo.Apart .small { LoadRequest.small with li := some spacedInfo } →
      ExactImage .small spacedInfo { LoadRequest.small with li := some spacedInfo } execKernel.mem
        execCaller.region1_pt m' proc'.region1_pt := by
  intro hall
  have hstale : (loadProgram .small execKernel.mem execCaller
      { LoadRequest.small with li := some spacedInfo }).map
        (fun r => (r.1, (r.2.2.region1_pt 1).valid)) = some (.success, true) := by
    decide +kernel
  obtain ⟨⟨rc, m', proc'⟩, hload, heq⟩ := Option.map_eq_some_iff.1 hstale
  obtain ⟨rfl, hvalid⟩ := Prod.mk.inj heq
  have hapart : spacedInfo.Apart .small { LoadRequest.small with li := some spacedInfo } := by
    apply small_apart <;> decide +kernel
  have himage := (hall m' proc' hload hapart).only 1 (by decide) hvalid
  exact absurd himage (by decide +kernel)

end Yalnix
