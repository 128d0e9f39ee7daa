import Yalnix.Proofs.LoadImage

/-!
# Where LoadProgram writes

The header says which entries of the table are written; of its page numbers only one sum is checked.
-/

namespace Yalnix

variable {hw : Hardware} {m m' : Memory} {proc proc' : Pcb} {req : LoadRequest} {li : LoadInfo}
  {pt pt' : Nat → Pte} {rc : LoadResult} {lo : Int} {n F : Nat}

/-! ## Lists of indices -/

theorem loopIndices_take : (loopIndices lo n).take F = loopIndices lo (min n F) := by
  unfold loopIndices
  rw [← List.map_take, List.take_range, Nat.min_comm]

theorem length_loopIndices : (loopIndices lo n).length = n := by
  simp [loopIndices]

theorem loopIndices_inside : (∀ j ∈ loopIndices lo n, 0 ≤ j ∧ j < hw.MAX_PT_LEN) ↔
    (0 < n → 0 ≤ lo ∧ lo + n ≤ hw.MAX_PT_LEN) := by
  unfold loopIndices
  constructor
  · intro h hn
    have hfirst := h (lo + (0 : Nat)) (List.mem_map_of_mem (List.mem_range.2 hn))
    have hlast := h (lo + (n - 1 : Nat)) (List.mem_map_of_mem (List.mem_range.2 (by omega)))
    omega
  · intro h j hj
    obtain ⟨d, hd, rfl⟩ := List.mem_map.1 hj
    rw [List.mem_range] at hd
    have := h (by omega)
    omega

/-- The indices that get a frame lie in the table exactly when the ends of the loops do. -/
theorem indices_inside : (∀ j ∈ (li.indices hw req).take F, 0 ≤ j ∧ j < hw.MAX_PT_LEN) ↔
    li.Fits hw req F := by
  unfold LoadInfo.indices
  rw [List.take_append, List.take_append, loopIndices_take, loopIndices_take, loopIndices_take,
    length_loopIndices, length_loopIndices]
  simp only [List.forall_mem_append]
  rw [loopIndices_inside, loopIndices_inside, loopIndices_inside]
  constructor
  · rintro ⟨htext, hdata, hstack⟩
    refine ⟨fun h => ?_, fun h => ?_, fun h => ?_⟩
    · have := htext h
      omega
    · have := hdata h
      omega
    · have := hstack h
      omega
  · rintro ⟨htext, hdata, hstack⟩
    refine ⟨fun h => ?_, fun h => ?_, fun h => ?_⟩
    · have := htext h
      omega
    · have := hdata h
      omega
    · have := hstack h
      omega

/-! ## The model and the list of its writes -/

theorem not_refused_iff (hli : req.li = some li) :
    ¬ req.Refused hw ↔ li.Checked hw req ∧ req.argbuf = true := by
  unfold LoadRequest.Refused LoadInfo.Checked
  rw [← Bool.not_eq_false]
  constructor
  · intro h
    refine ⟨⟨fun hentry => ?_, fun hsize => ?_⟩, fun hbuf => ?_⟩
    · refine h fun li' hli' => Or.inl ?_
      obtain rfl := Option.some.inj (hli.symm.trans hli')
      exact hentry
    · refine h fun li' hli' => Or.inr (Or.inl ?_)
      obtain rfl := Option.some.inj (hli.symm.trans hli')
      exact hsize
    · exact h fun _ _ => Or.inr (Or.inr hbuf)
  · rintro ⟨⟨hentry, hsize⟩, hbuf⟩ href
    rcases href li hli with h | h | h
    · exact hentry h
    · exact hsize h
    · exact hbuf h

/-- From the point of no return on, the saved stack pointer stays. -/
theorem buildImage_sp (h : buildImage hw m proc li req = some (rc, m', proc')) :
    proc'.user_context.sp = proc.user_context.sp := by
  cases buildImage_cases h with
  | noText => rfl
  | noData => rfl
  | noStack => rfl
  | unread => rfl
  | built => rfl

/-- A header is rejected before anything changes exactly when it fails one of the two tests. -/
theorem rejectsEarly_iff (hli : req.li = some li) : RejectsEarly hw m proc req ↔ ¬ li.Checked hw req := by
  constructor
  · intro hrej hchecked
    -- a stack pointer that is not the new one is lost
    have hsp := hrej { proc.user_context with sp := req.cp2 hw + 1 }
    by_cases hbuf : req.argbuf = true
    · rw [loadProgram_built hli ((not_refused_iff hli).2 ⟨hchecked, hbuf⟩)] at hsp
      have hkept := buildImage_sp hsp
      simp at hkept
    · have href : req.Refused hw := fun _ _ => Or.inr (Or.inr (by simpa using hbuf))
      rw [loadProgram_refused href] at hsp
      have hcontext : req.refusedContext hw { proc.user_context with sp := req.cp2 hw + 1 } =
          { proc.user_context with sp := req.cp2 hw } := by
        unfold LoadRequest.refusedContext
        rw [hli]
        simp only
        rw [if_neg hchecked.1, if_neg hchecked.2]
      rw [hcontext] at hsp
      have hpcb := congrArg (fun p : Pcb => p.user_context.sp) (Prod.mk.inj (Prod.mk.inj (Option.some.inj hsp)).2).2
      simp at hpcb
  · intro hnot u
    have href : req.Refused hw := by
      by_contra h
      exact hnot ((not_refused_iff hli).1 h).1
    rw [loadProgram_refused href]
    have hcontext : req.refusedContext hw u = u := by
      unfold LoadRequest.refusedContext
      rw [hli]
      simp only
      by_cases hentry : li.entry % 2 ^ 32 < hw.VMEM_1_BASE
      · rw [if_pos hentry]
      · have hsize : req.heapAndStack hw li ≥ hw.MAX_PT_LEN := by
          by_contra h
          exact hnot ⟨hentry, h⟩
        rw [if_neg hentry, if_pos hsize]
    rw [hcontext]

/-- Every header keeps `LoadProgram` inside the table, or is rejected, exactly when it fails one of the two
tests, or its pages do not overlap and lie in the table as far as the frames go. -/
theorem header_loads_inside (hli : req.li = some li) : LoadsInside hw m proc li req ↔
    ¬ li.Checked hw req ∨ li.Apart hw req ∧
      (req.argbuf = true → li.Fits hw req (freeFrames hw (freeUserspace hw m proc.region1_pt)).card) := by
  unfold LoadsInside
  rw [rejectsEarly_iff hli, or_comm]
  by_cases hchecked : li.Checked hw req
  · simp only [hchecked, not_true, false_or]
    rw [and_comm]
    refine and_congr_right fun _ => ?_
    unfold loadWrites
    by_cases hbuf : req.argbuf = true
    · rw [if_pos ⟨hchecked, hbuf⟩, indices_inside]
      exact ⟨fun h _ => h, fun h => h hbuf⟩
    · rw [if_neg fun h => hbuf h.2]
      simp [hbuf]
  · simp only [hchecked, not_false_iff, true_or]

/-- A program whose one page of text is the first page after region 1. -/
def beyondInfo : LoadInfo := ⟨128, 256, 1, 144, 1, 0⟩

theorem header_loads_inside_small : LoadsInside .small execKernel.mem execCaller smallInfo .small := by
  have hapart : smallInfo.Apart .small .small := by
    apply small_apart <;> decide +kernel
  have hfits : smallInfo.Fits .small .small
      (freeFrames .small (freeUserspace .small execKernel.mem execCaller.region1_pt)).card :=
    ⟨by decide +kernel, by decide +kernel, by decide +kernel⟩
  exact (header_loads_inside rfl).2 (Or.inr ⟨hapart, fun _ => hfits⟩)

/-- The text of that program is written to the entry after the last. -/
theorem header_loads_inside_fails : ¬ LoadsInside .small execKernel.mem execCaller beyondInfo
    { LoadRequest.small with li := some beyondInfo } := by
  rintro (⟨hinside, -⟩ | hrej)
  · have hout : (8 : Int) ∈ loadWrites .small execKernel.mem execCaller beyondInfo
        { LoadRequest.small with li := some beyondInfo } := by decide +kernel
    exact absurd (hinside 8 hout) (by decide)
  · have hchecked : beyondInfo.Checked .small { LoadRequest.small with li := some beyondInfo } := by
      decide +kernel
    exact (rejectsEarly_iff rfl).1 hrej hchecked

end Yalnix
