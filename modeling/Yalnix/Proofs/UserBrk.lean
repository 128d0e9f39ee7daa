import Yalnix.UserBrk
import Yalnix.Proofs.LoadImage

/-!
# SysBrk

The growing loop frees nothing when it fails, the shrinking loop never turns, and the check of the address
compares page numbers of two different bases.
-/

namespace Yalnix

variable {hw : Hardware} {k k' : Kernel} {m m' : Memory} {pt pt' : Nat → Pte} {lo n : Nat} {ok : Bool}

/-! ## The growing loop -/

theorem neededPages_zero : neededPages hw pt lo 0 = [] := rfl

theorem neededPages_of_valid (hi : lo < hw.MAX_PT_LEN) (hv : (pt lo).valid = true) :
    neededPages hw pt lo (n + 1) = neededPages hw pt (lo + 1) n := by
  unfold neededPages
  rw [List.range'_succ, List.filter_cons_of_neg (by simp [hi, hv])]

theorem neededPages_of_invalid (hv : (pt lo).valid = false) :
    neededPages hw pt lo (n + 1) = lo :: neededPages hw pt (lo + 1) n := by
  unfold neededPages
  rw [List.range'_succ, List.filter_cons_of_pos (by simp [hv])]

/-- An entry before the range does not matter. -/
theorem neededPages_update {i : Nat} {entry : Pte} (hi : i < lo) :
    neededPages hw (Function.update pt i entry) lo n = neededPages hw pt lo n := by
  unfold neededPages
  apply List.filter_congr
  intro j hj
  rw [List.mem_range'_1] at hj
  rw [Function.update_of_ne (by omega)]

/-- What one turn of the growing loop at page `lo` does, with `n` turns to go after it. -/
inductive GrowTurn (hw : Hardware) (m : Memory) (pt : Nat → Pte) (lo n : Nat) : Prop where
  | outside (hlo : hw.MAX_PT_LEN ≤ lo) (hgrow : growUserHeap hw m pt lo (n + 1) = none)
      (htouch : growTouches hw m pt lo (n + 1) = [lo])
  | skipped (hlo : lo < hw.MAX_PT_LEN) (hv : (pt lo).valid = true)
      (hgrow : growUserHeap hw m pt lo (n + 1) = growUserHeap hw m pt (lo + 1) n)
      (htouch : growTouches hw m pt lo (n + 1) = lo :: growTouches hw m pt (lo + 1) n)
  | mapped (m₁ : Memory) (entry : Pte) (hlo : lo < hw.MAX_PT_LEN) (hv : (pt lo).valid = false)
      (hcard : (freeFrames hw m₁).card + 1 = (freeFrames hw m).card)
      (hgrow : growUserHeap hw m pt lo (n + 1) =
        growUserHeap hw m₁ (Function.update pt lo entry) (lo + 1) n)
      (htouch : growTouches hw m pt lo (n + 1) =
        lo :: growTouches hw m₁ (Function.update pt lo entry) (lo + 1) n)
  | short (hlo : lo < hw.MAX_PT_LEN) (hv : (pt lo).valid = false) (hfull : freeFrames hw m = ∅)
      (hgrow : growUserHeap hw m pt lo (n + 1) = some (false, { m with exhausted := true }, pt))
      (htouch : growTouches hw m pt lo (n + 1) = [lo])

theorem growTurn (hw : Hardware) (m : Memory) (pt : Nat → Pte) (lo n : Nat) : GrowTurn hw m pt lo n := by
  by_cases hlo : hw.MAX_PT_LEN ≤ lo
  · refine .outside hlo ?_ ?_
    · rw [growUserHeap, if_pos hlo]
    · rw [growTouches, if_pos hlo]
  · by_cases hv : (pt lo).valid = true
    · refine .skipped (by omega) hv ?_ ?_
      · rw [growUserHeap, if_neg hlo, if_pos hv]
      · rw [growTouches, if_neg hlo, if_pos hv]
    · have hinvalid : (pt lo).valid = false := by simpa using hv
      generalize halloc : allocateFrame hw m = r
      obtain ⟨pfn, m₁⟩ := r
      rcases allocateFrame_cases halloc with ⟨f, rfl, hf, hfree, rfl⟩ | ⟨rfl, hfull, rfl⟩
      · have hne : ¬ (f : Int) = ERROR := by
          unfold ERROR
          omega
        refine .mapped _ ⟨true, .readWrite, Pte.pfnOfInt f⟩ (by omega) hinvalid (freeFrames_take hf hfree)
          ?_ ?_
        · rw [growUserHeap, if_neg hlo, if_neg hv, halloc]
          exact if_neg hne
        · rw [growTouches, if_neg hlo, if_neg hv, halloc]
          exact if_neg hne
      · refine .short (by omega) hinvalid (freeFrames_full hfull) ?_ ?_
        · rw [growUserHeap, if_neg hlo, if_neg hv, halloc]
          rfl
        · rw [growTouches, if_neg hlo, if_neg hv, halloc]
          rfl

/-- A loop that gets to its end has mapped what was needed. -/
theorem growUserHeap_true (h : growUserHeap hw m pt lo n = some (true, m', pt')) :
    (freeFrames hw m').card + (neededPages hw pt lo n).length = (freeFrames hw m).card ∧
    ∀ j, ¬ (lo ≤ j ∧ j < lo + n) → pt' j = pt j := by
  induction n generalizing m pt lo with
  | zero =>
    obtain ⟨-, h⟩ := Prod.mk.inj (Option.some.inj h)
    obtain ⟨rfl, rfl⟩ := Prod.mk.inj h
    exact ⟨rfl, fun j _ => rfl⟩
  | succ n ih =>
    cases growTurn hw m pt lo n with
    | outside _ hgrow _ =>
      rw [hgrow] at h
      cases h
    | skipped hlo hv hgrow _ =>
      rw [hgrow] at h
      obtain ⟨hcard, htable⟩ := ih h
      rw [neededPages_of_valid hlo hv]
      exact ⟨hcard, fun j hj => htable j (by omega)⟩
    | mapped m₁ entry _ hv htake hgrow _ =>
      rw [hgrow] at h
      obtain ⟨hcard, htable⟩ := ih h
      rw [neededPages_update (by omega)] at hcard
      rw [neededPages_of_invalid hv, List.length_cons]
      refine ⟨by omega, fun j hj => ?_⟩
      rw [htable j (by omega), Function.update_of_ne (by omega)]
    | short _ _ _ hgrow _ =>
      rw [hgrow] at h
      cases h

/-- In the table, and with enough frames, it gets to its end. -/
theorem growUserHeap_enough (hle : lo + n ≤ hw.MAX_PT_LEN)
    (hn : (neededPages hw pt lo n).length ≤ (freeFrames hw m).card) :
    ∃ m' pt', growUserHeap hw m pt lo n = some (true, m', pt') := by
  induction n generalizing m pt lo with
  | zero => exact ⟨m, pt, rfl⟩
  | succ n ih =>
    cases growTurn hw m pt lo n with
    | outside hlo _ _ => omega
    | skipped hlo hv hgrow _ =>
      rw [neededPages_of_valid hlo hv] at hn
      rw [hgrow]
      exact ih (by omega) hn
    | mapped m₁ entry _ hv htake hgrow _ =>
      rw [neededPages_of_invalid hv, List.length_cons] at hn
      rw [hgrow]
      apply ih (by omega)
      rw [neededPages_update (by omega)]
      omega
    | short _ hv hfull _ _ =>
      rw [neededPages_of_invalid hv, List.length_cons, hfull, Finset.card_empty] at hn
      omega

/-- A loop that fails leaves no frame, and has touched a page that it had to map. -/
theorem growUserHeap_false (h : growUserHeap hw m pt lo n = some (false, m', pt')) :
    freeFrames hw m' = ∅ ∧
      ∃ j ∈ growTouches hw m pt lo n, lo ≤ j ∧ j < lo + n ∧ j < hw.MAX_PT_LEN ∧ (pt j).valid = false := by
  induction n generalizing m pt lo with
  | zero => cases h
  | succ n ih =>
    cases growTurn hw m pt lo n with
    | outside _ hgrow _ =>
      rw [hgrow] at h
      cases h
    | skipped _ _ hgrow htouch =>
      rw [hgrow] at h
      obtain ⟨hfull, j, hj, hlo, hlt, hin, hv⟩ := ih h
      rw [htouch]
      exact ⟨hfull, j, List.mem_cons_of_mem lo hj, by omega, by omega, hin, hv⟩
    | mapped m₁ entry hlo hv _ hgrow htouch =>
      rw [hgrow] at h
      rw [htouch]
      exact ⟨(ih h).1, lo, List.mem_cons_self, by omega, by omega, hlo, hv⟩
    | short hlo hv hfull hgrow htouch =>
      rw [hgrow] at h
      obtain ⟨-, h⟩ := Prod.mk.inj (Option.some.inj h)
      obtain ⟨rfl, -⟩ := Prod.mk.inj h
      rw [htouch]
      exact ⟨hfull, lo, List.mem_cons_self, by omega, by omega, hlo, hv⟩

/-- When no frame is free the loop stops at the first page that it has to map. -/
theorem growUserHeap_full (hfull : freeFrames hw m = ∅) {j : Nat} (hlo : lo ≤ j) (hj : j < lo + n)
    (hin : j < hw.MAX_PT_LEN) (hv : (pt j).valid = false) :
    growUserHeap hw m pt lo n = some (false, { m with exhausted := true }, pt) ∧
      ∀ i ∈ growTouches hw m pt lo n, i ≤ j := by
  induction n generalizing lo with
  | zero => omega
  | succ n ih =>
    cases growTurn hw m pt lo n with
    | outside hlo' _ _ => omega
    | skipped _ hvalid hgrow htouch =>
      have hne : lo ≠ j := by
        rintro rfl
        rw [hv] at hvalid
        cases hvalid
      have hlo' : lo + 1 ≤ j := by omega
      obtain ⟨hrest, htouches⟩ := ih hlo' (by omega)
      rw [hgrow, htouch]
      refine ⟨hrest, fun i hi => ?_⟩
      rcases List.mem_cons.1 hi with rfl | hi
      · exact hlo
      · exact htouches i hi
    | mapped m₁ entry _ _ htake _ _ =>
      rw [hfull, Finset.card_empty] at htake
      omega
    | short _ _ _ hgrow htouch =>
      rw [hgrow, htouch]
      refine ⟨rfl, fun i hi => ?_⟩
      rw [List.mem_singleton.1 hi]
      exact hlo

theorem mem_growTouches {i : Nat} (h : i ∈ growTouches hw m pt lo n) : lo ≤ i ∧ i < lo + n := by
  induction n generalizing m pt lo with
  | zero => cases h
  | succ n ih =>
    have hcases : i = lo ∨ lo + 1 ≤ i ∧ i < lo + 1 + n := by
      cases growTurn hw m pt lo n with
      | outside _ _ htouch =>
        rw [htouch] at h
        exact Or.inl (List.mem_singleton.1 h)
      | skipped _ _ _ htouch =>
        rw [htouch] at h
        exact (List.mem_cons.1 h).imp_right fun h => ih h
      | mapped m₁ entry _ _ _ _ htouch =>
        rw [htouch] at h
        exact (List.mem_cons.1 h).imp_right fun h => ih h
      | short _ _ _ _ htouch =>
        rw [htouch] at h
        exact Or.inl (List.mem_singleton.1 h)
    omega

/-- The loop has no result only if it touches an entry outside the table. -/
theorem growUserHeap_none (h : growUserHeap hw m pt lo n = none) :
    ∃ i ∈ growTouches hw m pt lo n, hw.MAX_PT_LEN ≤ i := by
  induction n generalizing m pt lo with
  | zero => cases h
  | succ n ih =>
    cases growTurn hw m pt lo n with
    | outside hlo _ htouch =>
      rw [htouch]
      exact ⟨lo, List.mem_cons_self, hlo⟩
    | skipped _ _ hgrow htouch =>
      rw [hgrow] at h
      obtain ⟨i, hi, hout⟩ := ih h
      rw [htouch]
      exact ⟨i, List.mem_cons_of_mem lo hi, hout⟩
    | mapped m₁ entry _ _ _ hgrow htouch =>
      rw [hgrow] at h
      obtain ⟨i, hi, hout⟩ := ih h
      rw [htouch]
      exact ⟨i, List.mem_cons_of_mem lo hi, hout⟩
    | short _ _ _ hgrow _ =>
      rw [hgrow] at h
      cases h

/-! ## The call -/

/-- The current process with the table `pt`. -/
def grown (k : Kernel) (m : Memory) (pt : Nat → Pte) : Kernel :=
  { k with mem := m }.modifyPcb k.current_process fun pcb => { pcb with region1_pt := pt }

@[simp] theorem grown_table : (grown k m pt).table = pt := by
  simp [grown, Kernel.table, Kernel.modifyPcb]

theorem grown_same : grown k m k.table = { k with mem := m } := by
  unfold grown Kernel.modifyPcb Kernel.table
  rw [Function.update_eq_self]

theorem sysBrk_eq : sysBrk hw k =
    if k.BrkRefused hw then some (k.returnValue ERROR)
    else if k.nbrk hw = k.cbrk hw then some (k.returnValue 0)
    else if k.nbrk hw > k.cbrk hw then
      (growUserHeap hw k.mem k.table (k.cbrk hw) (k.nbrk hw - k.cbrk hw)).bind fun r =>
        some ((grown k r.2.1 r.2.2).returnValue (if r.1 then 0 else ERROR))
    else
      let r := shrinkUserHeap hw (k.nbrk hw) k.mem k.table (k.cbrk hw)
      some ((grown k r.1 r.2).returnValue 0) := rfl

theorem sysBrk_refused (h : k.BrkRefused hw) : sysBrk hw k = some (k.returnValue ERROR) := by
  rw [sysBrk_eq, if_pos h]

/-- The loop that should give pages back ends before its first turn. -/
theorem shrinkUserHeap_idle {nbrk : Nat} (h : nbrk < n) : shrinkUserHeap hw nbrk m pt n = (m, pt) := by
  cases n with
  | zero => rfl
  | succ n =>
    unfold shrinkUserHeap
    rw [if_neg (by omega)]

/-- A break that is not above the recorded one changes nothing, and the call returns `0`. -/
theorem sysBrk_kept (h : ¬ k.BrkRefused hw) (hle : k.nbrk hw ≤ k.cbrk hw) :
    sysBrk hw k = some (k.returnValue 0) := by
  rw [sysBrk_eq, if_neg h]
  by_cases heq : k.nbrk hw = k.cbrk hw
  · rw [if_pos heq]
  · rw [if_neg heq, if_neg (by omega), shrinkUserHeap_idle (by omega)]
    simp only
    rw [grown_same]

theorem sysBrk_grows (h : ¬ k.BrkRefused hw) (hlt : k.cbrk hw < k.nbrk hw) : sysBrk hw k =
    (growUserHeap hw k.mem k.table (k.cbrk hw) (k.nbrk hw - k.cbrk hw)).bind fun r =>
      some ((grown k r.2.1 r.2.2).returnValue (if r.1 then 0 else ERROR)) := by
  rw [sysBrk_eq, if_neg h, if_neg (by omega), if_pos hlt]

/-! ## What a call respects -/

theorem returnValue_result {v : Int} : (k.returnValue v).uctxt.regs 0 = v := by
  simp [Kernel.returnValue]

theorem brkTouches_grows (h : ¬ k.BrkRefused hw) :
    k.brkTouches hw = growTouches hw k.mem k.table (k.cbrk hw) (k.nbrk hw - k.cbrk hw) := by
  unfold Kernel.brkTouches
  rw [if_neg h]

/-- What a growing call does when no frame is free. -/
theorem sysBrk_nothingFree {limit : Int} (h : ¬ k.BrkRefused hw) (hlimit : limit ≤ hw.MAX_PT_LEN)
    (hnone : k.NothingFree hw limit) : BrkFailsCleanly hw k ∧
      ∀ k', sysBrk hw k = some k' → BrkUndone k k' ∧ ∀ i ∈ k.brkTouches hw, (i : Int) < limit := by
  obtain ⟨hfull, j, hlo, hj, hin, hv⟩ := hnone
  obtain ⟨hgrow, htouch⟩ := growUserHeap_full (n := k.nbrk hw - k.cbrk hw) hfull hlo (by omega)
    (show j < hw.MAX_PT_LEN by omega) hv
  have hcall : sysBrk hw k = some ((grown k { k.mem with exhausted := true } k.table).returnValue ERROR) := by
    rw [sysBrk_grows h (by omega), hgrow]
    rfl
  have hundone : BrkUndone k ((grown k { k.mem with exhausted := true } k.table).returnValue ERROR) := by
    rw [grown_same]
    exact ⟨returnValue_result, rfl, rfl⟩
  refine ⟨⟨_, hcall, hundone⟩, fun k' hk' => ?_⟩
  obtain rfl := Option.some.inj (hcall.symm.trans hk')
  refine ⟨hundone, fun i hi => ?_⟩
  rw [brkTouches_grows h] at hi
  have := htouch i hi
  omega

/-- A growing call that fails without having taken a frame found none to take. -/
theorem nothingFree_of_undone (h : ¬ k.BrkRefused hw) {limit : Int}
    (hgrow : growUserHeap hw k.mem k.table (k.cbrk hw) (k.nbrk hw - k.cbrk hw) = some (false, m', pt'))
    (hbits : m'.frame_bitMap = k.mem.frame_bitMap) (hbelow : ∀ i ∈ k.brkTouches hw,
      i < hw.MAX_PT_LEN → (i : Int) < limit) : k.NothingFree hw limit := by
  obtain ⟨hfull, j, hj, hlo, hlt, hin, hv⟩ := growUserHeap_false hgrow
  constructor
  · unfold freeFrames at hfull ⊢
    rwa [hbits] at hfull
  · refine ⟨j, hlo, by omega, hbelow j ?_ hin, hv⟩
    rwa [brkTouches_grows h]

/-- A break that is allowed stays below the stack, whether the loop gets its frames or not. -/
theorem sysBrk_allowed {data_end : Nat} (h : ¬ k.BrkRefused hw) (hsp : k.stackPage hw < hw.MAX_PT_LEN)
    (hallowed : k.BreakAllowed hw data_end k.table) :
    ∃ k', sysBrk hw k = some k' ∧ BrkRespects hw k data_end k' := by
  obtain ⟨hdata, j, hlo, hj, hv⟩ := hallowed
  have hbelow : ∀ i ∈ k.brkTouches hw, (i : Int) < k.stackPage hw ∧ i < hw.MAX_PT_LEN := by
    intro i hi
    rw [brkTouches_grows h] at hi
    have := mem_growTouches hi
    omega
  have hrefused : ∀ k', ¬ k.BreakAllowed hw data_end k.table → BrkUndone k k' :=
    fun _ hnot => absurd ⟨hdata, j, hlo, hj, hv⟩ hnot
  by_cases hle : k.nbrk hw ≤ k.cbrk hw
  · exact ⟨_, sysBrk_kept h hle, fun _ => ⟨hdata, j, hlo, hj, hv⟩, hrefused _, hbelow⟩
  · obtain ⟨⟨ok, m', pt'⟩, hgrow⟩ : ∃ r, growUserHeap hw k.mem k.table (k.cbrk hw)
        (k.nbrk hw - k.cbrk hw) = some r := by
      apply Option.ne_none_iff_exists'.1
      intro hnone
      obtain ⟨i, hi, hout⟩ := growUserHeap_none hnone
      rw [← brkTouches_grows h] at hi
      have := hbelow i hi
      omega
    have hcall := sysBrk_grows h (show k.cbrk hw < k.nbrk hw by omega)
    rw [hgrow] at hcall
    refine ⟨_, hcall, ?_, hrefused _, hbelow⟩
    intro hzero
    cases ok with
    | true =>
      -- the loop leaves the entries from the new break on alone
      have hsame := (growUserHeap_true hgrow).2 j (by omega)
      refine ⟨hdata, j, hlo, hj, ?_⟩
      show ((grown k m' pt').table j).valid = false
      rw [grown_table, hsame]
      exact hv
    | false =>
      simp [Kernel.returnValue, ERROR] at hzero

/-- `SysBrk` keeps the heap between the data and the stack exactly when its check refuses the address, the
address was a good one, or there is no frame for the first page it has to map, and that is below the stack. -/
theorem brk_respects_stack {data_end : Nat} (hsp : 0 ≤ k.stackPage hw ∧ k.stackPage hw < hw.MAX_PT_LEN) :
    (∃ k', sysBrk hw k = some k' ∧ BrkRespects hw k data_end k') ↔
      k.BrkRefused hw ∨ k.BreakAllowed hw data_end k.table ∨ k.NothingFree hw (k.stackPage hw) := by
  by_cases href : k.BrkRefused hw
  · refine iff_of_true ⟨_, sysBrk_refused href, ?_, ?_, ?_⟩ (Or.inl href)
    · intro hzero
      rw [returnValue_result] at hzero
      cases hzero
    · intro _
      exact ⟨returnValue_result, rfl, rfl⟩
    · intro i hi
      unfold Kernel.brkTouches at hi
      rw [if_pos href] at hi
      cases hi
  · simp only [href, false_or]
    constructor
    · rintro ⟨k', hcall, hrespects⟩
      by_cases hallowed : k.BreakAllowed hw data_end k.table
      · exact Or.inl hallowed
      · have hundone := hrespects.refused hallowed
        by_cases hle : k.nbrk hw ≤ k.cbrk hw
        · rw [sysBrk_kept href hle] at hcall
          obtain rfl := Option.some.inj hcall
          have hresult := hundone.result
          simp [Kernel.returnValue, ERROR] at hresult
        · rw [sysBrk_grows href (by omega), Option.bind_eq_some_iff] at hcall
          obtain ⟨⟨ok, m', pt'⟩, hgrow, hcall⟩ := hcall
          obtain rfl := Option.some.inj hcall
          cases ok with
          | true =>
            have hresult := hundone.result
            simp [Kernel.returnValue, ERROR] at hresult
          | false =>
            refine Or.inr (nothingFree_of_undone href hgrow hundone.bits fun i hi _ => ?_)
            exact (hrespects.below i hi).1
    · rintro (hallowed | hnone)
      · exact sysBrk_allowed href hsp.2 hallowed
      · obtain ⟨⟨k', hcall, hundone⟩, hall⟩ := sysBrk_nothingFree href (by omega) hnone
        refine ⟨k', hcall, ?_, fun _ => hundone, fun i hi => ?_⟩
        · intro hzero
          rw [hundone.result] at hzero
          cases hzero
        · have := (hall k' hcall).2 i hi
          omega

/-- The process of the small machine asks for the break `addr`; its stack pointer is in the last page. -/
def brkCaller (addr : Int) : Kernel := { execKernel with uctxt := ⟨0, 0, 0, 0, 255, 0, fun _ => addr⟩ }

/-- It asks for one page of heap. -/
theorem brk_respects_stack_small : ∃ k', sysBrk .small (brkCaller 176) = some k' ∧
    BrkRespects .small (brkCaller 176) 2 k' := by
  have hallowed : (brkCaller 176).BreakAllowed .small 2 (brkCaller 176).table :=
    ⟨by decide +kernel, 3, by decide +kernel, by decide +kernel, by decide +kernel⟩
  exact (brk_respects_stack (by decide +kernel)).2 (Or.inr (Or.inl hallowed))

/-- It asks for all pages up to the one of its stack, and gets them. -/
theorem brk_respects_stack_fails : ¬ ∃ k', sysBrk .small (brkCaller 240) = some k' ∧
    BrkRespects .small (brkCaller 240) 2 k' := by
  rintro ⟨k', hcall, hrespects⟩
  have hresult : (sysBrk .small (brkCaller 240)).map (fun k' => k'.uctxt.regs 0) = some 0 := by
    decide +kernel
  rw [hcall] at hresult
  obtain ⟨-, i, hlo, hi, -⟩ := hrespects.moved (Option.some.inj hresult)
  have hpages : (brkCaller 240).nbrk .small = 7 ∧ (brkCaller 240).stackPage .small = 7 := by
    decide +kernel
  omega

/-- A request for more pages than there are frames leaves nothing behind exactly when the check refuses it, or
no frame is free at all and it has to map a page of the table. -/
theorem brk_fails_cleanly (hneed : (freeFrames hw k.mem).card <
      (neededPages hw k.table (k.cbrk hw) (k.nbrk hw - k.cbrk hw)).length) :
    BrkFailsCleanly hw k ↔ k.BrkRefused hw ∨ k.NothingFree hw hw.MAX_PT_LEN := by
  by_cases href : k.BrkRefused hw
  · exact iff_of_true ⟨_, sysBrk_refused href, returnValue_result, rfl, rfl⟩ (Or.inl href)
  · simp only [href, false_or]
    constructor
    · rintro ⟨k', hcall, hundone⟩
      have hlt : k.cbrk hw < k.nbrk hw := by
        by_contra hle
        rw [show k.nbrk hw - k.cbrk hw = 0 by omega, neededPages_zero] at hneed
        cases hneed
      rw [sysBrk_grows href hlt, Option.bind_eq_some_iff] at hcall
      obtain ⟨⟨ok, m', pt'⟩, hgrow, hcall⟩ := hcall
      obtain rfl := Option.some.inj hcall
      cases ok with
      | true =>
        have hcard := (growUserHeap_true hgrow).1
        omega
      | false =>
        apply nothingFree_of_undone href hgrow hundone.bits
        intro i _ hin
        omega
    · intro hnone
      exact (sysBrk_nothingFree href (le_refl _) hnone).1

/-- The same process asks for two pages of heap, with the frames in `free` free. -/
def shortCaller (free : Nat → Bool) : Kernel :=
  { brkCaller 192 with mem := { execKernel.mem with frame_bitMap := fun f => !free f } }

theorem brk_fails_cleanly_small : BrkFailsCleanly .small (shortCaller fun _ => false) := by
  have hnone : (shortCaller fun _ => false).NothingFree .small Hardware.small.MAX_PT_LEN :=
    ⟨by decide +kernel, 2, by decide +kernel, by decide +kernel, by decide +kernel, by decide +kernel⟩
  exact (brk_fails_cleanly (by decide +kernel)).2 (Or.inr hnone)

/-- One frame is left. -/
def oneFrameCaller : Kernel := shortCaller fun f => f == 39

/-- The first of the two pages stays mapped. -/
theorem brk_fails_cleanly_fails : ¬ ((freeFrames .small oneFrameCaller.mem).card <
      (neededPages .small oneFrameCaller.table (oneFrameCaller.cbrk .small)
        (oneFrameCaller.nbrk .small - oneFrameCaller.cbrk .small)).length →
    BrkFailsCleanly .small oneFrameCaller) := by
  intro hclean
  obtain ⟨k', hcall, hundone⟩ := hclean (by decide +kernel)
  have hbit : (sysBrk .small oneFrameCaller).map (fun k' => k'.mem.frame_bitMap 39) = some true := by
    decide +kernel
  rw [hcall] at hbit
  have hused : k'.mem.frame_bitMap 39 = true := Option.some.inj hbit
  have hfree : oneFrameCaller.mem.frame_bitMap 39 = false := by decide +kernel
  rw [hundone.bits, hfree] at hused
  cases hused

end Yalnix
