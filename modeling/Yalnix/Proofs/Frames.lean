import Yalnix.Contracts

/-!
# Frames

What `allocate_frame`, `free_frame` and the loops that map pages do to the bits and to a table.
-/

namespace Yalnix

variable {hw : Hardware} {m m' : Memory}

/-- `allocate_frame` answers with the first free frame. -/
theorem allocateFrame_cases {pfn : Int} (h : allocateFrame hw m = (pfn, m')) :
    (∃ i : Nat, pfn = i ∧ i < hw.NUM_VPN ∧ m.frame_bitMap i = false ∧
      m' = { m with frame_bitMap := Function.update m.frame_bitMap i true }) ∨
    (pfn = ERROR ∧ (∀ i < hw.NUM_VPN, m.frame_bitMap i = true) ∧ m' = { m with exhausted := true }) := by
  unfold allocateFrame at h
  split at h
  · rename_i i hfind
    obtain ⟨rfl, rfl⟩ := Prod.mk.inj h
    have hmem := List.mem_of_find?_eq_some hfind
    have hfree := List.find?_some hfind
    exact Or.inl ⟨i, rfl, List.mem_range.1 hmem, by simpa using hfree, rfl⟩
  · rename_i hnone
    obtain ⟨rfl, rfl⟩ := Prod.mk.inj h
    simp only [List.find?_eq_none, List.mem_range] at hnone
    exact Or.inr ⟨rfl, fun i hi => by simpa using hnone i hi, rfl⟩

theorem Pte.pfnOfInt_natCast {n : Nat} (h : n < 2 ^ 24) : Pte.pfnOfInt n = n := by
  unfold Pte.pfnOfInt
  omega

/-- `free_frame` clears at most the bit of its frame. -/
theorem freeFrame_bitMap_ne {pfn i : Nat} (h : i ≠ pfn) :
    (freeFrame hw m pfn).frame_bitMap i = m.frame_bitMap i := by
  unfold freeFrame
  split
  · rfl
  · split
    · rfl
    · exact Function.update_of_ne (by simpa using h) _ _

theorem freeFrame_frame (hw : Hardware) (m : Memory) (pfn : Int) :
    freeFrame hw m pfn = { m with frame_bitMap := (freeFrame hw m pfn).frame_bitMap } := by
  unfold freeFrame
  split
  · rfl
  · split <;> rfl

/-! ## Free frames -/

theorem mem_freeFrames {i : Nat} : i ∈ freeFrames hw m ↔ i < hw.NUM_VPN ∧ m.frame_bitMap i = false := by
  simp [freeFrames]

theorem freeFrames_full (hfull : ∀ i < hw.NUM_VPN, m.frame_bitMap i = true) : freeFrames hw m = ∅ := by
  refine Finset.eq_empty_of_forall_notMem ?_
  intro i hi
  obtain ⟨hlt, hfree⟩ := mem_freeFrames.1 hi
  rw [hfull i hlt] at hfree
  cases hfree

/-! ## free_userspace -/

/-- `free_frame` clears the bit of a frame of the machine. -/
theorem freeFrame_bits {pfn f : Nat} : (freeFrame hw m pfn).frame_bitMap f = true ↔
    m.frame_bitMap f = true ∧ ¬ (f < hw.NUM_VPN ∧ pfn = f) := by
  by_cases e : f = pfn
  · subst e
    unfold freeFrame
    by_cases hf : f < hw.NUM_VPN
    · rw [if_neg (by omega)]
      by_cases hbit : m.frame_bitMap f = false
      · simp [hbit, hf]
      · simp [hbit, hf]
    · rw [if_pos (by omega)]
      simp [hf]
  · rw [freeFrame_bitMap_ne e]
    have hne : ¬ pfn = f := fun h => e h.symm
    simp [hne]

/-- `free_userspace` frees the frames of the valid entries. -/
theorem freeUserspace_bits {pt : Nat → Pte} {f : Nat} : (freeUserspace hw m pt).frame_bitMap f = true ↔
    m.frame_bitMap f = true ∧
      ¬ (f < hw.NUM_VPN ∧ ∃ i < hw.MAX_PT_LEN, (pt i).valid = true ∧ (pt i).pfn = f) := by
  unfold freeUserspace
  generalize hw.MAX_PT_LEN = n
  induction n with
  | zero => simp
  | succ n ih =>
    rw [List.range_succ, List.foldl_append]
    simp only [List.foldl_cons, List.foldl_nil]
    have hsplit : (∃ i < n + 1, (pt i).valid = true ∧ (pt i).pfn = f) ↔
        (∃ i < n, (pt i).valid = true ∧ (pt i).pfn = f) ∨ (pt n).valid = true ∧ (pt n).pfn = f := by
      constructor
      · rintro ⟨i, hi, h⟩
        rcases Nat.lt_succ_iff_lt_or_eq.1 hi with hi | rfl
        · exact Or.inl ⟨i, hi, h⟩
        · exact Or.inr h
      · rintro (⟨i, hi, h⟩ | h)
        · exact ⟨i, by omega, h⟩
        · exact ⟨n, by omega, h⟩
    rw [hsplit]
    split
    · rename_i hv
      rw [freeFrame_bits, ih, hv]
      generalize (∃ i < n, (pt i).valid = true ∧ (pt i).pfn = f) = held
      simp only [true_and]
      tauto
    · rename_i hv
      rw [ih]
      generalize (∃ i < n, (pt i).valid = true ∧ (pt i).pfn = f) = held
      tauto

/-- It changes nothing but the bits. -/
theorem freeUserspace_frame {pt : Nat → Pte} : freeUserspace hw m pt =
    { m with frame_bitMap := (freeUserspace hw m pt).frame_bitMap } := by
  unfold freeUserspace
  induction List.range hw.MAX_PT_LEN generalizing m with
  | nil => rfl
  | cons i is ih =>
    rw [List.foldl_cons, ih]
    split
    · rw [freeFrame_frame]
    · rfl

theorem freeUserspace_region0 {pt : Nat → Pte} : (freeUserspace hw m pt).region0_pt = m.region0_pt := by
  rw [freeUserspace_frame]

/-! ## Frames that are taken -/

/-- The frames `fs` are free in `m`, and in `m'` they are used too. -/
structure Takes (hw : Hardware) (m m' : Memory) (fs : List Nat) : Prop where
  nodup : fs.Nodup
  free : ∀ f ∈ fs, f ∈ freeFrames hw m
  bits : ∀ f, m'.frame_bitMap f = true ↔ m.frame_bitMap f = true ∨ f ∈ fs

namespace Takes

variable {m₁ : Memory} {fs gs : List Nat} {f : Nat}

theorem refl (hw : Hardware) (m : Memory) : Takes hw m m [] where
  nodup := List.nodup_nil
  free := by simp
  bits := by simp

theorem free_iff (h : Takes hw m m' fs) : f ∈ freeFrames hw m' ↔ f ∈ freeFrames hw m ∧ f ∉ fs := by
  have hbits := h.bits f
  rw [mem_freeFrames, mem_freeFrames, ← Bool.not_eq_true, ← Bool.not_eq_true, hbits]
  tauto

theorem trans (h : Takes hw m m₁ fs) (h' : Takes hw m₁ m' gs) : Takes hw m m' (fs ++ gs) where
  nodup := by
    refine List.nodup_append.2 ⟨h.nodup, h'.nodup, ?_⟩
    rintro f hf g hg rfl
    exact (h.free_iff.1 (h'.free f hg)).2 hf
  free := by
    intro f hf
    rcases List.mem_append.1 hf with hf | hf
    · exact h.free f hf
    · exact (h.free_iff.1 (h'.free f hf)).1
  bits f := by
    rw [h'.bits, h.bits, List.mem_append, or_assoc]

/-- What has been taken is missing. -/
theorem card (h : Takes hw m m' fs) : (freeFrames hw m').card + fs.length = (freeFrames hw m).card := by
  have hsub : fs.toFinset ⊆ freeFrames hw m := by
    intro f hf
    exact h.free f (List.mem_toFinset.1 hf)
  have hrest : freeFrames hw m' = freeFrames hw m \ fs.toFinset := by
    ext f
    rw [h.free_iff, Finset.mem_sdiff, List.mem_toFinset]
  have hcard := Finset.card_sdiff_add_card_eq_card hsub
  rw [hrest, ← List.toFinset_card_of_nodup h.nodup]
  exact hcard

end Takes

/-- `allocate_frame` takes one frame. -/
theorem takes_one {i : Nat} (hi : i < hw.NUM_VPN) (hfree : m.frame_bitMap i = false) :
    Takes hw m { m with frame_bitMap := Function.update m.frame_bitMap i true } [i] where
  nodup := List.nodup_singleton i
  free := by
    intro f hf
    rw [List.mem_singleton.1 hf]
    exact mem_freeFrames.2 ⟨hi, hfree⟩
  bits f := by
    rw [List.mem_singleton]
    by_cases e : f = i
    · subst e
      simp
    · simp [e]

/-- A frame that is given out is no longer free. -/
theorem freeFrames_take {i : Nat} (hi : i < hw.NUM_VPN) (hfree : m.frame_bitMap i = false) :
    (freeFrames hw { m with frame_bitMap := Function.update m.frame_bitMap i true }).card + 1 =
      (freeFrames hw m).card :=
  (takes_one hi hfree).card

/-! ## LoadProgram -/

/-- What a turn of a loop of `LoadProgram` at page `i` does, with `n` turns to go after it. -/
inductive MapTurn (hw : Hardware) (m : Memory) (pt : Nat → Pte) (i : Int) (n : Nat) : Prop where
  | mapped (f : Nat) (hf : f < hw.NUM_VPN) (hfree : m.frame_bitMap f = false) (hi : 0 ≤ i ∧ i < hw.MAX_PT_LEN)
      (hturn : mapPages hw m pt i (n + 1) =
        mapPages hw { m with frame_bitMap := Function.update m.frame_bitMap f true }
          (Function.update pt i.toNat ⟨true, .readWrite, Pte.pfnOfInt f⟩) (i + 1) n)
  | outside (f : Nat) (hf : f < hw.NUM_VPN) (hfree : m.frame_bitMap f = false)
      (hi : ¬ (0 ≤ i ∧ i < hw.MAX_PT_LEN)) (hturn : mapPages hw m pt i (n + 1) = none)
  | short (hfull : freeFrames hw m = ∅)
      (hturn : mapPages hw m pt i (n + 1) = some (false, { m with exhausted := true }, pt))

theorem mapTurn (hw : Hardware) (m : Memory) (pt : Nat → Pte) (i : Int) (n : Nat) : MapTurn hw m pt i n := by
  generalize halloc : allocateFrame hw m = r
  obtain ⟨pfn, m₁⟩ := r
  rcases allocateFrame_cases halloc with ⟨f, rfl, hf, hfree, rfl⟩ | ⟨rfl, hfull, rfl⟩
  · have hne : ¬ (f : Int) = ERROR := by
      unfold ERROR
      omega
    by_cases hi : 0 ≤ i ∧ i < hw.MAX_PT_LEN
    · refine .mapped f hf hfree hi ?_
      rw [mapPages, halloc]
      simp only
      rw [if_neg hne, if_pos hi]
    · refine .outside f hf hfree hi ?_
      rw [mapPages, halloc]
      simp only
      rw [if_neg hne, if_neg hi]
  · refine .short (freeFrames_full hfull) ?_
    rw [mapPages, halloc]
    exact if_pos rfl

/-- A loop of `LoadProgram` that gets all its frames. -/
theorem mapPages_true {pt pt' : Nat → Pte} {i : Int} {n : Nat}
    (h : mapPages hw m pt i n = some (true, m', pt')) :
    (0 < n → 0 ≤ i ∧ i + n ≤ hw.MAX_PT_LEN) ∧
    (freeFrames hw m').card + n = (freeFrames hw m).card ∧
    ∀ j : Nat, (i ≤ j ∧ (j : Int) < i + n → (pt' j).valid = true ∧ (pt' j).prot = .readWrite) ∧
      (¬ (i ≤ j ∧ (j : Int) < i + n) → pt' j = pt j) := by
  induction n generalizing m pt i with
  | zero =>
    obtain ⟨-, h⟩ := Prod.mk.inj (Option.some.inj h)
    obtain ⟨rfl, rfl⟩ := Prod.mk.inj h
    exact ⟨by omega, rfl, fun j => ⟨by omega, fun _ => rfl⟩⟩
  | succ n ih =>
    cases mapTurn hw m pt i n with
    | mapped f hf hfree hi hturn =>
      rw [hturn] at h
      obtain ⟨hrange, hcard, htable⟩ := ih h
      refine ⟨fun _ => ⟨hi.1, ?_⟩, ?_, fun j => ⟨fun hj => ?_, fun hj => ?_⟩⟩
      · by_cases hn : 0 < n
        · have := (hrange hn).2
          omega
        · omega
      · have := freeFrames_take hf hfree
        omega
      · by_cases hij : i + 1 ≤ j ∧ (j : Int) < i + 1 + n
        · exact (htable j).1 hij
        · have e : j = i.toNat := by omega
          rw [(htable j).2 hij, e, Function.update_self]
          exact ⟨rfl, rfl⟩
      · have e : j ≠ i.toNat := by omega
        rw [(htable j).2 (by omega), Function.update_of_ne e]
    | outside _ _ _ _ hturn =>
      rw [hturn] at h
      cases h
    | short _ hturn =>
      rw [hturn] at h
      cases h

/-- It takes the frames of its entries, and touches no other table. -/
theorem mapPages_takes (hpfn : hw.NUM_VPN ≤ 2 ^ 24) {pt pt' : Nat → Pte} {i : Int} {n : Nat}
    (h : mapPages hw m pt i n = some (true, m', pt')) :
    Takes hw m m' ((List.range n).map fun d : Nat => (pt' (i + d).toNat).pfn) ∧
      m'.region0_pt = m.region0_pt := by
  induction n generalizing m pt i with
  | zero =>
    obtain ⟨-, h⟩ := Prod.mk.inj (Option.some.inj h)
    obtain ⟨rfl, rfl⟩ := Prod.mk.inj h
    exact ⟨.refl hw m, rfl⟩
  | succ n ih =>
    cases mapTurn hw m pt i n with
    | mapped f hf hfree hi hturn =>
      rw [hturn] at h
      obtain ⟨htakes, hregion0⟩ := ih h
      refine ⟨?_, hregion0⟩
      -- the rest of the loop leaves the first entry alone
      have hfirst : (pt' (i + (0 : Nat)).toNat).pfn = f := by
        have hother := ((mapPages_true h).2.2 (i + (0 : Nat)).toNat).2 (by omega)
        rw [hother, show (i + (0 : Nat)).toNat = i.toNat by simp, Function.update_self]
        exact Pte.pfnOfInt_natCast (lt_of_lt_of_le hf hpfn)
      rw [List.range_succ_eq_map, List.map_cons, hfirst, List.map_map, ← List.singleton_append]
      convert (takes_one hf hfree).trans htakes using 2
      refine List.map_congr_left ?_
      intro d _
      show (pt' (i + (d + 1 : Nat)).toNat).pfn = (pt' (i + 1 + d).toNat).pfn
      rw [show i + ((d + 1 : Nat) : Int) = i + 1 + d by omega]
    | outside _ _ _ _ hturn =>
      rw [hturn] at h
      cases h
    | short _ hturn =>
      rw [hturn] at h
      cases h

variable {proc proc' : Pcb} {req : LoadRequest} {li : LoadInfo} {rc : LoadResult}

theorem loadProgram_refused (h : req.Refused hw) : loadProgram hw m proc req =
    some (.error, m, { proc with user_context := req.refusedContext hw proc.user_context }) := by
  unfold loadProgram LoadRequest.refusedContext
  cases hli : req.li with
  | none => rfl
  | some li =>
    simp only
    by_cases hentry : li.entry % 2 ^ 32 < hw.VMEM_1_BASE
    · rw [if_pos hentry, if_pos hentry]
    · by_cases hsize : req.heapAndStack hw li ≥ hw.MAX_PT_LEN
      · rw [if_neg hentry, if_neg hentry, if_pos hsize, if_pos hsize]
      · have hmalloc : req.argbuf = false := by
          rcases h li hli with h | h | h
          · exact absurd h hentry
          · exact absurd h hsize
          · exact h
        rw [if_neg hentry, if_neg hentry, if_neg hsize, if_neg hsize, if_pos (by simp [hmalloc])]

theorem loadProgram_built (hli : req.li = some li) (h : ¬ req.Refused hw) : loadProgram hw m proc req =
    buildImage hw m { proc with user_context := { proc.user_context with sp := req.cp2 hw } } li req := by
  have hchecks : ¬ (li.entry % 2 ^ 32 < hw.VMEM_1_BASE ∨
      req.heapAndStack hw li ≥ hw.MAX_PT_LEN ∨ req.argbuf = false) := by
    intro hc
    refine h fun li' hli' => ?_
    obtain rfl := Option.some.inj (hli.symm.trans hli')
    exact hc
  push Not at hchecks
  obtain ⟨hentry, hsize, hmalloc⟩ := hchecks
  unfold loadProgram
  rw [hli]
  simp only
  rw [if_neg (by omega), if_neg (by omega), if_neg (by simp [hmalloc])]

theorem header_of_not_refused (h : ¬ req.Refused hw) : ∃ li, req.li = some li := by
  by_contra hnone
  exact h fun li hli => absurd ⟨li, hli⟩ hnone

/-- How `LoadProgram` ends from the point of no return on: a loop is short of a frame, or all pages are mapped.
Only then it is found out whether the segments can be read. -/
inductive BuildCase (hw : Hardware) (m : Memory) (proc : Pcb) (li : LoadInfo) (req : LoadRequest) :
    LoadResult → Memory → Pcb → Prop where
  | noText {m₁ : Memory} {pt₁ : Nat → Pte}
      (h₁ : mapPages hw (freeUserspace hw m proc.region1_pt) proc.region1_pt (li.text_pg1 hw) (li.textTurns hw) =
        some (false, m₁, pt₁)) :
      BuildCase hw m proc li req .error m₁ { proc with region1_pt := pt₁ }
  | noData {m₁ m₂ : Memory} {pt₁ pt₂ : Nat → Pte}
      (h₁ : mapPages hw (freeUserspace hw m proc.region1_pt) proc.region1_pt (li.text_pg1 hw) (li.textTurns hw) =
        some (true, m₁, pt₁))
      (h₂ : mapPages hw m₁ pt₁ (li.data_pg1 hw) (li.dataTurns hw) = some (false, m₂, pt₂)) :
      BuildCase hw m proc li req .error m₂ { proc with region1_pt := pt₂ }
  | noStack {m₁ m₂ m₃ : Memory} {pt₁ pt₂ pt₃ : Nat → Pte}
      (h₁ : mapPages hw (freeUserspace hw m proc.region1_pt) proc.region1_pt (li.text_pg1 hw) (li.textTurns hw) =
        some (true, m₁, pt₁))
      (h₂ : mapPages hw m₁ pt₁ (li.data_pg1 hw) (li.dataTurns hw) = some (true, m₂, pt₂))
      (h₃ : mapPages hw m₂ pt₂ (hw.MAX_PT_LEN - req.stack_npg hw) (req.stack_npg hw).toNat =
        some (false, m₃, pt₃)) :
      BuildCase hw m proc li req .error m₃
        { proc with brk := li.data_end hw * hw.PAGESIZE, region1_pt := pt₃ }
  | unread {m₁ m₂ m₃ : Memory} {pt₁ pt₂ pt₃ : Nat → Pte}
      (h₁ : mapPages hw (freeUserspace hw m proc.region1_pt) proc.region1_pt (li.text_pg1 hw) (li.textTurns hw) =
        some (true, m₁, pt₁))
      (h₂ : mapPages hw m₁ pt₁ (li.data_pg1 hw) (li.dataTurns hw) = some (true, m₂, pt₂))
      (h₃ : mapPages hw m₂ pt₂ (hw.MAX_PT_LEN - req.stack_npg hw) (req.stack_npg hw).toNat =
        some (true, m₃, pt₃))
      (hread : req.textRead = false ∨ req.dataRead = false) :
      BuildCase hw m proc li req .kill m₃
        { proc with brk := li.data_end hw * hw.PAGESIZE, region1_pt := pt₃ }
  | built {m₁ m₂ m₃ : Memory} {pt₁ pt₂ pt₃ : Nat → Pte}
      (h₁ : mapPages hw (freeUserspace hw m proc.region1_pt) proc.region1_pt (li.text_pg1 hw) (li.textTurns hw) =
        some (true, m₁, pt₁))
      (h₂ : mapPages hw m₁ pt₁ (li.data_pg1 hw) (li.dataTurns hw) = some (true, m₂, pt₂))
      (h₃ : mapPages hw m₂ pt₂ (hw.MAX_PT_LEN - req.stack_npg hw) (req.stack_npg hw).toNat =
        some (true, m₃, pt₃)) :
      BuildCase hw m proc li req .success m₃ { proc with
        region1_pt := protectText pt₃ (li.text_pg1 hw) (li.textTurns hw)
        brk := li.data_end hw * hw.PAGESIZE
        user_context := { proc.user_context with pc := li.entry } }

theorem buildImage_cases (h : buildImage hw m proc li req = some (rc, m', proc')) :
    BuildCase hw m proc li req rc m' proc' := by
  unfold buildImage at h
  simp only [Option.bind_eq_bind, Option.bind_eq_some_iff, Prod.exists] at h
  obtain ⟨ok₁, m₁, pt₁, h₁, h⟩ := h
  cases ok₁ with
  | false =>
    simp only [Bool.not_false, if_true, Option.pure_def, Option.some.injEq, Prod.mk.injEq] at h
    obtain ⟨rfl, rfl, rfl⟩ := h
    exact .noText h₁
  | true =>
    simp only [Bool.not_true, Bool.false_eq_true, if_false, Option.bind_eq_some_iff, Prod.exists] at h
    obtain ⟨ok₂, m₂, pt₂, h₂, h⟩ := h
    cases ok₂ with
    | false =>
      simp only [Bool.not_false, if_true, Option.pure_def, Option.some.injEq, Prod.mk.injEq] at h
      obtain ⟨rfl, rfl, rfl⟩ := h
      exact .noData h₁ h₂
    | true =>
      simp only [Bool.not_true, Bool.false_eq_true, if_false, Option.bind_eq_some_iff, Prod.exists] at h
      obtain ⟨ok₃, m₃, pt₃, h₃, h⟩ := h
      cases ok₃ with
      | false =>
        simp only [Bool.not_false, if_true, Option.pure_def, Option.some.injEq, Prod.mk.injEq] at h
        obtain ⟨rfl, rfl, rfl⟩ := h
        exact .noStack h₁ h₂ h₃
      | true =>
        simp only [Bool.not_true, Bool.false_eq_true, if_false, Option.pure_def] at h
        split at h
        · rename_i htext
          simp only [Option.some.injEq, Prod.mk.injEq] at h
          obtain ⟨rfl, rfl, rfl⟩ := h
          exact .unread h₁ h₂ h₃ (Or.inl (by simpa using htext))
        · split at h
          · rename_i hdata
            simp only [Option.some.injEq, Prod.mk.injEq] at h
            obtain ⟨rfl, rfl, rfl⟩ := h
            exact .unread h₁ h₂ h₃ (Or.inr (by simpa using hdata))
          · simp only [Option.some.injEq, Prod.mk.injEq] at h
            obtain ⟨rfl, rfl, rfl⟩ := h
            exact .built h₁ h₂ h₃

/-- `LoadProgram` refuses the request, or goes on from the point of no return. -/
theorem loadProgram_cases (h : loadProgram hw m proc req = some (rc, m', proc')) :
    (req.Refused hw ∧ m' = m ∧
      proc' = { proc with user_context := req.refusedContext hw proc.user_context }) ∨
    ∃ li, req.li = some li ∧ ¬ req.Refused hw ∧ BuildCase hw m
      { proc with user_context := { proc.user_context with sp := req.cp2 hw } } li req rc m' proc' := by
  by_cases href : req.Refused hw
  · rw [loadProgram_refused href] at h
    simp only [Option.some.injEq, Prod.mk.injEq] at h
    exact Or.inl ⟨href, h.2.1.symm, h.2.2.symm⟩
  · obtain ⟨li, hli⟩ := header_of_not_refused href
    rw [loadProgram_built hli href] at h
    exact Or.inr ⟨li, hli, href, buildImage_cases h⟩

end Yalnix
