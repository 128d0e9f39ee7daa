import Yalnix.Proofs.ForkShort
import Yalnix.Proofs.LoadImage
import Yalnix.Proofs.SpaceStep

/-!
# What the loops take and give back

As long as `allocate_frame` finds a frame, each loop that fills a table takes one frame for each entry.
-/

namespace Yalnix

variable {hw : Hardware} {m m' m₁ : Memory} {pt pt' parent_pt : Nat → Pte} {fs gs : List Nat}
  {f i lo n vpn : Nat} {proc proc' : Pcb} {req : LoadRequest} {li : LoadInfo} {rc : LoadResult}

/-! ## Frames that are taken if there are any -/

/-- Unless `allocate_frame` has failed on the way from `m` to `m'`, the frames `fs` have been taken. -/
structure Gets (hw : Hardware) (m m' : Memory) (fs : List Nat) : Prop where
  vm : m'.vm_enabled = m.vm_enabled
  takes : m'.exhausted = false → m.exhausted = false ∧ Takes hw m m' fs

namespace Gets

theorem refl (hw : Hardware) (m : Memory) : Gets hw m m [] := ⟨rfl, fun hroom => ⟨hroom, .refl hw m⟩⟩

theorem trans (h : Gets hw m m₁ fs) (h' : Gets hw m₁ m' gs) : Gets hw m m' (fs ++ gs) where
  vm := h'.vm.trans h.vm
  takes hroom := by
    obtain ⟨hroom₁, htakes'⟩ := h'.takes hroom
    obtain ⟨hroom₀, htakes⟩ := h.takes hroom₁
    exact ⟨hroom₀, htakes.trans htakes'⟩

/-- What only changes region 0 takes no frame. -/
theorem remapped (h : Gets hw m m₁ fs) (h' : SameBits m₁ m') : Gets hw m m' fs where
  vm := h'.vm.trans h.vm
  takes hno := by
    obtain ⟨hroom₀, htakes⟩ := h.takes (h'.exhausted.symm.trans hno)
    exact ⟨hroom₀, htakes.nodup, htakes.free, fun f => by rw [h'.bits, htakes.bits]⟩

end Gets

/-- `allocate_frame` takes a frame, or fails. -/
theorem allocateFrame_gets {pfn : Int} (h : allocateFrame hw m = (pfn, m')) :
    (∃ i : Nat, pfn = i ∧ i < hw.NUM_VPN ∧ Gets hw m m' [i]) ∨
      pfn = ERROR ∧ m'.exhausted = true ∧ ∀ fs, Gets hw m m' fs := by
  rcases allocateFrame_cases h with ⟨i, rfl, hi, hfree, rfl⟩ | ⟨rfl, -, rfl⟩
  · exact Or.inl ⟨i, rfl, hi, rfl, fun hroom => ⟨hroom, takes_one hi hfree⟩⟩
  · exact Or.inr ⟨rfl, rfl, fun fs => ⟨rfl, fun hroom => by cases hroom⟩⟩

/-! ## LoadProgram -/

theorem mapPages_flags {i : Int} {ok : Bool} (h : mapPages hw m pt i n = some (ok, m', pt')) :
    m'.vm_enabled = m.vm_enabled ∧ (m'.exhausted = false → m.exhausted = false ∧ ok = true) := by
  induction n generalizing m pt i with
  | zero =>
    obtain ⟨rfl, hrest⟩ := Prod.mk.inj (Option.some.inj h)
    obtain ⟨rfl, -⟩ := Prod.mk.inj hrest
    exact ⟨rfl, fun hroom => ⟨hroom, rfl⟩⟩
  | succ n ih =>
    cases mapTurn hw m pt i n with
    | mapped _ _ _ _ hturn =>
      rw [hturn] at h
      obtain ⟨hvm, hflags⟩ := ih h
      exact ⟨hvm, hflags⟩
    | outside _ _ _ _ hturn =>
      rw [hturn] at h
      cases h
    | short _ hturn =>
      rw [hturn] at h
      obtain ⟨-, hrest⟩ := Prod.mk.inj (Option.some.inj h)
      obtain ⟨rfl, -⟩ := Prod.mk.inj hrest
      exact ⟨rfl, fun hroom => by cases hroom⟩

theorem loops_flags {m₂ m₃ : Memory} {old pt₁ pt₂ pt₃ : Nat → Pte} {ok₁ ok₂ ok₃ : Bool} {i₁ i₂ i₃ : Int}
    {n₁ n₂ n₃ : Nat} (h₁ : mapPages hw (freeUserspace hw m old) old i₁ n₁ = some (ok₁, m₁, pt₁))
    (h₂ : mapPages hw m₁ pt₁ i₂ n₂ = some (ok₂, m₂, pt₂)) (h₃ : mapPages hw m₂ pt₂ i₃ n₃ = some (ok₃, m₃, pt₃)) :
    m₃.vm_enabled = m.vm_enabled ∧ (m₃.exhausted = false → m.exhausted = false) := by
  obtain ⟨hvm₁, hflags₁⟩ := mapPages_flags h₁
  obtain ⟨hvm₂, hflags₂⟩ := mapPages_flags h₂
  obtain ⟨hvm₃, hflags₃⟩ := mapPages_flags h₃
  rw [freeUserspace_frame] at hvm₁ hflags₁
  exact ⟨hvm₃.trans (hvm₂.trans hvm₁), fun hroom => (hflags₁ (hflags₂ (hflags₃ hroom).1).1).1⟩

/-- Unless `allocate_frame` fails, a program that is not refused is loaded by three loops. -/
theorem loadProgram_loops (hli : req.li = some li) (href : ¬ req.Refused hw)
    (h : loadProgram hw m proc req = some (rc, m', proc')) : m'.vm_enabled = m.vm_enabled ∧
    (m'.exhausted = false → m.exhausted = false ∧ ∃ m₁ pt₁ m₂ pt₂ pt₃,
      mapPages hw (freeUserspace hw m proc.region1_pt) proc.region1_pt (li.text_pg1 hw) (li.textTurns hw) =
        some (true, m₁, pt₁) ∧
      mapPages hw m₁ pt₁ (li.data_pg1 hw) (li.dataTurns hw) = some (true, m₂, pt₂) ∧
      mapPages hw m₂ pt₂ (hw.MAX_PT_LEN - req.stack_npg hw) (req.stack_npg hw).toNat =
        some (true, m', pt₃) ∧
      (proc'.region1_pt = pt₃ ∨
        proc'.region1_pt = protectText pt₃ (li.text_pg1 hw) (li.textTurns hw))) := by
  rw [loadProgram_built hli href] at h
  cases buildImage_cases h with
  | noText h₁ =>
    obtain ⟨hvm₁, hflags₁⟩ := mapPages_flags h₁
    rw [freeUserspace_frame] at hvm₁
    exact ⟨hvm₁, fun hroom => absurd (hflags₁ hroom).2 (by simp)⟩
  | noData h₁ h₂ =>
    obtain ⟨hvm₁, -⟩ := mapPages_flags h₁
    obtain ⟨hvm₂, hflags₂⟩ := mapPages_flags h₂
    rw [freeUserspace_frame] at hvm₁
    exact ⟨hvm₂.trans hvm₁, fun hroom => absurd (hflags₂ hroom).2 (by simp)⟩
  | noStack h₁ h₂ h₃ =>
    obtain ⟨hvm, -⟩ := loops_flags h₁ h₂ h₃
    exact ⟨hvm, fun hroom => absurd ((mapPages_flags h₃).2 hroom).2 (by simp)⟩
  | unread h₁ h₂ h₃ =>
    obtain ⟨hvm, hflags⟩ := loops_flags h₁ h₂ h₃
    exact ⟨hvm, fun hroom => ⟨hflags hroom, _, _, _, _, _, h₁, h₂, h₃, Or.inl rfl⟩⟩
  | built h₁ h₂ h₃ =>
    obtain ⟨hvm, hflags⟩ := loops_flags h₁ h₂ h₃
    exact ⟨hvm, fun hroom => ⟨hflags hroom, _, _, _, _, _, h₁, h₂, h₃, Or.inr rfl⟩⟩

theorem loadProgram_flags (h : loadProgram hw m proc req = some (rc, m', proc')) :
    m'.vm_enabled = m.vm_enabled ∧ (m'.exhausted = false → m.exhausted = false) := by
  by_cases href : req.Refused hw
  · rw [loadProgram_refused href] at h
    simp only [Option.some.injEq, Prod.mk.injEq] at h
    obtain ⟨-, rfl, -⟩ := h
    exact ⟨rfl, id⟩
  obtain ⟨li, hli⟩ := header_of_not_refused href
  obtain ⟨hvm, hloops⟩ := loadProgram_loops hli href h
  exact ⟨hvm, fun hroom => (hloops hroom).1⟩

theorem protectText_valid {text_pg1 : Int} : (protectText pt text_pg1 n i).valid = (pt i).valid := by
  unfold protectText
  split
  · rfl
  · rfl

/-- A program is loaded over the table `old`, which it covers: it gives all frames back and takes those of its
image. -/
structure LoadedOver (hw : Hardware) (m m' : Memory) (old pt : Nat → Pte) (pages : List Nat) : Prop where
  takes : Takes hw (freeUserspace hw m old) m' (pages.map fun i => (pt i).pfn)
  inside : ∀ i ∈ pages, i < hw.MAX_PT_LEN ∧ (pt i).valid = true
  rest : ∀ i < hw.MAX_PT_LEN, i ∉ pages → (pt i).valid = false ∧ (old i).valid = false

/-- Unless `allocate_frame` fails, `LoadProgram` loads such a program over the old table, or refuses it. -/
theorem loadProgram_loads (hpfn : hw.NUM_VPN ≤ 2 ^ 24) (hover : LoadsOver hw req proc.region1_pt)
    (h : loadProgram hw m proc req = some (rc, m', proc')) (hroom : m'.exhausted = false) :
    m' = m ∧ proc'.region1_pt = proc.region1_pt ∨
      ∃ pages, LoadedOver hw m m' proc.region1_pt proc'.region1_pt pages := by
  by_cases href : req.Refused hw
  · rw [loadProgram_refused href] at h
    simp only [Option.some.injEq, Prod.mk.injEq] at h
    obtain ⟨-, rfl, rfl⟩ := h
    exact Or.inl ⟨rfl, rfl⟩
  obtain ⟨li, hli⟩ := header_of_not_refused href
  obtain ⟨hapart, hcovers⟩ := hover li hli href
  obtain ⟨-, m₁, pt₁, m₂, pt₂, pt₃, h₁, h₂, h₃, hpt⟩ := (loadProgram_loops hli href h).2 hroom
  have hin := inTable_ofLoops h₁ h₂ h₃
  have htable := BuiltTable.ofLoops h₁ h₂ h₃
  obtain ⟨htakes, -⟩ := image_takes hpfn hapart h₁ h₂ h₃
  -- the protection of the text is of no matter
  have hpfns : ∀ i, (proc'.region1_pt i).pfn = (pt₃ i).pfn := by
    intro i
    rcases hpt with hpt | hpt
    · rw [hpt]
    · rw [hpt, protectText_pfn]
  have hvalids : ∀ i, (proc'.region1_pt i).valid =
      (protectText pt₃ (li.text_pg1 hw) (li.textTurns hw) i).valid := by
    intro i
    rcases hpt with hpt | hpt
    · rw [hpt, protectText_valid]
    · rw [hpt]
  refine Or.inr ⟨imagePages hw li req, ?_, fun i hi => ?_, fun i hi hnot => ?_⟩
  · simpa only [hpfns] using htakes
  · obtain ⟨hlt, himage⟩ := (mem_imagePages hin).1 hi
    exact ⟨hlt, (hvalids i).trans (htable.image i hlt himage)⟩
  · have hnotImage : ¬ li.ImagePage hw req i := fun himage => hnot ((mem_imagePages hin).2 ⟨hi, himage⟩)
    have hold : (proc.region1_pt i).valid = false := by
      by_contra hv
      exact hnotImage (hcovers i hi (by simpa using hv))
    refine ⟨?_, hold⟩
    rw [hvalids, htable.old i hi hnotImage]
    exact hold

/-! ## SysBrk -/

/-- The growing loop takes a frame for each page that has none. -/
theorem growUserHeap_gets (hpfn : hw.NUM_VPN ≤ 2 ^ 24) {ok : Bool}
    (h : growUserHeap hw m pt lo n = some (ok, m', pt')) :
    Gets hw m m' ((neededPages hw pt lo n).map fun i => (pt' i).pfn) ∧
      (m'.exhausted = false → ∀ i ∈ neededPages hw pt lo n, i < hw.MAX_PT_LEN ∧ (pt' i).valid = true) ∧
      ∀ i, i ∉ neededPages hw pt lo n → pt' i = pt i := by
  induction n generalizing m pt lo with
  | zero =>
    obtain ⟨-, hrest⟩ := Prod.mk.inj (Option.some.inj h)
    obtain ⟨rfl, rfl⟩ := Prod.mk.inj hrest
    exact ⟨.refl hw m, by simp [neededPages_zero], fun _ _ => rfl⟩
  | succ n ih =>
    unfold growUserHeap at h
    split at h
    · cases h
    rename_i hlo
    split at h
    · rename_i hv
      rw [neededPages_of_valid (by omega) hv]
      exact ih h
    rename_i hv
    have hinvalid : (pt lo).valid = false := by simpa using hv
    rw [neededPages_of_invalid hinvalid]
    generalize halloc : allocateFrame hw m = r at h
    obtain ⟨pfn, m₁⟩ := r
    simp only at h
    rcases allocateFrame_gets halloc with ⟨f, rfl, hf, hgets⟩ | ⟨rfl, hroom, hgets⟩
    · rw [if_neg (by unfold ERROR; omega)] at h
      obtain ⟨hgets', hvalid, hkept⟩ := ih h
      rw [neededPages_update (by omega)] at hgets' hvalid hkept
      -- the rest of the loop leaves the first entry alone
      have hfirst : pt' lo = ⟨true, .readWrite, f⟩ := by
        rw [hkept lo fun hmem => by
          have := List.mem_range'_1.1 (List.mem_of_mem_filter hmem)
          omega]
        rw [Function.update_self, Pte.pfnOfInt_natCast (lt_of_lt_of_le hf hpfn)]
      refine ⟨?_, fun hroom i hi => ?_, fun i hi => ?_⟩
      · rw [List.map_cons, hfirst]
        exact hgets.trans hgets'
      · rcases List.mem_cons.1 hi with rfl | hi
        · exact ⟨by omega, by rw [hfirst]⟩
        · exact hvalid hroom i hi
      · rw [List.mem_cons, not_or] at hi
        rw [hkept i hi.2, Function.update_of_ne hi.1]
    · rw [if_pos rfl] at h
      obtain ⟨-, hrest⟩ := Prod.mk.inj (Option.some.inj h)
      obtain ⟨rfl, rfl⟩ := Prod.mk.inj hrest
      exact ⟨hgets _, fun hno => absurd (hroom.symm.trans hno) (by simp), fun _ _ => rfl⟩

/-! ## SysExit -/

theorem freeProcessMemory_frame : freeProcessMemory hw m proc =
    { m with frame_bitMap := (freeProcessMemory hw m proc).frame_bitMap } := by
  unfold freeProcessMemory
  rw [freeUserspace_frame]
  generalize (freeUserspace hw m proc.region1_pt).frame_bitMap = bits
  induction List.range hw.kernelStackPages generalizing bits with
  | nil => rfl
  | cons i is ih =>
    rw [List.foldl_cons, freeFrame_frame, ih]

/-- An exit frees the frames of the valid entries and of the kernel stack. -/
theorem freeProcessMemory_bits : (freeProcessMemory hw m proc).frame_bitMap f = true ↔
    m.frame_bitMap f = true ∧ ¬ (f < hw.NUM_VPN ∧
      ((∃ i < hw.MAX_PT_LEN, (proc.region1_pt i).valid = true ∧ (proc.region1_pt i).pfn = f) ∨
        ∃ i < hw.kernelStackPages, (proc.kernel_stack i).pfn = f)) := by
  have hstack : ∀ m₁ : Memory, ((List.range hw.kernelStackPages).foldl
      (fun m i => freeFrame hw m (proc.kernel_stack i).pfn) m₁).frame_bitMap f = true ↔
      m₁.frame_bitMap f = true ∧ ¬ (f < hw.NUM_VPN ∧ ∃ i < hw.kernelStackPages, (proc.kernel_stack i).pfn = f) := by
    intro m₁
    generalize hw.kernelStackPages = n
    induction n with
    | zero => simp
    | succ n ih =>
      rw [List.range_succ, List.foldl_append]
      simp only [List.foldl_cons, List.foldl_nil]
      rw [freeFrame_bits, ih, Nat.exists_lt_succ_right]
      generalize (∃ i < n, (proc.kernel_stack i).pfn = f) = held
      tauto
  unfold freeProcessMemory
  rw [hstack, freeUserspace_bits]
  generalize (∃ i < hw.MAX_PT_LEN, (proc.region1_pt i).valid = true ∧ (proc.region1_pt i).pfn = f) = held
  generalize (∃ i < hw.kernelStackPages, (proc.kernel_stack i).pfn = f) = stacked
  tauto

/-! ## CopyPageTable -/

/-- The turns of `CopyPageTable` below page `n`. -/
theorem copyPages_gets (hpfn : hw.NUM_VPN ≤ 2 ^ 24) {st st' : Memory × (Nat → Pte)}
    (h : (List.range n).foldl (copyPage hw parent_pt) st = st') :
    Gets hw st.1 st'.1 (((List.range n).filter fun i => (parent_pt i).valid).map fun i => (st'.2 i).pfn) ∧
      (∀ i < n, (parent_pt i).valid = true → (st'.2 i).valid = true) ∧
      ∀ i, n ≤ i ∨ (parent_pt i).valid = false → st'.2 i = st.2 i := by
  induction n generalizing st' with
  | zero =>
    subst h
    exact ⟨.refl hw _, by simp, fun _ _ => rfl⟩
  | succ n ih =>
    rw [List.range_succ, List.foldl_append] at h
    obtain ⟨hgets, hvalid, hkept⟩ := ih rfl
    generalize (List.range n).foldl (copyPage hw parent_pt) st = st₁ at h hgets hvalid hkept
    simp only [List.foldl_cons, List.foldl_nil] at h
    unfold copyPage at h
    rw [List.range_succ, List.filter_append, List.filter_singleton]
    cases hn : (parent_pt n).valid with
    | false =>
      rw [hn, if_neg (by simp)] at h
      subst h
      refine ⟨by simpa using hgets, fun i hi hv => ?_, fun i hi => hkept i (hi.imp (by omega) id)⟩
      refine hvalid i (lt_of_le_of_ne (by omega) ?_) hv
      rintro rfl
      rw [hn] at hv
      cases hv
    | true =>
      rw [hn, if_pos rfl] at h
      generalize halloc : allocateFrame hw st₁.1 = r at h
      obtain ⟨pfn, m₁⟩ := r
      simp only at h
      subst h
      -- the entries of the pages before stay as they are
      have hother : ∀ i, i ≠ n → Function.update st₁.2 n ⟨true, (parent_pt n).prot, Pte.pfnOfInt pfn⟩ i =
          st₁.2 i := fun i hi => Function.update_of_ne hi _ _
      have hold : ((List.range n).filter fun i => (parent_pt i).valid).map (fun i =>
          (Function.update st₁.2 n ⟨true, (parent_pt n).prot, Pte.pfnOfInt pfn⟩ i).pfn) =
          ((List.range n).filter fun i => (parent_pt i).valid).map fun i => (st₁.2 i).pfn := by
        refine List.map_congr_left fun i hi => ?_
        have hlt := List.mem_range.1 (List.mem_of_mem_filter hi)
        rw [hother i (by omega)]
      refine ⟨?_, fun i hi hv => ?_, fun i hi => ?_⟩
      · rw [List.map_append, hold]
        refine hgets.trans ?_
        rcases allocateFrame_gets halloc with ⟨f, rfl, hf, htakes⟩ | ⟨-, -, htakes⟩
        · have hpfn' : Pte.pfnOfInt (f : Int) = f := Pte.pfnOfInt_natCast (lt_of_lt_of_le hf hpfn)
          simp only [cond_true, List.map_cons, List.map_nil, Function.update_self, hpfn']
          exact htakes.remapped ⟨rfl, rfl, rfl⟩
        · exact (htakes _).remapped ⟨rfl, rfl, rfl⟩
      · by_cases e : i = n
        · subst e
          simp
        · simp only [hother i e]
          exact hvalid i (by omega) hv
      · have hne : i ≠ n := by
          rintro rfl
          rcases hi with hi | hi
          · omega
          · rw [hn] at hi
            cases hi
        simp only [hother i hne]
        exact hkept i (hi.imp (by omega) id)

/-! ## The kernel stack -/

/-- `InitializeKernelStack` halts when there is no frame, so it leaves no trace of a failure. -/
theorem allocateStack_entries (h : allocateStack hw m pt vpn n = some (m', pt')) :
    m'.exhausted = m.exhausted ∧ (∀ i < vpn, pt' i = pt i) ∧ ∀ i < n, (pt' (vpn + i)).valid = true := by
  induction n generalizing m pt vpn with
  | zero =>
    obtain ⟨rfl, rfl⟩ := Prod.mk.inj (Option.some.inj h)
    exact ⟨rfl, fun _ _ => rfl, by simp⟩
  | succ n ih =>
    unfold allocateStack at h
    generalize halloc : allocateFrame hw m = r at h
    obtain ⟨pfn, m₁⟩ := r
    simp only at h
    rcases allocateFrame_cases halloc with ⟨f, rfl, -, -, rfl⟩ | ⟨rfl, -, -⟩
    · rw [if_neg (by unfold ERROR; omega)] at h
      obtain ⟨hroom, hkept, hvalid⟩ := ih h
      refine ⟨hroom, fun i hi => ?_, fun i hi => ?_⟩
      · rw [hkept i (by omega)]
        exact Function.update_of_ne (by omega) _ _
      · cases i with
        | zero =>
          rw [Nat.add_zero, hkept vpn (by omega)]
          simp [mapPage]
        | succ i =>
          have hnext := hvalid i (by omega)
          rwa [Nat.add_right_comm] at hnext
    · cases h

theorem allocateStack_gets (hpfn : hw.NUM_VPN ≤ 2 ^ 24) (h : allocateStack hw m pt vpn n = some (m', pt')) :
    Gets hw m m' ((List.range n).map fun i => (pt' (vpn + i)).pfn) := by
  have henough : n ≤ (freeFrames hw m).card := by
    by_contra hshort
    rw [allocateStack_short (by omega)] at h
    cases h
  obtain ⟨m₁, pt₁, h₁, htook, -⟩ : ∃ m₁ pt₁, allocateStack hw m pt vpn n = some (m₁, pt₁) ∧
      Took hw m (fun _ _ => 0) m₁ (fun _ _ => 0) ((List.range n).map fun i => (pt₁ (vpn + i)).pfn) ∧
      ∀ i, i < vpn → pt₁ i = pt i :=
    allocateStack_took hpfn henough fun _ _ => 0
  obtain ⟨rfl, rfl⟩ := Prod.mk.inj (Option.some.inj (h₁.symm.trans h))
  exact ⟨htook.vm, fun hroom => ⟨(allocateStack_entries h).1.symm.trans hroom, htook.toTakes⟩⟩

/-- `KCCopy` takes no frame, and makes the entries valid. -/
theorem copyKernelStack_entries {stack stack' : Nat → Pte} (h : copyKernelStack hw m stack = (m', stack')) :
    SameBits m m' ∧ ∀ i < hw.kernelStackPages, stack' i = ⟨true, .readWrite, (stack i).pfn⟩ := by
  have hturns : ∀ n, SameBits m ((List.range n).foldl (copyStackPage hw) (m, stack)).1 ∧
      ∀ i, ((List.range n).foldl (copyStackPage hw) (m, stack)).2 i =
        if i < n then ⟨true, .readWrite, (stack i).pfn⟩ else stack i := by
    intro n
    induction n with
    | zero => exact ⟨.refl m, fun _ => by simp⟩
    | succ n ih =>
      rw [List.range_succ, List.foldl_append]
      simp only [List.foldl_cons, List.foldl_nil]
      generalize (List.range n).foldl (copyStackPage hw) (m, stack) = st at ih
      obtain ⟨⟨hbits, hvm, hroom⟩, hentries⟩ := ih
      refine ⟨⟨hbits, hvm, hroom⟩, fun i => ?_⟩
      unfold copyStackPage
      simp only
      by_cases e : i = n
      · subst e
        simp [hentries]
      · rw [Function.update_of_ne e, hentries]
        exact if_congr (by omega) rfl rfl
  obtain ⟨hsame, hentries⟩ := hturns hw.kernelStackPages
  unfold copyKernelStack at h
  rw [h] at hsame hentries
  exact ⟨hsame, fun i hi => (hentries i).trans (if_pos hi)⟩

/-! ## SysFork -/

/-- A fork takes a frame for each page of the parent and each page of the kernel stack. -/
theorem forkMemory_gets {k : Kernel} {stack : Nat → Pte} (hpfn : hw.NUM_VPN ≤ 2 ^ 24)
    (hvm : k.mem.vm_enabled = true) (h : ForkMemory hw k m pt stack) :
    Gets hw k.mem m ((validPages hw (k.pcb k.current_process).region1_pt).map (fun i => (pt i).pfn) ++
        (List.range hw.kernelStackPages).map fun i => (stack i).pfn) ∧
      (∀ i < hw.MAX_PT_LEN, (pt i).valid = ((k.pcb k.current_process).region1_pt i).valid) ∧
      ∀ i < hw.kernelStackPages, (stack i).valid = true := by
  obtain ⟨m₁, m₂, stack₀, hcopy, hinit, hkc⟩ := h.run
  obtain ⟨hpages, hvalid, hinvalid⟩ := copyPages_gets hpfn hcopy
  simp only at hpages hvalid hinvalid
  unfold initializeKernelStack at hinit
  rw [if_pos (hpages.vm.trans hvm)] at hinit
  obtain ⟨hsame, hentries⟩ := copyKernelStack_entries hkc
  have hstack := (allocateStack_gets hpfn hinit).remapped hsame
  have hframes : (List.range hw.kernelStackPages).map (fun i => (stack i).pfn) =
      (List.range hw.kernelStackPages).map fun i => (stack₀ (0 + i)).pfn := by
    refine List.map_congr_left fun i hi => ?_
    rw [hentries i (List.mem_range.1 hi), Nat.zero_add]
  refine ⟨?_, fun i hi => ?_, fun i hi => by rw [hentries i hi]⟩
  · rw [hframes]
    exact hpages.trans hstack
  · cases hv : ((k.pcb k.current_process).region1_pt i).valid with
    | true => exact hvalid i hi hv
    | false => rw [hinvalid i (Or.inr hv)]; rfl

end Yalnix
