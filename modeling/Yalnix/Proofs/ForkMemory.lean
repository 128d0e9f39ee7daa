import Yalnix.ForkMemory
import Yalnix.Proofs.Frames
import Yalnix.Proofs.TrapStep
import Yalnix.Paging.Proofs.Memory

/-!
# A fork copies every page

Each turn of `CopyPageTable` takes a frame that was free and fills it with the bytes of a page of the
parent; the turns of `KCCopy` fill the frames of the new kernel stack. Whatever was in use stays as it was.
-/

namespace Yalnix

open Paging

variable {hw : Hardware} {k : Kernel} {m m' m₁ : Memory} {frames frames' frames₁ : Frames UInt8}
  {live pt parent_pt : Nat → Pte} {st : CopyState} {fs gs : List Nat} {f g i n vpn : Nat}
  {parent child : PcbPtr}

/-! ## Frames that are taken -/

/-- Between `m` and `m'` the frames `fs` have been taken, and nothing else has changed but the page at
`TEMP_MAPPING_VADDR`. -/
structure Took (hw : Hardware) (m : Memory) (frames : Frames UInt8) (m' : Memory)
    (frames' : Frames UInt8) (fs : List Nat) : Prop extends Takes hw m m' fs where
  bytes : ∀ f, f ∉ fs → frames' f = frames f
  region0 : ∀ vpn, vpn ≠ hw.tempMappingPage → m'.region0_pt vpn = m.region0_pt vpn
  vm : m'.vm_enabled = m.vm_enabled

namespace Took

theorem refl (hw : Hardware) (m : Memory) (frames : Frames UInt8) : Took hw m frames m frames [] where
  toTakes := .refl hw m
  bytes _ _ := rfl
  region0 _ _ := rfl
  vm := rfl

theorem trans (h : Took hw m frames m₁ frames₁ fs) (h' : Took hw m₁ frames₁ m' frames' gs) :
    Took hw m frames m' frames' (fs ++ gs) where
  toTakes := h.toTakes.trans h'.toTakes
  bytes f hf := by
    rw [List.mem_append, not_or] at hf
    rw [h'.bytes f hf.2, h.bytes f hf.1]
  region0 vpn hvpn := (h'.region0 vpn hvpn).trans (h.region0 vpn hvpn)
  vm := h'.vm.trans h.vm

end Took

/-- With a free frame, `allocate_frame` takes one. -/
theorem allocateFrame_took (hfree : 0 < (freeFrames hw m).card) (frames : Frames UInt8) :
    ∃ (f : Nat) (m' : Memory), allocateFrame hw m = ((f : Int), m') ∧ Took hw m frames m' frames [f] := by
  generalize halloc : allocateFrame hw m = r
  obtain ⟨pfn, m'⟩ := r
  rcases allocateFrame_cases halloc with ⟨f, rfl, hf, hbit, rfl⟩ | ⟨-, hfull, -⟩
  · exact ⟨f, _, rfl, takes_one hf hbit, fun _ _ => rfl, fun _ _ => rfl, rfl⟩
  · rw [freeFrames_full hfull, Finset.card_empty] at hfree
    omega

/-! ## The copy through the temporary mapping -/

theorem tempMappingPage_lt (hw : Hardware) : hw.tempMappingPage < hw.KSTACK_START_PAGE := by
  have := hw.stack_fits
  unfold Hardware.tempMappingPage Hardware.KSTACK_START_PAGE
  omega

theorem KSTACK_START_PAGE_add (hw : Hardware) :
    hw.KSTACK_START_PAGE + hw.kernelStackPages = hw.MAX_PT_LEN := by
  have := hw.stack_fits
  unfold Hardware.KSTACK_START_PAGE
  omega

/-- The temporary mapping is there. -/
theorem space_temp (hf : f < 2 ^ 24) :
    (setupTempMapping hw m f).space hw live hw.tempMappingPage = some f := by
  have hlt := tempMappingPage_lt hw
  have hstart := KSTACK_START_PAGE_add hw
  unfold Memory.space
  rw [if_pos (by omega)]
  simp [setupTempMapping, Pte.frame, Pte.pfnOfInt_natCast hf]

/-- The other pages stay where they are. -/
theorem space_other {pfn : Int} (hvpn : vpn ≠ hw.tempMappingPage) :
    (setupTempMapping hw m pfn).space hw live vpn = m.space hw live vpn := by
  unfold Memory.space setupTempMapping
  simp only
  rw [Function.update_of_ne hvpn]

/-- A frame gets the bytes of another, through the page at `TEMP_MAPPING_VADDR`. -/
theorem copyThroughTemp_eq (frames : Frames UInt8) (hf : f < 2 ^ 24) (hvpn : vpn ≠ hw.tempMappingPage)
    (hsrc : m.space hw live vpn = some g) (hne : f ≠ g) : copyThroughTemp hw m live f vpn frames =
      some (removeTempMapping hw (setupTempMapping hw m f),
        Function.update frames f (overlay hw.pageBytes (frames g) (frames f))) := by
  unfold copyThroughTemp
  simp only
  rw [copy_page (space_temp hf) ((space_other hvpn).trans hsrc) hne le_rfl]
  rfl

/-- A frame that was taken may be filled. -/
theorem Took.fill (h : Took hw m frames m' frames' fs) (hf : f ∈ fs) (pfn : Int) (c : Nat → UInt8) :
    Took hw m frames (removeTempMapping hw (setupTempMapping hw m' pfn)) (Function.update frames' f c) fs where
  toTakes := ⟨h.nodup, h.free, h.bits⟩
  bytes g hg := by
    have hne : g ≠ f := fun e => hg (e ▸ hf)
    rw [Function.update_of_ne hne]
    exact h.bytes g hg
  region0 vpn hvpn := by
    simp only [removeTempMapping, setupTempMapping, Function.update_of_ne hvpn]
    exact h.region0 vpn hvpn
  vm := h.vm

/-! ## CopyPageTable -/

/-- One page: its bytes are in a fresh frame. -/
theorem copyPageBytes_some (hpfn : hw.NUM_VPN ≤ 2 ^ 24) (hi : i < hw.MAX_PT_LEN)
    (hvalid : (parent_pt i).valid = true) (hused : st.mem.frame_bitMap (parent_pt i).pfn = true)
    (hfree : 0 < (freeFrames hw st.mem).card) :
    ∃ f m' frames', copyPageBytes hw parent_pt parent_pt st i =
        some ⟨m', Function.update st.pt i ⟨true, (parent_pt i).prot, f⟩, frames'⟩ ∧
      copyPage hw parent_pt (st.mem, st.pt) i =
        (m', Function.update st.pt i ⟨true, (parent_pt i).prot, f⟩) ∧
      Took hw st.mem st.frames m' frames' [f] ∧
      ∀ o < hw.pageBytes, frames' f o = st.frames (parent_pt i).pfn o := by
  obtain ⟨f, m₁, halloc, htook⟩ := allocateFrame_took hfree st.frames
  have hfresh := mem_freeFrames.1 (htook.free f (List.mem_singleton_self f))
  have hne : f ≠ (parent_pt i).pfn := by
    intro e
    rw [← e, hfresh.2] at hused
    cases hused
  have hlt := tempMappingPage_lt hw
  have hstart := KSTACK_START_PAGE_add hw
  have hsrc : m₁.space hw parent_pt (i + hw.MAX_PT_LEN) = some (parent_pt i).pfn := by
    unfold Memory.space
    rw [if_neg (by omega), if_pos (by omega), Nat.add_sub_cancel, Pte.frame, if_pos hvalid]
  have hf : f < 2 ^ 24 := lt_of_lt_of_le hfresh.1 hpfn
  have hcopy := copyThroughTemp_eq st.frames hf (by omega) hsrc hne
  refine ⟨f, removeTempMapping hw (setupTempMapping hw m₁ f), _, ?_, ?_,
    htook.fill (List.mem_singleton_self f) f (overlay hw.pageBytes (st.frames (parent_pt i).pfn) (st.frames f)),
    ?_⟩
  · unfold copyPageBytes
    rw [if_pos hvalid, halloc]
    simp only [Option.bind_eq_bind]
    rw [hcopy, Pte.pfnOfInt_natCast hf]
    rfl
  · unfold copyPage
    rw [if_pos hvalid, halloc]
    simp only
    rw [Pte.pfnOfInt_natCast hf]
  · intro o ho
    rw [Function.update_self, overlay_of_lt ho]

/-- The pages below `n` have been copied from `parent_pt`, since the state `st`. -/
structure Copied (hw : Hardware) (parent_pt : Nat → Pte) (st : CopyState) (n : Nat) (st' : CopyState) :
    Prop where
  took : Took hw st.mem st.frames st'.mem st'.frames
    (((List.range n).filter fun i => (parent_pt i).valid).map fun i => (st'.pt i).pfn)
  entry : ∀ i < n, (parent_pt i).valid = true →
    st'.pt i = ⟨true, (parent_pt i).prot, (st'.pt i).pfn⟩
  bytes : ∀ i < n, (parent_pt i).valid = true → ∀ o < hw.pageBytes,
    st'.frames (st'.pt i).pfn o = st.frames (parent_pt i).pfn o
  skipped : ∀ i, n ≤ i ∨ (parent_pt i).valid = false → st'.pt i = st.pt i

namespace Copied

theorem zero (st : CopyState) : Copied hw parent_pt st 0 st where
  took := Took.refl hw _ _
  entry := by simp
  bytes := by simp
  skipped _ _ := rfl

variable {st' st'' : CopyState}

/-- An entry that is not valid is skipped. -/
theorem skip (h : Copied hw parent_pt st n st') (hvalid : (parent_pt n).valid = false) :
    Copied hw parent_pt st (n + 1) st' where
  took := by
    rw [List.range_succ, List.filter_append, List.filter_singleton, hvalid]
    simpa using h.took
  entry i hi hv := by
    refine h.entry i ?_ hv
    by_contra hn
    obtain rfl : i = n := by omega
    rw [hvalid] at hv
    cases hv
  bytes i hi hv := by
    refine h.bytes i ?_ hv
    by_contra hn
    obtain rfl : i = n := by omega
    rw [hvalid] at hv
    cases hv
  skipped i hi := by
    rcases hi with hi | hi
    · exact h.skipped i (Or.inl (by omega))
    · exact h.skipped i (Or.inr hi)

/-- A valid entry gets a fresh frame. -/
theorem snoc (h : Copied hw parent_pt st n st') (hvalid : (parent_pt n).valid = true)
    (hused : st.mem.frame_bitMap (parent_pt n).pfn = true)
    (htook : Took hw st'.mem st'.frames m' frames' [f])
    (hbytes : ∀ o < hw.pageBytes, frames' f o = st'.frames (parent_pt n).pfn o) :
    Copied hw parent_pt st (n + 1) ⟨m', Function.update st'.pt n ⟨true, (parent_pt n).prot, f⟩, frames'⟩ := by
  have hnew : ∀ i < n, Function.update st'.pt n ⟨true, (parent_pt n).prot, f⟩ i = st'.pt i := by
    intro i hi
    exact Function.update_of_ne (by omega) _ _
  -- the frames taken before are not free any more
  have hold : ∀ i < n, (parent_pt i).valid = true → (st'.pt i).pfn ≠ f := by
    intro i hi hv e
    have hmem : f ∈ ((List.range n).filter fun i => (parent_pt i).valid).map fun i => (st'.pt i).pfn := by
      rw [← e]
      exact List.mem_map_of_mem (List.mem_filter.2 ⟨List.mem_range.2 hi, hv⟩)
    exact (h.took.free_iff.1 (htook.free f (List.mem_singleton_self f))).2 hmem
  refine ⟨?_, ?_, ?_, ?_⟩
  · have hall := h.took.trans htook
    rw [List.range_succ, List.filter_append, List.filter_singleton, hvalid, List.map_append]
    convert hall using 1
    refine congrArg₂ _ (List.map_congr_left ?_) ?_
    · intro i hi
      have hlt := List.mem_range.1 (List.mem_of_mem_filter hi)
      exact congrArg Pte.pfn (hnew i hlt)
    · simp
  · intro i hi hv
    by_cases e : i = n
    · subst e
      simp
    · simp only
      rw [hnew i (by omega)]
      exact h.entry i (by omega) hv
  · intro i hi hv o ho
    by_cases e : i = n
    · subst e
      simp only [Function.update_self]
      rw [hbytes o ho, h.took.bytes]
      intro hmem
      have hfree := (mem_freeFrames.1 (h.took.free _ hmem)).2
      rw [hused] at hfree
      cases hfree
    · simp only
      rw [hnew i (by omega), htook.bytes _ (by simpa using hold i (by omega) hv)]
      exact h.bytes i (by omega) hv o ho
  · intro i hi
    have hne : i ≠ n := by
      rintro rfl
      rcases hi with hi | hi
      · omega
      · rw [hvalid] at hi
        cases hi
    simp only
    rw [Function.update_of_ne hne]
    rcases hi with hi | hi
    · exact h.skipped i (Or.inl (by omega))
    · exact h.skipped i (Or.inr hi)

end Copied

/-- The loop of `CopyPageTable`, up to page `n`. -/
theorem copyPageTable_copied (hpfn : hw.NUM_VPN ≤ 2 ^ 24) (hn : n ≤ hw.MAX_PT_LEN)
    (hused : ∀ i < n, (parent_pt i).valid = true → st.mem.frame_bitMap (parent_pt i).pfn = true)
    (hfree : ((List.range n).filter fun i => (parent_pt i).valid).length ≤ (freeFrames hw st.mem).card) :
    ∃ st', (List.range n).foldlM (copyPageBytes hw parent_pt parent_pt) st = some st' ∧
      (List.range n).foldl (copyPage hw parent_pt) (st.mem, st.pt) = (st'.mem, st'.pt) ∧
      Copied hw parent_pt st n st' := by
  induction n with
  | zero => exact ⟨st, rfl, rfl, .zero st⟩
  | succ n ih =>
    rw [List.range_succ, List.filter_append, List.length_append, List.filter_singleton] at hfree
    obtain ⟨st', hbytes, hplain, hcopied⟩ := ih (by omega) (fun i hi => hused i (by omega)) (by omega)
    rw [List.range_succ, List.foldlM_append, hbytes, List.foldl_append, hplain]
    simp only [Option.bind_eq_bind, Option.bind_some, List.foldlM_cons, List.foldlM_nil, List.foldl_cons,
      List.foldl_nil]
    cases hvalid : (parent_pt n).valid with
    | false =>
      refine ⟨st', ?_, ?_, hcopied.skip hvalid⟩
      · simp [copyPageBytes, hvalid]
      · simp [copyPage, hvalid]
    | true =>
      have hcard := hcopied.took.card
      rw [List.length_map] at hcard
      have hn' := hused n (by omega) hvalid
      rw [hvalid] at hfree
      have hstill : st'.mem.frame_bitMap (parent_pt n).pfn = true := (hcopied.took.bits _).2 (Or.inl hn')
      have hpos : 0 < (freeFrames hw st'.mem).card := by
        rw [cond_true, List.length_singleton] at hfree
        omega
      obtain ⟨f, m', frames', hb, hp, htook, hsame⟩ :=
        copyPageBytes_some hpfn (by omega) hvalid hstill hpos
      refine ⟨_, ?_, ?_, hcopied.snoc hvalid hn' htook hsame⟩
      · rw [hb]
        rfl
      · rw [hp]

/-! ## The kernel stack -/

/-- `InitializeKernelStack` takes a frame for each entry. -/
theorem allocateStack_took (hpfn : hw.NUM_VPN ≤ 2 ^ 24) (hfree : n ≤ (freeFrames hw m).card)
    (frames : Frames UInt8) : ∃ m' pt', allocateStack hw m pt vpn n = some (m', pt') ∧
      Took hw m frames m' frames ((List.range n).map fun i => (pt' (vpn + i)).pfn) ∧
      ∀ i, i < vpn → pt' i = pt i := by
  induction n generalizing m pt vpn with
  | zero => exact ⟨m, pt, rfl, .refl hw m frames, fun _ _ => rfl⟩
  | succ n ih =>
    have hpos : 0 < (freeFrames hw m).card := by omega
    obtain ⟨f, m₁, halloc, htook⟩ := allocateFrame_took hpos frames
    have hf := mem_freeFrames.1 (htook.free f (List.mem_singleton_self f))
    have hpfn' : Pte.pfnOfInt (f : Int) = f := Pte.pfnOfInt_natCast (lt_of_lt_of_le hf.1 hpfn)
    have hne : (f : Int) ≠ ERROR := by
      unfold ERROR
      omega
    -- `map_page` marks a frame that is marked already
    have hmark : (mapPage m₁ pt vpn f .readWrite).1 = m₁ := by
      have hset : m₁.frame_bitMap f = true := (htook.bits f).2 (Or.inr (List.mem_singleton_self f))
      unfold mapPage
      simp only
      rw [hpfn', ← hset, Function.update_eq_self]
    have hcard := htook.card
    rw [List.length_singleton] at hcard
    have hleft : n ≤ (freeFrames hw m₁).card := by omega
    obtain ⟨m', pt', hloop, htook', hkept⟩ :=
      @ih m₁ (mapPage m₁ pt vpn f .readWrite).2 (vpn + 1) hleft
    refine ⟨m', pt', ?_, ?_, ?_⟩
    · rw [allocateStack, halloc]
      simp only
      rw [if_neg hne, hmark]
      exact hloop
    · have hfirst : (pt' (vpn + 0)).pfn = f := by
        rw [Nat.add_zero, hkept vpn (by omega)]
        simp [mapPage, hpfn']
      rw [List.range_succ_eq_map, List.map_cons, hfirst, List.map_map]
      have hall := htook.trans htook'
      convert hall using 1
      rw [List.singleton_append]
      congr 1
      refine List.map_congr_left ?_
      intro i _
      show (pt' (vpn + (i + 1))).pfn = (pt' (vpn + 1 + i)).pfn
      rw [Nat.add_right_comm, Nat.add_assoc]
    · intro i hi
      rw [hkept i (by omega)]
      simp [mapPage, show i ≠ vpn by omega]

/-- The first `n` pages of the kernel stack have been copied into the frames of `stack`, which together with
the other frames of `fs` have been taken since `m₀`. -/
structure CopiedStack (hw : Hardware) (m₀ : Memory) (frames₀ frames : Frames UInt8) (stack : Nat → Pte)
    (fs : List Nat) (n : Nat) (st : CopyState) : Prop where
  took : Took hw m₀ frames₀ st.mem st.frames fs
  pfn : ∀ i, (st.pt i).pfn = (stack i).pfn
  entry : ∀ i < n, (st.pt i).valid = true ∧ (st.pt i).prot = .readWrite
  bytes : ∀ i < n, ∀ o < hw.pageBytes,
    st.frames (stack i).pfn o = frames₀ (m₀.region0_pt (hw.KSTACK_START_PAGE + i)).pfn o
  kept : ∀ f, (∀ i < hw.kernelStackPages, f ≠ (stack i).pfn) → st.frames f = frames f

/-- What the frames of the new kernel stack have to be, to be filled. -/
structure StackFrames (hw : Hardware) (m₀ : Memory) (stack : Nat → Pte) (fs : List Nat) : Prop where
  taken : ∀ i < hw.kernelStackPages, (stack i).pfn ∈ fs
  small : ∀ i < hw.kernelStackPages, (stack i).pfn < 2 ^ 24
  apart : ∀ i < hw.kernelStackPages, ∀ j < hw.kernelStackPages, (stack i).pfn = (stack j).pfn → i = j
  source : ∀ i < hw.kernelStackPages, (m₀.region0_pt (hw.KSTACK_START_PAGE + i)).valid = true ∧
    m₀.frame_bitMap (m₀.region0_pt (hw.KSTACK_START_PAGE + i)).pfn = true

/-- One turn of `KCCopy`. -/
theorem CopiedStack.snoc {m₀ : Memory} {frames₀ : Frames UInt8} {stack : Nat → Pte}
    (live : Nat → Pte) (h : CopiedStack hw m₀ frames₀ frames stack fs n st) (hstack : StackFrames hw m₀ stack fs)
    (hn : n < hw.kernelStackPages) : ∃ st', copyStackPageBytes hw live st n = some st' ∧
      copyStackPage hw (st.mem, st.pt) n = (st'.mem, st'.pt) ∧
      CopiedStack hw m₀ frames₀ frames stack fs (n + 1) st' := by
  obtain ⟨hvalid, hused⟩ := hstack.source n hn
  have hlt := tempMappingPage_lt hw
  have hend := KSTACK_START_PAGE_add hw
  have hfs := hstack.taken n hn
  have hg : (m₀.region0_pt (hw.KSTACK_START_PAGE + n)).pfn ∉ fs := by
    intro hmem
    rw [(mem_freeFrames.1 (h.took.free _ hmem)).2] at hused
    cases hused
  have hne : (stack n).pfn ≠ (m₀.region0_pt (hw.KSTACK_START_PAGE + n)).pfn := fun e => hg (e ▸ hfs)
  have hsrc : st.mem.space hw live (hw.KSTACK_START_PAGE + n) =
      some (m₀.region0_pt (hw.KSTACK_START_PAGE + n)).pfn := by
    unfold Memory.space
    rw [if_pos (by omega), h.took.region0 _ (by omega), Pte.frame, if_pos hvalid]
  have hcopy := copyThroughTemp_eq st.frames (hstack.small n hn) (by omega) hsrc hne
  refine ⟨⟨removeTempMapping hw (setupTempMapping hw st.mem (stack n).pfn),
    Function.update st.pt n ⟨true, .readWrite, (stack n).pfn⟩,
    Function.update st.frames (stack n).pfn
      (overlay hw.pageBytes (st.frames (m₀.region0_pt (hw.KSTACK_START_PAGE + n)).pfn)
        (st.frames (stack n).pfn))⟩, ?_, ?_, h.took.fill hfs _ _, ?_, ?_, ?_, ?_⟩
  · unfold copyStackPageBytes
    simp only
    rw [h.pfn n, hcopy]
    rfl
  · unfold copyStackPage
    simp only
    rw [h.pfn n]
  · intro i
    by_cases e : i = n
    · subst e
      simp
    · simp only
      rw [Function.update_of_ne e]
      exact h.pfn i
  · intro i hi
    by_cases e : i = n
    · subst e
      simp
    · simp only
      rw [Function.update_of_ne e]
      exact h.entry i (by omega)
  · intro i hi o ho
    simp only
    by_cases e : i = n
    · subst e
      rw [Function.update_self, overlay_of_lt ho, h.took.bytes _ hg]
    · have hdiff : (stack i).pfn ≠ (stack n).pfn := fun e' => e (hstack.apart i (by omega) n hn e')
      rw [Function.update_of_ne hdiff]
      exact h.bytes i (by omega) o ho
  · intro f hf
    simp only
    rw [Function.update_of_ne (hf n hn)]
    exact h.kept f hf

theorem copyKernelStack_copied {m₀ : Memory} {frames₀ : Frames UInt8} {stack : Nat → Pte}
    (h : Took hw m₀ frames₀ m frames fs) (hstack : StackFrames hw m₀ stack fs)
    (hn : n ≤ hw.kernelStackPages) :
    ∃ st', (List.range n).foldlM (copyStackPageBytes hw live) ⟨m, stack, frames⟩ = some st' ∧
      (List.range n).foldl (copyStackPage hw) (m, stack) = (st'.mem, st'.pt) ∧
      CopiedStack hw m₀ frames₀ frames stack fs n st' := by
  induction n with
  | zero => exact ⟨_, rfl, rfl, h, fun _ => rfl, by simp, by simp, fun _ _ => rfl⟩
  | succ n ih =>
    obtain ⟨st', hbytes, hplain, hcopied⟩ := ih (by omega)
    obtain ⟨st'', hstep, hstep', hcopied'⟩ := hcopied.snoc live hstack (by omega)
    refine ⟨st'', ?_, ?_, hcopied'⟩
    · rw [List.range_succ, List.foldlM_append, hbytes]
      simp [hstep]
    · rw [List.range_succ, List.foldl_append, hplain]
      exact hstep'

/-! ## The fork -/

/-- The state after the three parts of a fork, from the states after each of them. -/
theorem forkMemory_parts {st st' : CopyState} {stack : Nat → Pte} (hlive : k.liveTable = live)
    (hpages : (List.range hw.MAX_PT_LEN).foldlM (copyPageBytes hw live (k.pcb parent).region1_pt)
      ⟨k.mem, (k.pcb child).region1_pt, frames⟩ = some st)
    (hpages' : (List.range hw.MAX_PT_LEN).foldl (copyPage hw (k.pcb parent).region1_pt)
      (k.mem, (k.pcb child).region1_pt) = (st.mem, st.pt))
    (hinit : initializeKernelStack hw st.mem = some (m, stack))
    (hstack : (List.range hw.kernelStackPages).foldlM (copyStackPageBytes hw live)
      ⟨m, stack, st.frames⟩ = some st')
    (hstack' : (List.range hw.kernelStackPages).foldl (copyStackPage hw) (m, stack) = (st'.mem, st'.pt)) :
    forkMemoryBytes hw k parent child frames =
        some (({ k with mem := st'.mem } : Kernel).modifyPcb child fun pcb =>
          { pcb with region1_pt := st.pt, kernel_stack := st'.pt }, st'.frames) ∧
      forkMemory hw k parent child = some (({ k with mem := st'.mem } : Kernel).modifyPcb child fun pcb =>
          { pcb with region1_pt := st.pt, kernel_stack := st'.pt }) := by
  constructor
  · unfold forkMemoryBytes
    simp only [Option.bind_eq_bind]
    rw [hlive, hpages, Option.bind_some, hinit, Option.bind_some]
    simp only
    rw [hstack]
    rfl
  · unfold forkMemory copyPageTable copyKernelStack
    rw [hpages']
    simp only [Option.bind_eq_bind]
    rw [hinit, Option.bind_some]
    simp only
    rw [hstack']
    rfl

/-- What the two loops have copied is the address space and the stack of the child. -/
theorem copiesSpace_of_copied {frames : Frames UInt8} {st st' : CopyState} {stack : Nat → Pte} {k' : Kernel}
    (h : CopyStart hw k parent child)
    (hcopied : Copied hw (k.pcb parent).region1_pt ⟨k.mem, (k.pcb child).region1_pt, frames⟩ hw.MAX_PT_LEN st)
    (htook : Took hw k.mem frames m st.frames
      (((validPages hw (k.pcb parent).region1_pt).map fun i => (st.pt i).pfn) ++
        (List.range hw.kernelStackPages).map fun i => (stack i).pfn))
    (hcopied' : CopiedStack hw k.mem frames st.frames stack
      (((validPages hw (k.pcb parent).region1_pt).map fun i => (st.pt i).pfn) ++
        (List.range hw.kernelStackPages).map fun i => (stack i).pfn) hw.kernelStackPages st')
    (hk' : ({ k with mem := st'.mem } : Kernel).modifyPcb child (fun pcb =>
      { pcb with region1_pt := st.pt, kernel_stack := st'.pt }) = k') :
    CopiesSpace hw k k' parent child frames st'.frames := by
  have hmem : k'.mem = st'.mem := by
    rw [← hk']
    rfl
  have hpt : (k'.pcb child).region1_pt = st.pt := by
    rw [← hk']
    simp [Kernel.modifyPcb]
  have hks : (k'.pcb child).kernel_stack = st'.pt := by
    rw [← hk']
    simp [Kernel.modifyPcb]
  have hvalid : ∀ i < hw.MAX_PT_LEN, (st.pt i).valid = ((k.pcb parent).region1_pt i).valid := by
    intro i hi
    cases hv : ((k.pcb parent).region1_pt i).valid with
    | true => rw [hcopied.entry i hi hv]
    | false => rw [hcopied.skipped i (Or.inr hv), h.blank i hi]
  have hvalidPages : validPages hw st.pt = validPages hw (k.pcb parent).region1_pt := by
    refine List.filter_congr ?_
    intro i hi
    rw [hvalid i (List.mem_range.1 hi)]
  have hlist : k'.framesOf hw child =
      ((validPages hw (k.pcb parent).region1_pt).map fun i => (st.pt i).pfn) ++
        (List.range hw.kernelStackPages).map fun i => (stack i).pfn := by
    unfold Kernel.framesOf
    rw [hpt, hks, hvalidPages]
    simp only [hcopied'.pfn]
  refine ⟨?_, ?_, ?_, ?_, ?_, ?_, ?_, ?_, ?_⟩
  · intro i hi
    rw [hpt]
    exact hvalid i hi
  · intro i hi
    obtain ⟨hlt, hv⟩ := List.mem_filter.1 hi
    rw [hpt, hcopied.entry i (List.mem_range.1 hlt) hv]
  · rw [hlist]
    exact htook.nodup
  · intro f hf
    rw [hlist] at hf
    rw [hmem]
    exact ⟨htook.free f hf, (hcopied'.took.bits f).2 (Or.inr hf)⟩
  · intro i hi o ho
    obtain ⟨hlt, hv⟩ := List.mem_filter.1 hi
    rw [hpt, hcopied'.kept]
    · exact hcopied.bytes i (List.mem_range.1 hlt) hv o ho
    · intro j hj e
      have hpage : (st.pt i).pfn ∈ (validPages hw (k.pcb parent).region1_pt).map fun i => (st.pt i).pfn :=
        List.mem_map_of_mem hi
      have hstk : (stack j).pfn ∈ (List.range hw.kernelStackPages).map fun i => (stack i).pfn :=
        List.mem_map_of_mem (List.mem_range.2 hj)
      exact (List.nodup_append.1 htook.nodup).2.2 _ hpage _ hstk e
  · intro i hi
    obtain ⟨hv, hp⟩ := hcopied'.entry i hi
    rw [hks, hcopied'.pfn]
    exact ⟨hv, hp, hcopied'.bytes i hi⟩
  · intro p hp
    rw [← hk']
    simp [Kernel.modifyPcb, hp]
  · intro vpn hvpn
    rw [hmem]
    exact hcopied'.took.region0 vpn hvpn
  · intro f hf
    rw [hmem]
    refine ⟨(hcopied'.took.bits f).2 (Or.inl hf), hcopied'.took.bytes f ?_⟩
    intro hmem'
    rw [(mem_freeFrames.1 (hcopied'.took.free f hmem')).2] at hf
    cases hf

/-- A fork that has its frames gives the child a copy of the address space and of the kernel stack, and
leaves alone what was in use. -/
theorem fork_copies_space (hpfn : hw.NUM_VPN ≤ 2 ^ 24) (h : CopyStart hw k parent child)
    (frames : Frames UInt8) : ∃ k' frames', forkMemoryBytes hw k parent child frames = some (k', frames') ∧
      forkMemory hw k parent child = some k' ∧ CopiesSpace hw k k' parent child frames frames' := by
  have hlive : k.liveTable = (k.pcb parent).region1_pt := by
    unfold Kernel.liveTable
    rw [h.live]
  have henough := h.enough
  have hused : ∀ i < hw.MAX_PT_LEN, ((k.pcb parent).region1_pt i).valid = true →
      k.mem.frame_bitMap ((k.pcb parent).region1_pt i).pfn = true := by
    intro i hi hv
    exact h.used i (List.mem_filter.2 ⟨List.mem_range.2 hi, hv⟩)
  have hcount : (validPages hw (k.pcb parent).region1_pt).length ≤ (freeFrames hw k.mem).card := by omega
  obtain ⟨st, hpages, hpages', hcopied⟩ : ∃ st, (List.range hw.MAX_PT_LEN).foldlM
        (copyPageBytes hw (k.pcb parent).region1_pt (k.pcb parent).region1_pt)
        ⟨k.mem, (k.pcb child).region1_pt, frames⟩ = some st ∧
      (List.range hw.MAX_PT_LEN).foldl (copyPage hw (k.pcb parent).region1_pt)
        (k.mem, (k.pcb child).region1_pt) = (st.mem, st.pt) ∧
      Copied hw (k.pcb parent).region1_pt ⟨k.mem, (k.pcb child).region1_pt, frames⟩ hw.MAX_PT_LEN st :=
    copyPageTable_copied hpfn le_rfl hused hcount
  have htook₁ : Took hw k.mem frames st.mem st.frames
      ((validPages hw (k.pcb parent).region1_pt).map fun i => (st.pt i).pfn) := hcopied.took
  have hcard := htook₁.card
  rw [List.length_map] at hcard
  have hleft : hw.kernelStackPages ≤ (freeFrames hw st.mem).card := by omega
  obtain ⟨m, stack, halloc, htook₂, -⟩ : ∃ m stack,
      allocateStack hw st.mem (fun _ => .zero) 0 hw.kernelStackPages = some (m, stack) ∧
      Took hw st.mem st.frames m st.frames ((List.range hw.kernelStackPages).map fun i => (stack (0 + i)).pfn) ∧
      ∀ i < 0, stack i = .zero := allocateStack_took hpfn hleft st.frames
  simp only [Nat.zero_add] at htook₂
  have hinit : initializeKernelStack hw st.mem = some (m, stack) := by
    unfold initializeKernelStack
    rw [if_pos (htook₁.vm.trans h.vm)]
    exact halloc
  have htook := htook₁.trans htook₂
  have hframes : StackFrames hw k.mem stack
      (((validPages hw (k.pcb parent).region1_pt).map fun i => (st.pt i).pfn) ++
        (List.range hw.kernelStackPages).map fun i => (stack i).pfn) := by
    have htaken : ∀ i < hw.kernelStackPages, (stack i).pfn ∈
        ((validPages hw (k.pcb parent).region1_pt).map fun i => (st.pt i).pfn) ++
          (List.range hw.kernelStackPages).map fun i => (stack i).pfn := by
      intro i hi
      exact List.mem_append_right _ (List.mem_map_of_mem (List.mem_range.2 hi))
    refine ⟨htaken, ?_, ?_, h.stack⟩
    · intro i hi
      exact lt_of_lt_of_le (mem_freeFrames.1 (htook.free _ (htaken i hi))).1 hpfn
    · intro i hi j hj e
      exact List.inj_on_of_nodup_map htook₂.nodup (List.mem_range.2 hi) (List.mem_range.2 hj) e
  obtain ⟨st', hstack, hstack', hcopied'⟩ : ∃ st', (List.range hw.kernelStackPages).foldlM
        (copyStackPageBytes hw (k.pcb parent).region1_pt) ⟨m, stack, st.frames⟩ = some st' ∧
      (List.range hw.kernelStackPages).foldl (copyStackPage hw) (m, stack) = (st'.mem, st'.pt) ∧
      CopiedStack hw k.mem frames st.frames stack _ hw.kernelStackPages st' :=
    copyKernelStack_copied htook hframes le_rfl
  obtain ⟨hbytes, hplain⟩ := forkMemory_parts hlive hpages hpages' hinit hstack hstack'
  exact ⟨_, _, hbytes, hplain, copiesSpace_of_copied h hcopied htook hcopied' rfl⟩

/-- The init process of the small machine has made a PCB for a child. -/
def forkingKernel : Kernel := createPcb .small initKernel 102

theorem forkingKernel_start : CopyStart .small forkingKernel 101 102 := by
  constructor <;> decide +kernel

theorem fork_copies_space_small : ∃ k' frames',
    forkMemoryBytes .small forkingKernel 101 102 (fun f o => UInt8.ofNat (f + o)) = some (k', frames') ∧
      forkMemory .small forkingKernel 101 102 = some k' ∧
      CopiesSpace .small forkingKernel k' 101 102 (fun f o => UInt8.ofNat (f + o)) frames' :=
  fork_copies_space (by decide +kernel) forkingKernel_start _

end Yalnix
