import Yalnix.MemoryRun
import Yalnix.Paging.Proofs.Private
import Yalnix.Proofs.CalmSpace
import Yalnix.Proofs.ExecArgs

/-!
# Steps on the memory of processes

What a step does to the frames, and what the processes see of it. The frames of the others are mapped by nobody
else and not taken anew, whatever a step writes.
-/

namespace Yalnix

open Intrusive Paging Transition

variable {hw : Hardware} {k k' : Kernel} {frames frames' : Frames UInt8} {p q child : PcbPtr} {f i n : Nat}
  {t : Table} {pt stack parent_pt : Nat → Pte} {m m₁ m₂ : Memory} {apart : Nat → Prop} {u : UserContext}
  {e : TrapEvent} {o : ProgramBytes} {xs : Stores UInt8}

/-! ## Spaces -/

theorem userTable_eq_some : userTable hw pt i = some f ↔ hw.MAX_PT_LEN ≤ i ∧
    i - hw.MAX_PT_LEN < hw.MAX_PT_LEN ∧ (pt (i - hw.MAX_PT_LEN)).valid = true ∧
      (pt (i - hw.MAX_PT_LEN)).pfn = f := by
  unfold userTable Pte.frame
  by_cases hlow : hw.MAX_PT_LEN ≤ i
  · have hin : i < 2 * hw.MAX_PT_LEN ↔ i - hw.MAX_PT_LEN < hw.MAX_PT_LEN := by omega
    simp [hlow, hin]
  · simp [hlow]

theorem userTable_eq_none : userTable hw pt i = none ↔ (hw.MAX_PT_LEN ≤ i →
    i - hw.MAX_PT_LEN < hw.MAX_PT_LEN → (pt (i - hw.MAX_PT_LEN)).valid = false) := by
  rw [Option.eq_none_iff_forall_ne_some]
  simp only [ne_eq, userTable_eq_some]
  constructor
  · intro h hlow hlt
    by_contra hv
    exact h _ ⟨hlow, hlt, by simpa using hv, rfl⟩
  · rintro h f ⟨hlow, hlt, hv, -⟩
    rw [h hlow hlt] at hv
    cases hv

theorem spaceOf_eq_some : k.spaceOf hw p i = some f ↔
    hw.MAX_PT_LEN ≤ i ∧ k.mapped hw (.page p (i - hw.MAX_PT_LEN)) = some f := by
  unfold Kernel.spaceOf
  rw [Kernel.mapped_eq_some]
  by_cases hlives : k.Lives p
  · rw [if_pos hlives, userTable_eq_some]
    exact ⟨fun ⟨hlow, hlt, hv⟩ => ⟨hlow, ⟨hlives, hlt⟩, hv⟩, fun ⟨hlow, hin, hv⟩ => ⟨hlow, hin.2, hv⟩⟩
  · rw [if_neg hlives]
    exact iff_of_false (by simp) fun h => hlives h.2.1.1

theorem spaceOf_lives (h : k.Lives p) : k.spaceOf hw p = userTable hw (k.pcb p).region1_pt := if_pos h

theorem spaceOf_dead (h : ¬ k.Lives p) : k.spaceOf hw p = fun _ => none := if_neg h

theorem SameSpace.spaceOf (h : SameSpace k k' p) : k'.spaceOf hw p = k.spaceOf hw p := by
  unfold Kernel.spaceOf
  rw [h.region1_pt]
  exact if_congr h.lives rfl rfl

theorem OwnersInv.separate (h : OwnersInv hw apart k) : Separate (k.spaceOf hw) := by
  intro p q i j f hp hq
  obtain ⟨hi, hp⟩ := spaceOf_eq_some.1 hp
  obtain ⟨hj, hq⟩ := spaceOf_eq_some.1 hq
  have hsame := h.owned.once f _ _ hp hq
  obtain ⟨rfl, hpage⟩ := TableEntry.page.inj hsame
  exact ⟨rfl, by omega⟩

/-- Whatever a process maps is marked. -/
theorem OwnersInv.marked_space (h : OwnersInv hw apart k) (hf : k.spaceOf hw p i = some f) :
    k.mem.frame_bitMap f = true :=
  h.owned.marked_of_maps (spaceOf_eq_some.1 hf).2

theorem liveTable_eq (h : k.mem.ptbr1 = some p) : k.liveTable = (k.pcb p).region1_pt := by
  unfold Kernel.liveTable
  rw [h]

/-- Programs and the kernel write to pages that their process reads. -/
theorem writable_space (hlives : k.Lives p) (hwalks : k.mem.ptbr1 = some p)
    (hf : writableTable hw k.liveTable i = some f) : k.spaceOf hw p i = some f := by
  rw [liveTable_eq hwalks] at hf
  rw [spaceOf_lives hlives]
  unfold writableTable at hf
  split at hf
  · exact hf
  · cases hf

/-- All memories but that of `p` are the same, when only `p` has a new table or new bytes. -/
theorem memories_update (hspace : ∀ q, q ≠ p → k'.spaceOf hw q = k.spaceOf hw q)
    (hkept : ∀ q, q ≠ p → ∀ i f, k.spaceOf hw q i = some f → frames' f = frames f) :
    memories hw (k', frames') =
      Function.update (memories hw (k, frames)) p (memories hw (k', frames') p) := by
  funext q
  by_cases hq : q = p
  · subst hq
    rw [Function.update_self]
  · rw [Function.update_of_ne hq]
    show load hw.pageBytes (k'.spaceOf hw q) frames' = load hw.pageBytes (k.spaceOf hw q) frames
    rw [hspace q hq]
    exact load_kept (hkept q hq)

theorem memories_same (hsame : ∀ p, SameSpace k k' p) : memories hw (k', frames) = memories hw (k, frames) := by
  funext p
  show load hw.pageBytes (k'.spaceOf hw p) frames = load hw.pageBytes (k.spaceOf hw p) frames
  rw [(hsame p).spaceOf]

theorem userWrites_nil (h : k'.userStores = k.userStores) : k.userWrites k' = [] := by
  unfold Kernel.userWrites
  rw [h, List.drop_length, List.map_nil]

/-! ## The bytes of a new program -/

theorem StackState.put_kept {addr : Nat} {bs : List UInt8} {st st' : StackState}
    (h : st.put hw t addr bs = some st') (hf : ∀ i, t i ≠ some f) : st'.frames f = st.frames f := by
  obtain ⟨frames, hstore, hst⟩ := Option.bind_eq_some_iff.1 h
  obtain rfl := Option.some.inj hst
  exact storeList_kept hstore hf

theorem copyArgs_kept {argbuf : Buffer} {cp cpp cp2 end_cpp : Nat} {st st' : StackState}
    (h : copyArgs hw t argbuf cp cpp cp2 st n = some (end_cpp, st')) (hf : ∀ i, t i ≠ some f) :
    st'.frames f = st.frames f := by
  induction n generalizing cp cpp cp2 st with
  | zero =>
    obtain ⟨-, rfl⟩ := Prod.mk.inj (Option.some.inj h)
    rfl
  | succ n ih =>
    simp only [copyArgs, Option.bind_eq_bind, Option.bind_eq_some_iff] at h
    obtain ⟨st₁, hpointer, arg, -, st₂, hstring, copied, -, hrest⟩ := h
    rw [ih hrest, StackState.put_kept hstring hf, StackState.put_kept hpointer hf]

theorem buildArgs_kept {argbuf : Buffer} {req : LoadRequest} {st st' : StackState}
    (h : buildArgs hw t req argbuf st = some st') (hf : ∀ i, t i ≠ some f) : st'.frames f = st.frames f := by
  simp only [buildArgs, Option.bind_eq_bind, Option.bind_eq_some_iff, Prod.exists] at h
  obtain ⟨st₁, hzero, st₂, hargc, cpp, st₃, hargs, st₄, hargv, henvp⟩ := h
  rw [StackState.put_kept henvp hf, StackState.put_kept hargv hf, copyArgs_kept hargs hf,
    StackState.put_kept hargc hf, StackState.put_kept hzero hf]

/-- `LoadProgram` stores through the new table. -/
theorem loadBytes_kept {req : LoadRequest} {rc : LoadResult} {proc : Pcb}
    (hload : loadProgram hw k.mem (k.pcb k.current_process) req = some (rc, m, proc))
    (h : loadBytes hw k req o frames = some frames') (hf : ∀ i, userTable hw proc.region1_pt i ≠ some f) :
    frames' f = frames f := by
  simp only [loadBytes, hload, Option.bind_eq_bind, Option.bind_some] at h
  split at h
  · obtain rfl := Option.some.inj h
    rfl
  · simp only [Option.bind_eq_some_iff] at h
    obtain ⟨li, -, argbuf, -, image, hread, h⟩ := h
    rw [← storeAll_kept hread hf]
    split at h
    · obtain rfl := Option.some.inj h
      rfl
    · simp only [Option.bind_eq_some_iff] at h
      obtain ⟨st, hargs, hst⟩ := h
      obtain rfl := Option.some.inj hst
      exact buildArgs_kept hargs hf

/-! ## The bytes of a fork -/

theorem createPcb_pcb (hp : p ≠ child) : (createPcb hw k child).pcb p = k.pcb p := by
  simp [createPcb, hp]

/-- A fork that has found its frames had enough of them, and its caller is mapped as it should be. -/
theorem copyStart (h : OwnersInv hw apart k) (hpfn : hw.NUM_VPN ≤ 2 ^ 24) (hvm : k.mem.vm_enabled = true)
    (hwalks : k.mem.ptbr1 = some k.current_process) (hstack : k.StackMapped hw)
    (hlives : k.Lives k.current_process) (hne : child ≠ k.current_process)
    (hmem : ForkMemory hw k m pt stack) (hroom : m.exhausted = false) :
    CopyStart hw (createPcb hw k child) k.current_process child := by
  have hparent : (createPcb hw k child).pcb k.current_process = k.pcb k.current_process :=
    createPcb_pcb hne.symm
  have hmarked : ∀ x f, k.mapped hw x = some f → k.mem.frame_bitMap f = true := fun x f hx =>
    h.owned.marked_of_maps hx
  constructor
  · exact hvm
  · exact hwalks
  · exact hne
  · intro i _
    simp [createPcb, Pte.zero]
  · intro i hi
    rw [hparent] at hi ⊢
    obtain ⟨hlt, hv⟩ := List.mem_filter.1 hi
    exact hmarked (.page k.current_process i) _
      (Kernel.mapped_eq_some.2 ⟨⟨hlives, List.mem_range.1 hlt⟩, hv, rfl⟩)
  · intro i hi
    have hvalid := h.kernelStacks _ hlives i hi
    show (k.mem.region0_pt (hw.KSTACK_START_PAGE + i)).valid = true ∧
      k.mem.frame_bitMap (k.mem.region0_pt (hw.KSTACK_START_PAGE + i)).pfn = true
    rw [hstack i hi]
    exact ⟨hvalid, hmarked (.stack k.current_process i) _
      (Kernel.mapped_eq_some.2 ⟨⟨hlives, hi⟩, hvalid, rfl⟩)⟩
  · obtain ⟨hgets, -, -⟩ := forkMemory_gets hpfn hvm hmem
    have hcard := (hgets.takes hroom).2.card
    rw [List.length_append, List.length_map, List.length_map, List.length_range] at hcard
    rw [hparent]
    show _ ≤ (freeFrames hw k.mem).card
    omega

/-- What the loops of a fork leave in the frames: what was in use is as before, and the new pages hold the
bytes of the old ones. -/
theorem forkBytes_copied {K : Kernel} (h : CopyStart hw K p child) (hpfn : hw.NUM_VPN ≤ 2 ^ 24)
    (hcopy : copyPageTable hw K.mem (K.pcb p).region1_pt (K.pcb child).region1_pt = (m₁, pt))
    (hinit : initializeKernelStack hw m₁ = some (m₂, stack))
    (hrun : (forkMemoryBytes hw K p child frames).map Prod.snd = some frames') :
    (∀ f, K.mem.frame_bitMap f = true → frames' f = frames f) ∧
      ∀ i ∈ validPages hw (K.pcb p).region1_pt, ∀ o < hw.pageBytes,
        frames' (pt i).pfn o = frames ((K.pcb p).region1_pt i).pfn o := by
  have henough := h.enough
  have hused : ∀ i < hw.MAX_PT_LEN, ((K.pcb p).region1_pt i).valid = true →
      K.mem.frame_bitMap ((K.pcb p).region1_pt i).pfn = true := fun i hi hv =>
    h.used i (List.mem_filter.2 ⟨List.mem_range.2 hi, hv⟩)
  have hcount : (validPages hw (K.pcb p).region1_pt).length ≤ (freeFrames hw K.mem).card := by omega
  -- the pages
  obtain ⟨st, hpages, hplain, hcopied⟩ :
      ∃ st, (List.range hw.MAX_PT_LEN).foldlM (copyPageBytes hw (K.pcb p).region1_pt (K.pcb p).region1_pt)
          ⟨K.mem, (K.pcb child).region1_pt, frames⟩ = some st ∧
        (List.range hw.MAX_PT_LEN).foldl (copyPage hw (K.pcb p).region1_pt)
          (K.mem, (K.pcb child).region1_pt) = (st.mem, st.pt) ∧
        Copied hw (K.pcb p).region1_pt ⟨K.mem, (K.pcb child).region1_pt, frames⟩ hw.MAX_PT_LEN st :=
    copyPageTable_copied hpfn le_rfl hused hcount
  obtain ⟨rfl, rfl⟩ := Prod.mk.inj (hplain.symm.trans hcopy)
  have htook : Took hw K.mem frames st.mem st.frames
      ((validPages hw (K.pcb p).region1_pt).map fun i => (st.pt i).pfn) := hcopied.took
  -- the kernel stack
  have hcard := htook.card
  rw [List.length_map] at hcard
  have halloc : allocateStack hw st.mem (fun _ => .zero) 0 hw.kernelStackPages = some (m₂, stack) := by
    unfold initializeKernelStack at hinit
    rwa [if_pos (htook.vm.trans h.vm)] at hinit
  obtain ⟨m', stack', halloc', htook', -⟩ : ∃ m' stack',
      allocateStack hw st.mem (fun _ => .zero) 0 hw.kernelStackPages = some (m', stack') ∧
        Took hw st.mem st.frames m' st.frames ((List.range hw.kernelStackPages).map fun i => (stack' (0 + i)).pfn) ∧
        ∀ i < 0, stack' i = .zero := allocateStack_took hpfn (by omega) st.frames
  obtain ⟨rfl, rfl⟩ := Prod.mk.inj (Option.some.inj (halloc.symm.trans halloc'))
  simp only [Nat.zero_add] at htook'
  have hall := htook.trans htook'
  have hframes : StackFrames hw K.mem stack (((validPages hw (K.pcb p).region1_pt).map fun i => (st.pt i).pfn) ++
      (List.range hw.kernelStackPages).map fun i => (stack i).pfn) := by
    have htaken : ∀ i < hw.kernelStackPages, (stack i).pfn ∈ ((validPages hw (K.pcb p).region1_pt).map fun i =>
        (st.pt i).pfn) ++ (List.range hw.kernelStackPages).map fun i => (stack i).pfn := fun i hi =>
      List.mem_append_right _ (List.mem_map_of_mem (List.mem_range.2 hi))
    refine ⟨htaken, fun i hi => ?_, fun i hi j hj hsame => ?_, h.stack⟩
    · exact lt_of_lt_of_le (mem_freeFrames.1 (hall.free _ (htaken i hi))).1 hpfn
    · exact List.inj_on_of_nodup_map htook'.nodup (List.mem_range.2 hi) (List.mem_range.2 hj) hsame
  obtain ⟨st', hstack, hstack', hcopied'⟩ :
      ∃ st', (List.range hw.kernelStackPages).foldlM (copyStackPageBytes hw (K.pcb p).region1_pt)
          ⟨m₂, stack, st.frames⟩ = some st' ∧
        (List.range hw.kernelStackPages).foldl (copyStackPage hw) (m₂, stack) = (st'.mem, st'.pt) ∧
        CopiedStack hw K.mem frames st.frames stack _ hw.kernelStackPages st' :=
    copyKernelStack_copied hall hframes le_rfl
  -- both together
  rw [(forkMemory_parts (liveTable_eq h.live) hpages hplain hinit hstack hstack').1] at hrun
  obtain rfl := Option.some.inj hrun
  have hspace := copiesSpace_of_copied h hcopied hall hcopied' rfl
  refine ⟨fun f hf => (hspace.used f hf).2, fun i hi o ho => ?_⟩
  have hbytes := hspace.contents i hi o ho
  simpa [Kernel.modifyPcb] using hbytes

/-! ## Every step -/

/-- The memories go from `mems` to `mems'` by `d`, or stay if there is no event. -/
def Matches (mems mems' : PcbPtr → Private UInt8) : Option (PrivateEvent PcbPtr UInt8) → Prop
  | some d => privateMachine.enabled mems d ∧ privateMachine.step mems d = some mems'
  | none => mems' = mems

/-- Stores of the running process, or of the kernel for it. -/
theorem store_matches (h : OwnersInv hw apart k) (hlives : k.Lives k.current_process)
    (hwalks : k.mem.ptbr1 = some k.current_process)
    (hstore : storeAll hw.pageBytes (writableTable hw k.liveTable) xs frames = some frames') :
    Matches (memories hw (k, frames)) (memories hw (k, frames')) (some (.store k.current_process xs)) :=
  ⟨trivial, h.separate.store_step (fun _ _ hf => writable_space hlives hwalks hf) hstore⟩

/-- A step that changes no table. -/
theorem same_matches (h : OwnersInv hw apart k') (hsame : ∀ p, SameSpace k k' p)
    (hcurrent : k'.current_process = k.current_process) (hlives : k.Lives k.current_process)
    (hwalks : k'.mem.ptbr1 = some k'.current_process)
    (hstore : storeAll hw.pageBytes (writableTable hw k'.liveTable) xs frames = some frames') :
    Matches (memories hw (k, frames)) (memories hw (k', frames')) (some (.store k.current_process xs)) := by
  have hlives' : k'.Lives k'.current_process := by
    rw [hcurrent]
    exact (hsame _).lives.2 hlives
  have hmatch := store_matches h hlives' hwalks hstore
  rwa [memories_same hsame, hcurrent] at hmatch

/-- A fork gives the child the memory of its parent. -/
theorem fork_matches (h : MemoryInv hw apart k) (hpfn : hw.NUM_VPN ≤ 2 ^ 24) (hmode : k.mode = .user)
    (hfresh : k.allocated child = false) (hmem : ForkMemory hw k m pt stack) (hroom : m.exhausted = false)
    (howners : OwnersInv hw apart k) {family : Heap PcbPtr PcbPtr} {queues : Heap QueueId PcbPtr}
    (hrun : (forkMemoryBytes hw (createPcb hw { k with uctxt := u } child) k.current_process child frames).map
      Prod.snd = some frames') :
    Matches (memories hw (k, frames))
      (memories hw (forked hw { k with uctxt := u } child m pt stack family queues, frames'))
      (some (.copy k.current_process child)) := by
  obtain ⟨g, hinv⟩ := h.family
  obtain ⟨t, hswitch⟩ := h.switch
  have hlives := hinv.lives_current hmode
  have hne : child ≠ k.current_process := ne_of_free hfresh hlives.1
  have hdead : ¬ k.Lives child := fun hlive => by
    rw [hlive.1] at hfresh
    cases hfresh
  have hmem' : ForkMemory hw { k with uctxt := u } m pt stack := ⟨hmem.run⟩
  have howners' : OwnersInv hw apart { k with uctxt := u } :=
    howners.same (.refl _) fun _ => ⟨Iff.rfl, rfl, rfl⟩
  have hstart : CopyStart hw (createPcb hw { k with uctxt := u } child) k.current_process child :=
    copyStart howners' hpfn h.space.vm hswitch.table hswitch.stack hlives hne hmem' hroom
  have hparent : (createPcb hw { k with uctxt := u } child).pcb k.current_process = k.pcb k.current_process :=
    createPcb_pcb hne.symm
  have hblank : ((createPcb hw { k with uctxt := u } child).pcb child).region1_pt = fun _ => .zero := by
    simp [createPcb]
  obtain ⟨m₁, m₂, stack₀, hcopy, hinit, -⟩ := hmem.run
  obtain ⟨hkept, hcontents⟩ := forkBytes_copied hstart hpfn (by rw [hparent, hblank]; exact hcopy) hinit hrun
  rw [hparent] at hcontents
  obtain ⟨-, hvalid, -⟩ := forkMemory_gets hpfn h.space.vm hmem
  generalize hk' : forked hw { k with uctxt := u } child m pt stack family queues = k'
  have hpt : (k'.pcb child).region1_pt = pt := by simp [← hk', forked]
  have hlive' : k'.Lives child := by simp [← hk', forked, createPcb, Kernel.Lives]
  have hothers : ∀ q, q ≠ child → k'.spaceOf hw q = k.spaceOf hw q := fun q hq => by
    apply SameSpace.spaceOf
    constructor <;> simp [← hk', forked, createPcb, Kernel.Lives, hq]
  refine ⟨?_, ?_⟩
  · funext a
    show load hw.pageBytes (k.spaceOf hw child) frames a = none
    rw [spaceOf_dead hdead]
    rfl
  have hupdate := memories_update (p := child) hothers fun q _ i f hf => hkept f (howners.marked_space hf)
  have hcopied : memories hw (k', frames') child = memories hw (k, frames) k.current_process := by
    show load hw.pageBytes (k'.spaceOf hw child) frames' = load hw.pageBytes (k.spaceOf hw k.current_process) frames
    rw [spaceOf_lives hlives, spaceOf_lives hlive', hpt]
    apply load_copied pageBytes_pos
    · intro i hnone
      rw [userTable_eq_none] at hnone ⊢
      intro hlow hlt
      rw [hvalid _ hlt]
      exact hnone hlow hlt
    · intro i f hf
      obtain ⟨hlow, hlt, hv, rfl⟩ := userTable_eq_some.1 hf
      refine ⟨_, userTable_eq_some.2 ⟨hlow, hlt, (hvalid _ hlt).trans hv, rfl⟩, hcontents _ ?_⟩
      exact List.mem_filter.2 ⟨List.mem_range.2 hlt, hv⟩
  show some (Function.update (memories hw (k, frames)) child (memories hw (k, frames) k.current_process)) = _
  rw [hupdate, hcopied]

/-- A new program takes the place of the old memory. -/
theorem exec_matches (howners' : OwnersInv hw apart k') (hlives : k.Lives k.current_process) {req : LoadRequest}
    {rc : LoadResult} {proc : Pcb}
    (hload : loadProgram hw k.mem (k.pcb k.current_process) req = some (rc, m, proc))
    (hk' : k' = execed { k with uctxt := u } m proc)
    (hbytes : loadBytes hw { k with uctxt := u } req o frames = some frames') :
    Matches (memories hw (k, frames)) (memories hw (k', frames'))
      (some (.replace k.current_process (memories hw (k', frames') k.current_process))) := by
  have honly : OnlyTable k k' k.current_process := hk' ▸ onlyTable_execed hload
  have htable : k'.spaceOf hw k.current_process = userTable hw proc.region1_pt := by
    rw [spaceOf_lives (honly.lives.2 hlives), hk']
    simp [execed]
  have hspace : ∀ q, q ≠ k.current_process → k'.spaceOf hw q = k.spaceOf hw q := fun q hq =>
    (honly.others q hq).spaceOf
  refine ⟨trivial, congrArg some (memories_update hspace fun q hq i f hf => ?_).symm⟩
  have hload' : loadProgram hw ({ k with uctxt := u } : Kernel).mem
      (({ k with uctxt := u } : Kernel).pcb ({ k with uctxt := u } : Kernel).current_process) req =
        some (rc, m, proc) := hload
  apply loadBytes_kept hload' hbytes
  -- the frame is that of another process after the call, too
  intro j hj
  rw [← htable] at hj
  rw [← hspace q hq] at hf
  exact hq (howners'.separate q _ i j f hf hj).1

theorem extend_matches (hspace : ∀ q, q ≠ p → k'.spaceOf hw q = k.spaceOf hw q)
    (hmore : ∀ i f, k.spaceOf hw p i = some f → k'.spaceOf hw p i = some f) :
    Matches (memories hw (k, frames)) (memories hw (k', frames)) (some (.extend p (memories hw (k', frames) p))) :=
  ⟨fun _ _ hb => load_mono hmore hb, congrArg some (memories_update hspace fun _ _ _ _ _ => rfl).symm⟩

/-- The break moves up, and the old pages stay. -/
theorem brk_matches (hpfn : hw.NUM_VPN ≤ 2 ^ 24) (hlives : k.Lives k.current_process)
    (hstep : sysBrk hw { k with uctxt := u } = some k') :
    k'.userStores = k.userStores ∧ Matches (memories hw (k, frames)) (memories hw (k', frames))
      (some (.extend k.current_process (memories hw (k', frames) k.current_process))) := by
  by_cases href : Kernel.BrkRefused hw { k with uctxt := u }
  · obtain rfl := Option.some.inj (hstep.symm.trans (sysBrk_refused href))
    exact ⟨rfl, extend_matches (fun _ _ => rfl) fun _ _ hf => hf⟩
  by_cases hlt : Kernel.cbrk hw { k with uctxt := u } < Kernel.nbrk hw { k with uctxt := u }
  · rw [sysBrk_grows href hlt] at hstep
    obtain ⟨⟨ok, m, pt⟩, hgrow, hk'⟩ := Option.bind_eq_some_iff.1 hstep
    obtain rfl := Option.some.inj hk'
    have honly : OnlyTable k ((grown { k with uctxt := u } m pt).returnValue (if ok then 0 else ERROR))
        k.current_process := onlyTable_grown
    obtain ⟨-, -, hold⟩ := growUserHeap_gets hpfn hgrow
    refine ⟨rfl, extend_matches (fun q hq => (honly.others q hq).spaceOf) fun i f hf => ?_⟩
    rw [spaceOf_lives hlives] at hf
    obtain ⟨hlow, hin, hv, hpfn⟩ := userTable_eq_some.1 hf
    rw [spaceOf_lives (honly.lives.2 hlives)]
    have hentry : (Kernel.pcb ((grown { k with uctxt := u } m pt).returnValue (if ok then 0 else ERROR))
        k.current_process).region1_pt = pt := grown_table
    rw [hentry, userTable_eq_some, hold]
    · exact ⟨hlow, hin, hv, hpfn⟩
    · -- a valid page needs no frame
      intro hneeded
      have hno := (List.mem_filter.1 hneeded).2
      have hv : ((Kernel.table { k with uctxt := u }) (i - hw.MAX_PT_LEN)).valid = true := hv
      simp [hin, hv] at hno
  · obtain rfl := Option.some.inj (hstep.symm.trans (sysBrk_kept href (Nat.le_of_not_lt hlt)))
    exact ⟨rfl, extend_matches (fun _ _ => rfl) fun _ _ hf => hf⟩

/-- Whoever exits has no memory any more. -/
theorem exit_gone {s : QueueId → List PcbPtr} {g : PcbPtr → List PcbPtr} (h : FamilyInv k s g)
    (hen : (trapMachine hw).enabled k (.kernel u .exit))
    (hstep : (trapMachine hw).step k (.kernel u .exit) = some k') :
    ¬ k'.Lives k.current_process ∧ k'.userStores = k.userStores := by
  obtain ⟨k₁, hrel, -, -, hcase⟩ := h.exitParts hen hstep
  have hstores : k₁.userStores = k.userStores := by rw [hrel.frame]
  cases hcase with
  | zombie hpar heq hc =>
    subst heq
    refine ⟨fun hlives => hlives.2 ?_, hstores⟩
    simp [Kernel.callSchedule, Kernel.setState, Kernel.modifyPcb]
  | notifies hpar hwait hcase heq hc =>
    subst heq
    refine ⟨fun hlives => ?_, hstores⟩
    have halloc := hlives.1
    simp [Kernel.callSchedule, notified] at halloc

theorem exit_matches (hgone : ¬ k'.Lives k.current_process)
    (hsame : ∀ p, p ≠ k.current_process → SameSpace k k' p) :
    Matches (memories hw (k, frames)) (memories hw (k', frames)) (some (.drop k.current_process)) := by
  have hupdate : memories hw (k', frames) = Function.update (memories hw (k, frames)) k.current_process _ :=
    memories_update (fun q hq => (hsame q hq).spaceOf) fun _ _ _ _ _ => rfl
  refine ⟨trivial, ?_⟩
  have hnone : memories hw (k', frames) k.current_process = fun _ => none := by
    show load hw.pageBytes (k'.spaceOf hw k.current_process) frames = _
    rw [spaceOf_dead hgone]
    rfl
  show some (Function.update (memories hw (k, frames)) k.current_process fun _ => none) = _
  rw [hupdate, hnone]

/-! ## The machine -/

theorem FamilyInv.lives_running {s : QueueId → List PcbPtr} {g : PcbPtr → List PcbPtr} (h : FamilyInv k s g)
    (hmode : k.mode = .user ∨ k.mode = .resumed) : k.Lives k.current_process := by
  refine h.steady.coherent.lives_iff.2 ⟨h.current fun caller hno => ?_, h.steady.off hmode .zombie⟩
  rw [hno] at hmode
  simp at hmode

theorem current_trapStep (hstep : (trapMachine hw).step k e = some k') (hne : e ≠ .schedule) :
    k'.current_process = k.current_process := by
  rcases (KeepsMemory.allows hw (fun _ => True) fun _ => True).trapStep (fun _ _ _ => trivial) hstep with
    hk | ⟨u, child, -, hk⟩ | ⟨caller, he, -⟩
  · exact hk.current
  · exact hk.current
  · exact absurd he hne

/-- The steps that are nothing but stores to the memories. -/
def TrapEvent.OnlyStores : TrapEvent → Prop
  | .kernel _ (.fork _) => False
  | .kernel _ (.exec _) => False
  | .kernel _ .brk => False
  | .kernel _ .exit => False
  | .schedule => False
  | _ => True

theorem SpaceCase.sameSpace (h : SpaceCase hw k e k') (he : e.OnlyStores) : ∀ p, SameSpace k k' p := by
  cases h with
  | same _ hsame => exact hsame
  | forks => exact he.elim
  | loads => exact he.elim
  | grows => exact he.elim
  | exits => exact he.elim

theorem stores_matches (h : MemoryInv hw apart k) (hafter : MemoryInv hw apart k') (howners' : OwnersInv hw apart k')
    (hcase : SpaceCase hw k e k') (he : e.OnlyStores) (hmode : k.mode = .user ∨ k.mode = .resumed)
    (hstep : (trapMachine hw).step k e = some k')
    (hstore : storeAll hw.pageBytes (writableTable hw k'.liveTable) (k.userWrites k') frames = some frames') :
    Matches (memories hw (k, frames)) (memories hw (k', frames'))
      (some (.store k.current_process (k.userWrites k'))) := by
  obtain ⟨g, hinv⟩ := h.family
  have hne : e ≠ .schedule := by
    rintro rfl
    exact he
  exact same_matches howners' (hcase.sameSpace he) (current_trapStep hstep hne) (hinv.lives_running hmode)
    hafter.walks hstore

theorem trap_matches (h : MemoryInv hw apart k) (hpfn : hw.NUM_VPN ≤ 2 ^ 24) (hen : (trapMachine hw).enabled k e)
    (hok : NeverWaits hw k e ∧ KeepsOwners hw k e) (hstep : (trapMachine hw).step k e = some k')
    (hbytes : trapBytes hw k e o k' frames = some frames') (hroom : k'.mem.exhausted = false) :
    Matches (memories hw (k, frames)) (memories hw (k', frames')) (e.toPrivate hw (k, frames) (k', frames')) := by
  have hafter := h.step hpfn hen hok hstep
  have howners' := hafter.space.owners hroom
  have howners := h.space.owners (h.room hpfn hen hok hstep hroom)
  have hcase := h.spaceCase hen hok hstep
  obtain ⟨g, hinv⟩ := h.family
  have hnothing : k'.userStores = k.userStores →
      storeAll hw.pageBytes (writableTable hw k'.liveTable) (k.userWrites k') frames = some frames' →
      frames = frames' := by
    intro hstores hstore
    rw [userWrites_nil hstores] at hstore
    exact Option.some.inj hstore
  cases e with
  | kernel u c =>
    have hmode := hen.1
    have hlives := hinv.lives_current hmode
    cases c with
    | fork child =>
      have hfresh : k.allocated child = false := hen.2.2
      have hc : Coherent { k with uctxt := u } k.queue := h.calm.steady.coherent.congr rfl rfl fun _ => rfl
      simp only [trapBytes] at hbytes
      simp only [TrapEvent.toPrivate]
      cases sysFork_cases hc (h.calm.steady.coherent.offQueues_iff.1 hok.2.1.1)
        (ne_of_free hfresh hlives.1) (ne_of_free hfresh hinv.idle) hstep with
      | child hflag heq =>
        have hflag : (k.pcb k.current_process).should_fork = false := hflag
        rw [hflag, if_neg (by simp)] at hbytes ⊢
        obtain rfl := Option.some.inj hbytes
        refine memories_same fun p => ?_
        subst heq
        by_cases hp : p = k.current_process
        · subst hp
          constructor <;> simp [Kernel.returnValue, Kernel.modifyPcb, Kernel.Lives]
        · constructor <;> simp [Kernel.returnValue, Kernel.modifyPcb, Kernel.Lives, hp]
      | parent hflag hmem hins heq =>
        have hflag : (k.pcb k.current_process).should_fork = true := hflag
        rw [if_pos hflag] at hbytes ⊢
        subst heq
        exact fork_matches h hpfn hmode hfresh ⟨hmem.run⟩ hroom howners hbytes
    | exec req =>
      obtain ⟨rc, m, proc, hload⟩ := sysExec_loads hstep
      have hk' := Option.some.inj (hstep.symm.trans (sysExec_eq hload))
      exact exec_matches howners' hlives hload hk' hbytes
    | brk =>
      obtain ⟨hstores, hmatch⟩ := brk_matches hpfn hlives hstep
      obtain rfl := hnothing hstores hbytes
      exact hmatch
    | exit =>
      obtain ⟨hgone, hstores⟩ := exit_gone hinv hen hstep
      obtain rfl := hnothing hstores hbytes
      cases hcase with
      | same _ hsame => exact absurd ((hsame _).lives.2 hlives) hgone
      | exits _ _ _ hsame => exact exit_matches hgone hsame
    | _ => exact stores_matches h hafter howners' hcase trivial (Or.inl hmode) hstep hbytes
  | clock u => exact stores_matches h hafter howners' hcase trivial (Or.inl hen) hstep hbytes
  | schedule =>
    have hstores : k'.userStores = k.userStores := by
      obtain ⟨caller, next, q, s', -, rfl, -, -⟩ := h.calm.steady.schedule hstep
      rfl
    obtain rfl := hnothing hstores hbytes
    cases hcase with
    | same _ hsame => exact memories_same hsame
  | resume => exact stores_matches h hafter howners' hcase trivial (Or.inr hen) hstep hbytes

end Yalnix
