import Yalnix.FrameRun
import Yalnix.KernelStart
import Yalnix.Proofs.Frames

/-!
# Every frame is given out once

A bit of `frame_bitMap` says whether the calls so far have left the frame in use. Which bits there are is
another matter: the allocator looks at `NUM_VPN` of them on every machine.
-/

namespace Yalnix

open Transition

variable {hw : Hardware} {s s' s₀ : FrameState} {t : List (FrameState × FrameEvent)}
  {x : FrameState × FrameEvent} {e : FrameEvent} {f : Nat} {m : Memory}

/-! ## Frames in use -/

theorem inUse_nil : InUse hw s₀ [] f ↔ s₀.mem.frame_bitMap f = true := by
  simp [InUse, since_nil]

/-- After one more call a frame is in use if the call claims it, or if it was and the call does not give it
back. -/
theorem inUse_snoc : InUse hw s₀ (t ++ [x]) f ↔ Claims hw f x ∨ InUse hw s₀ t f ∧ ¬ GivesBack f x := by
  have hkept : (∀ y ∈ t ++ [x], ¬ GivesBack f y) ↔ (∀ y ∈ t, ¬ GivesBack f y) ∧ ¬ GivesBack f x := by
    simp [or_imp, forall_and]
  unfold InUse
  rw [since_snoc, hkept]
  tauto

/-! ## Bits -/

/-- `allocate_frame` sets the bit of its answer. -/
theorem allocateFrame_bits : (allocateFrame hw m).2.frame_bitMap f =
    (m.frame_bitMap f || decide ((allocateFrame hw m).1 = f)) := by
  generalize halloc : allocateFrame hw m = r
  obtain ⟨pfn, m'⟩ := r
  rcases allocateFrame_cases halloc with ⟨i, rfl, hi, hfree, rfl⟩ | ⟨rfl, -, rfl⟩
  · by_cases e : f = i
    · subst e
      simp
    · have hne : ¬ (i : Int) = f := by omega
      simp [e, hne]
  · have hne : ¬ ERROR = (f : Int) := by
      unfold ERROR
      omega
    simp [hne]

/-- A step sets the bits of the frames that it claims, and clears those of the frames that it gives back. -/
theorem frame_step (hstep : (frameMachine hw).step s e = some s') (hf : f < hw.NUM_VPN) :
    s'.mem.frame_bitMap f = true ↔
      Claims hw f (s, e) ∨ s.mem.frame_bitMap f = true ∧ ¬ GivesBack f (s, e) := by
  cases e with
  | allocateFrame =>
    obtain rfl := Option.some.inj hstep
    simp only [allocateFrame_bits, Bool.or_eq_true, decide_eq_true_eq, Claims, GivesBack, not_false_eq_true,
      and_true]
    exact or_comm
  | freeFrame pfn =>
    obtain rfl := Option.some.inj hstep
    simp only [Claims, GivesBack, false_or]
    by_cases hneg : pfn < 0
    · have hne : ¬ pfn = f := by omega
      simp [freeFrame, hneg, hne]
    · obtain ⟨n, rfl⟩ := Int.eq_ofNat_of_zero_le (not_lt.1 hneg)
      rw [freeFrame_bits]
      simp [hf]
  | mapPage base vpn pfn prot =>
    obtain rfl := Option.some.inj hstep
    simp only [Claims, GivesBack, not_false_eq_true, and_true]
    by_cases e : f = Pte.pfnOfInt pfn
    · subst e
      simp
    · have hne : ¬ Pte.pfnOfInt pfn = f := fun h => e h.symm
      simp [e, hne]
  | unmapPage base vpn =>
    obtain rfl := Option.some.inj hstep
    simp only [Claims, GivesBack, false_or]
    rw [freeFrame_bits]
    simp [hf]

/-- The bits say which frames are in use. -/
theorem bit_iff_inUse {P : FrameState → FrameEvent → Prop} (hrun : Run (frameMachine hw) P s₀ t s) :
    ∀ f < hw.NUM_VPN, s.mem.frame_bitMap f = true ↔ InUse hw s₀ t f := by
  refine hrun.traceInvariant
    (I := fun t s => ∀ f < hw.NUM_VPN, s.mem.frame_bitMap f = true ↔ InUse hw s₀ t f) ?_ ?_
  · intro f _
    exact inUse_nil.symm
  · intro t s e s' hbits _ _ hstep f hf
    rw [frame_step hstep hf, inUse_snoc, hbits f hf]

/-- From any bits, after any calls: the frame that `allocate_frame` gives out next is not in use, and it
gives out none only when all are. -/
theorem frames_given_out_once {P : FrameState → FrameEvent → Prop}
    (hrun : Run (frameMachine hw) P s₀ t s) : HandsOutFreeFrames hw s₀ t s := by
  have hbits := bit_iff_inUse hrun
  generalize halloc : allocateFrame hw s.mem = r
  obtain ⟨pfn, m'⟩ := r
  have hpfn : (allocateFrame hw s.mem).1 = pfn := by rw [halloc]
  have hrejects : ∀ n : Int, n < 0 ∨ hw.NUM_VPN ≤ n ∨ s.mem.frame_bitMap n.toNat = false →
      freeFrame hw s.mem n = s.mem := by
    intro n hn
    unfold freeFrame
    split
    · rfl
    · rename_i hrange
      rw [if_pos (by rcases hn with h | h | h <;> [omega; omega; exact h])]
  rcases allocateFrame_cases halloc with ⟨i, rfl, hi, hfree, -⟩ | ⟨rfl, hfull, -⟩
  · have hnot : ¬ InUse hw s₀ t i := by
      rw [← hbits i hi, hfree]
      simp
    refine ⟨fun f hf => ?_, ?_, Or.inr ⟨i, hpfn⟩, fun f => allocateFrame_bits, hrejects⟩
    · obtain rfl : i = f := by rw [hpfn] at hf; omega
      exact ⟨hi, hnot⟩
    · rw [hpfn]
      refine iff_of_false ?_ fun hall => hnot (hall i hi)
      unfold ERROR
      omega
  · refine ⟨fun f hf => ?_, ?_, Or.inl hpfn, fun f => allocateFrame_bits, hrejects⟩
    · rw [hpfn] at hf
      unfold ERROR at hf
      omega
    · exact iff_of_true hpfn fun f hf => (hbits f hf).1 (hfull f hf)

/-- A frame is given out, mapped, freed while it is mapped, and given out again. -/
def frameEvents : List FrameEvent :=
  [.allocateFrame, .mapPage 0 3 5 .readWrite, .freeFrame (-1), .unmapPage 0 3, .freeFrame 40, .allocateFrame]

/-- The small machine after `init_region0_pageTable`. -/
def frameBoot (pmem_size : Nat) : FrameState :=
  ⟨initRegion0PageTable .small 1 2 4 pmem_size Boot.small.globals.mem, fun _ _ => .zero⟩

def framesMemory : FrameState :=
  ((frameMachine .small).exec (frameBoot 640) frameEvents).get (by decide)

theorem frames_given_out_once_small : (allocateFrame .small framesMemory.mem).1 = 8 ∧
    ¬ InUse .small (frameBoot 640) ((frameMachine .small).trace (frameBoot 640) frameEvents) 8 :=
  have h : HandsOutFreeFrames .small (frameBoot 640) _ framesMemory :=
    frames_given_out_once (P := fun _ _ => True) (Run.ofExec (Option.some_get _).symm (by decide +kernel))
  have h8 : (allocateFrame .small framesMemory.mem).1 = 8 := by decide +kernel
  ⟨h8, (h.fresh 8 h8).2⟩

/-! ## Frames that exist -/

/-- The loop comes to an index when all bits before it are set. -/
theorem mem_loopAccesses {bits : Nat → Bool} {i n j : Nat} : j ∈ loopAccesses bits i n ↔
    i ≤ j ∧ j < i + n ∧ ∀ l, i ≤ l → l < j → bits l = true := by
  induction n generalizing i with
  | zero =>
    simp only [loopAccesses, List.not_mem_nil, false_iff]
    omega
  | succ n ih =>
    rw [loopAccesses, List.mem_cons]
    by_cases hfree : bits i = false
    · rw [if_pos hfree, List.mem_singleton, or_self]
      constructor
      · rintro rfl
        exact ⟨by omega, by omega, fun l hl hl' => by omega⟩
      · rintro ⟨hle, -, hset⟩
        by_contra hne
        rw [hset i le_rfl (by omega)] at hfree
        cases hfree
    · rw [if_neg hfree, ih]
      constructor
      · rintro (rfl | ⟨hle, hlt, hset⟩)
        · exact ⟨by omega, by omega, fun l hl hl' => by omega⟩
        · refine ⟨by omega, by omega, fun l hl hl' => ?_⟩
          by_cases e : l = i
          · subst e
            simpa using hfree
          · exact hset l (by omega) hl'
      · rintro ⟨hle, hlt, hset⟩
        by_cases e : j = i
        · exact Or.inl e
        · exact Or.inr ⟨by omega, by omega, fun l hl hl' => hset l (by omega) hl'⟩

/-- The frame that is given out is one that the loop came to. -/
theorem allocateFrame_mem_loopAccesses (h : (allocateFrame hw m).1 = f) :
    f ∈ loopAccesses m.frame_bitMap 0 hw.NUM_VPN := by
  unfold allocateFrame at h
  split at h
  · rename_i i hfind
    obtain rfl : i = f := by simpa using h
    obtain ⟨-, hlt, hset⟩ := List.find?_range_eq_some.1 hfind
    refine mem_loopAccesses.2 ⟨Nat.zero_le i, ?_, fun l _ hl => by simpa using hset l hl⟩
    rw [Nat.zero_add]
    exact List.mem_range.1 hlt
  · unfold ERROR at h
    omega

/-- A call of the allocator stays within the frames when they suffice for it, and else it does not. -/
theorem withinFrames_iff {frames : Nat} (hin : x.2.InAllocator) :
    WithinFrames hw frames x ↔ FramesSuffice hw frames x := by
  obtain ⟨s, e⟩ := x
  cases e with
  | mapPage => exact hin.elim
  | unmapPage => exact hin.elim
  | allocateFrame =>
    constructor
    · intro h
      by_contra hnot
      simp only [FramesSuffice, not_or, not_exists, not_and] at hnot
      have hread : frames ∈ loopAccesses s.mem.frame_bitMap 0 hw.NUM_VPN :=
        mem_loopAccesses.2 ⟨by omega, by omega, fun l _ hl => by simpa using hnot.2 l hl⟩
      exact absurd (h.bounds frames hread) (lt_irrefl _)
    · intro h
      have hbounds : ∀ i ∈ loopAccesses s.mem.frame_bitMap 0 hw.NUM_VPN, i < frames := by
        intro i hi
        obtain ⟨-, hlt, hset⟩ := mem_loopAccesses.1 hi
        rcases h with h | ⟨j, hj, hfree⟩
        · omega
        · by_contra hge
          rw [hset j (Nat.zero_le j) (by omega)] at hfree
          cases hfree
      exact ⟨hbounds, fun _ f hf => hbounds f (allocateFrame_mem_loopAccesses hf)⟩
  | freeFrame pfn =>
    constructor
    · intro h
      by_contra hnot
      simp only [FramesSuffice, not_or] at hnot
      have hread : pfn.toNat ∈ freeAccesses hw s.mem.frame_bitMap pfn := by
        unfold freeAccesses
        rw [if_neg (by omega)]
        split <;> exact List.mem_cons_self
      have hlt := h.bounds pfn.toNat hread
      omega
    · intro h
      refine ⟨fun i hi => ?_, fun hcall => by cases hcall⟩
      have hi : i ∈ freeAccesses hw s.mem.frame_bitMap pfn := hi
      unfold freeAccesses at hi
      split at hi
      · cases hi
      · have heq : i = pfn.toNat := by
          split at hi <;> simpa using hi
        have h : pfn < 0 ∨ hw.NUM_VPN ≤ pfn ∨ pfn < frames := h
        omega

/-- Calls of `allocate_frame` use up the frames that there are, and one that finds none of them free reads on
behind the bitmap. -/
theorem exists_outside {frames : Nat} (hless : frames < hw.NUM_VPN) (s₀ : FrameState) :
    ¬ AllWithin hw frames (fun e => e = .allocateFrame) s₀ := by
  generalize hcount : ((Finset.range frames).filter fun i => s₀.mem.frame_bitMap i = false).card = n
  induction n using Nat.strong_induction_on generalizing s₀ with
  | _ n ih =>
    intro hall
    have hstep : (frameMachine hw).step s₀ .allocateFrame =
        some { s₀ with mem := (allocateFrame hw s₀.mem).2 } := rfl
    have hen : (frameMachine hw).enabled s₀ .allocateFrame := trivial
    have hone : Run (frameMachine hw) (fun _ e => e = .allocateFrame) s₀ _ _ := Run.nil.snoc hen rfl hstep
    have hwithin := hall _ _ hone (s₀, .allocateFrame) (by simp)
    have hin : FrameEvent.allocateFrame.InAllocator := trivial
    obtain ⟨i, hi, hfree⟩ := ((withinFrames_iff (x := (s₀, .allocateFrame)) hin).1 hwithin).resolve_left
      (by omega)
    generalize halloc : allocateFrame hw s₀.mem = r at hone
    obtain ⟨pfn, m'⟩ := r
    rcases allocateFrame_cases halloc with ⟨f, rfl, hf, hff, rfl⟩ | ⟨-, hfull, -⟩
    · have hlt : f < frames := hwithin.answer rfl f (by rw [halloc])
      refine ih _ ?_ _ rfl fun t s hrun x hx => hall _ _ (hone.trans hrun) x (by simp [hx])
      rw [← hcount]
      refine Finset.card_lt_card (Finset.ssubset_iff_of_subset ?_ |>.2 ⟨f, ?_, ?_⟩)
      · intro j hj
        obtain ⟨hj, hbit⟩ := Finset.mem_filter.1 hj
        refine Finset.mem_filter.2 ⟨hj, ?_⟩
        by_cases e : j = f
        · rw [e, hff]
        · simpa [e] using hbit
      · exact Finset.mem_filter.2 ⟨Finset.mem_range.2 hlt, hff⟩
      · simp
    · rw [hfull i (by omega)] at hfree
      cases hfree

/-- After `init_region0_pageTable`, a run of `allocate_frame` and `free_frame` stays within `frame_bitMap` just
when the frames suffice for its calls. That every run does so takes `NUM_VPN` frames, even if it only allocates. -/
theorem only_existing_frames (hw : Hardware)
    (kernel_text_start kernel_data_start kernel_brk_start pmem_size : Nat) (m : Memory)
    (table : Nat → Nat → Pte) :
    let s₀ : FrameState :=
      ⟨initRegion0PageTable hw kernel_text_start kernel_data_start kernel_brk_start pmem_size m, table⟩
    let frames := numPhysicalFrames hw pmem_size
    (∀ t s, Run (frameMachine hw) (fun _ e => e.InAllocator) s₀ t s →
      ((∀ x ∈ t, WithinFrames hw frames x) ↔ ∀ x ∈ t, FramesSuffice hw frames x)) ∧
    (AllWithin hw frames FrameEvent.InAllocator s₀ ↔ hw.NUM_VPN ≤ frames) ∧
    (AllWithin hw frames (fun e => e = .allocateFrame) s₀ ↔ hw.NUM_VPN ≤ frames) := by
  intro s₀ frames
  have hiff : ∀ t s, Run (frameMachine hw) (fun _ e => e.InAllocator) s₀ t s →
      ((∀ x ∈ t, WithinFrames hw frames x) ↔ ∀ x ∈ t, FramesSuffice hw frames x) := by
    intro t s hrun
    have hin : ∀ x ∈ t, x.2.InAllocator := fun x hx =>
      (hrun.before (I := fun _ => True) trivial (fun _ _ _ _ _ _ _ => trivial) x hx).2.2
    exact forall₂_congr fun x hx => withinFrames_iff (hin x hx)
  have halloc : AllWithin hw frames FrameEvent.InAllocator s₀ →
      AllWithin hw frames (fun e => e = .allocateFrame) s₀ := by
    intro h t s hrun
    refine h t s (hrun.mono fun _ e he => ?_)
    subst he
    trivial
  have hneeds : AllWithin hw frames (fun e => e = .allocateFrame) s₀ → hw.NUM_VPN ≤ frames := by
    intro h
    by_contra hless
    exact exists_outside (by omega) s₀ h
  have hsuffice : hw.NUM_VPN ≤ frames → AllWithin hw frames FrameEvent.InAllocator s₀ := by
    intro h t s hrun
    refine (hiff t s hrun).2 fun x _ => ?_
    obtain ⟨s, e⟩ := x
    cases e with
    | allocateFrame => exact Or.inl h
    | freeFrame pfn =>
      show pfn < 0 ∨ hw.NUM_VPN ≤ pfn ∨ pfn < frames
      omega
    | mapPage => trivial
    | unmapPage => trivial
  exact ⟨hiff, ⟨fun h => hneeds (halloc h), hsuffice⟩, hneeds, fun h => halloc (hsuffice h)⟩

theorem only_existing_frames_small : ∀ x ∈ (frameMachine .small).trace (frameBoot 640)
    [.allocateFrame, .freeFrame 40, .freeFrame 4, .allocateFrame], WithinFrames .small 40 x :=
  have h := (only_existing_frames .small 1 2 4 640 Boot.small.globals.mem fun _ _ => .zero).1 _
    (((frameMachine .small).exec (frameBoot 640) [.allocateFrame, .freeFrame 40, .freeFrame 4,
      .allocateFrame]).get (by decide))
    (Run.ofExec (Option.some_get _).symm (by decide +kernel))
  h.2 (by decide +kernel)

/-- Four frames are free on the machine with ten, and the fifth call reads behind the bitmap. -/
theorem only_existing_frames_fails : ∃ t s,
    Run (frameMachine .small) (fun _ e => e.InAllocator) (frameBoot 160) t s ∧
      ∃ x ∈ t, ∃ i ∈ bitMapAccesses .small x, ¬ i < numPhysicalFrames .small 160 :=
  ⟨_, ((frameMachine .small).exec (frameBoot 160) (List.replicate 5 .allocateFrame)).get (by decide),
    Run.ofExec (Option.some_get _).symm (by decide +kernel), by decide +kernel⟩

end Yalnix
