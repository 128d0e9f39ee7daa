import Yalnix.BootRun
import Yalnix.Proofs.KernelHeap

/-!
# The heap when virtual memory is enabled

`init_region0_pageTable` maps up to `_orig_kernel_brk_page` and no further, and `SetKernelBrk` maps
nothing before virtual memory is enabled. So no heap page is ever mapped, and the heap survives when it
has no page.
-/

namespace Yalnix

open Transition

variable {hw : Hardware} {b : KernelImage} {m m' : Memory} {st st' : BootState}
  {t : List (BootState × BootEvent)}

/-! ## What the steps leave alone -/

/-- The break, the flag and the pages from `lo` up to `hi` are the same. -/
structure SamePages (lo hi : Nat) (m m' : Memory) : Prop where
  brk : m'.kernel_brk = m.kernel_brk
  vm : m'.vm_enabled = m.vm_enabled
  entry : ∀ i, lo ≤ i → i < hi → m'.region0_pt i = m.region0_pt i

namespace SamePages

variable {lo hi : Nat} {m₁ : Memory}

theorem of_eq (hbrk : m'.kernel_brk = m.kernel_brk) (hvm : m'.vm_enabled = m.vm_enabled)
    (htable : m'.region0_pt = m.region0_pt) : SamePages lo hi m m' :=
  ⟨hbrk, hvm, fun _ _ _ => by rw [htable]⟩

theorem trans (h : SamePages lo hi m m₁) (h' : SamePages lo hi m₁ m') : SamePages lo hi m m' :=
  ⟨h'.brk.trans h.brk, h'.vm.trans h.vm, fun i hi hlt => (h'.entry i hi hlt).trans (h.entry i hi hlt)⟩

theorem mapRegion0 {vpn : Nat} {pfn : Int} {prot : Prot} (h : vpn < lo ∨ hi ≤ vpn) :
    SamePages lo hi m (Yalnix.mapRegion0 m vpn pfn prot) := by
  refine ⟨rfl, rfl, fun i hi hlt => ?_⟩
  have hne : i ≠ vpn := by omega
  simp [Yalnix.mapRegion0, mapPage, hne]

/-- Kernel text and data lie below. -/
theorem mapKernelImage {data frames : Int} {i n : Nat} (h : i + n ≤ lo ∨ n = 0) :
    SamePages lo hi m (Yalnix.mapKernelImage hw data frames m i n) := by
  induction n generalizing m i with
  | zero => exact of_eq rfl rfl rfl
  | succ n ih =>
    unfold Yalnix.mapKernelImage
    split
    · exact of_eq rfl rfl rfl
    · split
      · exact of_eq rfl rfl rfl
      · have hpage : SamePages lo hi m (Yalnix.mapRegion0 m i i
            (if (i : Int) < data then Prot.readExec else Prot.readWrite)) := mapRegion0 (by omega)
        exact hpage.trans (ih (by omega))

/-- The kernel stack lies above. -/
theorem mapBootStack {frames : Int} {i n : Nat} (h : hi ≤ i) :
    SamePages lo hi m (Yalnix.mapBootStack hw frames m i n) := by
  induction n generalizing m i with
  | zero => exact of_eq rfl rfl rfl
  | succ n ih =>
    unfold Yalnix.mapBootStack
    split
    · exact of_eq rfl rfl rfl
    · split
      · exact of_eq rfl rfl rfl
      · have hpage : SamePages lo hi m (Yalnix.mapRegion0 m i i .readWrite) := mapRegion0 (by omega)
        exact hpage.trans (ih (by omega))

theorem initRegion0PageTable (text data brk : Nat) (pmem_size : Int) (m : Memory) :
    SamePages brk hw.KSTACK_START_PAGE m (Yalnix.initRegion0PageTable hw text data brk pmem_size m) := by
  have hbits : SamePages brk hw.KSTACK_START_PAGE m
      { m with frame_bitMap := Function.update (fun _ => false) 0 true } := of_eq rfl rfl rfl
  exact hbits.trans ((mapKernelImage (by omega)).trans (mapBootStack le_rfl))

theorem allocateIdleFrame (h : Yalnix.allocateIdleFrame hw m = some m') : SamePages lo hi m m' := by
  unfold Yalnix.allocateIdleFrame at h
  generalize halloc : allocateFrame hw m = r at h
  obtain ⟨pfn, m₁⟩ := r
  simp only at h
  split at h
  · cases h
  · obtain rfl := Option.some.inj h
    rcases allocateFrame_cases halloc with ⟨f, -, -, -, rfl⟩ | ⟨-, -, rfl⟩
    · exact of_eq rfl rfl rfl
    · exact of_eq rfl rfl rfl

theorem identityStack {pt : Nat → Pte} {j n : Nat} :
    SamePages lo hi m (Yalnix.identityStack hw m pt j n).1 := by
  induction n generalizing m pt j with
  | zero => exact of_eq rfl rfl rfl
  | succ n ih =>
    have hpage : SamePages lo hi m (mapPage m pt j (hw.KSTACK_START_PAGE + j : Nat) .readWrite).1 :=
      of_eq rfl rfl rfl
    exact hpage.trans ih

end SamePages

/-- Before virtual memory is enabled, a call that succeeds records its address, which is no smaller. -/
theorem setKernelBrk_tracks {data : Nat} {addr : Int} (hvm : m.vm_enabled = false)
    (h : (setKernelBrk hw data m addr).1 = 0) :
    m.kernel_brk ≤ addr ∧ hw.page addr < hw.KSTACK_START_PAGE ∧
      (setKernelBrk hw data m addr).2 = { m with kernel_brk := addr } := by
  unfold setKernelBrk at h ⊢
  simp only [hvm, Bool.not_false, if_true] at h ⊢
  split at h
  · cases h
  · rename_i hlow
    rw [if_neg hlow]
    split at h
    · cases h
    · rename_i hhigh
      rw [if_neg hhigh]
      split at h
      · cases h
      · rename_i hless
        rw [if_neg hless]
        exact ⟨by omega, by omega, rfl⟩

/-! ## The boot -/

theorem Hardware.lt_of_page_lt (hw : Hardware) {addr : Int} {n : Nat} (h : hw.page addr < n) :
    addr < n * hw.PAGESIZE :=
  Int.lt_mul_of_ediv_lt hw.PAGESIZE_pos h

/-- No heap page is mapped, and the break is the highest address that was asked for. -/
structure BootInv (hw : Hardware) (b : KernelImage) (t : List (BootState × BootEvent)) (st : BootState) :
    Prop where
  unmapped : ∀ i, b.kernel_brk_start ≤ i → i < hw.KSTACK_START_PAGE → st.mem.region0_pt i = .zero
  vm : st.phase ≠ .vmEnabled → st.mem.vm_enabled = false
  brk_lt : st.mem.kernel_brk < hw.KSTACK_START_PAGE * hw.PAGESIZE
  asked_le : ∀ x ∈ t, ∀ addr, x.2 = .setKernelBrk addr → addr ≤ st.mem.kernel_brk
  brk_asked : st.mem.kernel_brk = 0 ∨ ∃ x ∈ t, x.2 = .setKernelBrk st.mem.kernel_brk

namespace BootInv

theorem initial : BootInv hw b [] .initial where
  unmapped i _ _ := rfl
  vm _ := rfl
  brk_lt := by
    have hstack := hw.stack_fits
    have hpages : 0 < (hw.KSTACK_START_PAGE : Int) := by
      unfold Hardware.KSTACK_START_PAGE
      omega
    exact Int.mul_pos hpages hw.PAGESIZE_pos
  asked_le x hx := by simp at hx
  brk_asked := Or.inl rfl

/-- A step that is no call of `SetKernelBrk`. -/
theorem congr {e : BootEvent} (h : BootInv hw b t st) (he : ∀ addr, e ≠ .setKernelBrk addr)
    (hsame : SamePages b.kernel_brk_start hw.KSTACK_START_PAGE st.mem st'.mem)
    (hphase : st.phase ≠ .vmEnabled) : BootInv hw b (t ++ [(st, e)]) st' where
  unmapped i hi hlt := (hsame.entry i hi hlt).trans (h.unmapped i hi hlt)
  vm _ := hsame.vm.trans (h.vm hphase)
  brk_lt := by
    rw [hsame.brk]
    exact h.brk_lt
  asked_le x hx addr haddr := by
    rw [hsame.brk]
    rcases List.mem_append.1 hx with hx | hx
    · exact h.asked_le x hx addr haddr
    · obtain rfl := List.mem_singleton.1 hx
      exact absurd haddr (he addr)
  brk_asked := by
    rw [hsame.brk]
    rcases h.brk_asked with hzero | ⟨x, hx, hbrk⟩
    · exact Or.inl hzero
    · exact Or.inr ⟨x, List.mem_append_left _ hx, hbrk⟩

/-- A call of `SetKernelBrk` that succeeds. -/
theorem setKernelBrk {addr : Int} (h : BootInv hw b t st) (hphase : st.phase ≠ .vmEnabled)
    (hok : BrkSucceeds hw b st (.setKernelBrk addr)) :
    BootInv hw b (t ++ [(st, .setKernelBrk addr)])
      { st with mem := (Yalnix.setKernelBrk hw b.kernel_data_start st.mem addr).2 } := by
  obtain ⟨hle, hpage, hmem⟩ := setKernelBrk_tracks (h.vm hphase) hok
  rw [hmem]
  refine ⟨h.unmapped, h.vm, hw.lt_of_page_lt hpage, fun x hx addr' haddr => ?_,
    Or.inr ⟨(st, .setKernelBrk addr), by simp, rfl⟩⟩
  show addr' ≤ addr
  rcases List.mem_append.1 hx with hx | hx
  · exact (h.asked_le x hx addr' haddr).trans hle
  · obtain rfl := List.mem_singleton.1 hx
    obtain rfl := BootEvent.setKernelBrk.inj haddr
    exact le_rfl

theorem step {e : BootEvent} (h : BootInv hw b t st) (hok : BrkSucceeds hw b st e)
    (hstep : (bootMachine hw b).step st e = some st') : BootInv hw b (t ++ [(st, e)]) st' := by
  obtain ⟨phase, m⟩ := st
  have hphase : phase ≠ .vmEnabled := by
    rintro rfl
    cases hstep
  cases e with
  | setKernelBrk addr =>
    obtain rfl : st' = ⟨phase, (Yalnix.setKernelBrk hw b.kernel_data_start m addr).2⟩ := by
      cases phase <;> simp_all [bootMachine]
    exact h.setKernelBrk hphase hok
  | initRegion0PageTable =>
    cases phase <;> cases hstep
    exact h.congr (by simp) (.initRegion0PageTable _ _ _ _ m) hphase
  | allocateIdleFrame =>
    cases phase with
    | region0Built =>
      obtain ⟨m', halloc, rfl⟩ := Option.map_eq_some_iff.1 hstep
      exact h.congr (by simp) (.allocateIdleFrame halloc) hphase
    | _ => cases hstep
  | initializeKernelStack =>
    cases phase with
    | idleFramed =>
      obtain ⟨r, hstack, rfl⟩ := Option.map_eq_some_iff.1 hstep
      have hvm : m.vm_enabled = false := h.vm hphase
      simp only [Yalnix.initializeKernelStack, hvm, Bool.false_eq_true, if_false,
        Option.some.injEq] at hstack
      subst hstack
      exact h.congr (by simp) .identityStack hphase
    | _ => cases hstep
  | enableVirtualMemory =>
    cases phase <;> cases hstep
    refine ⟨h.unmapped, fun hne => absurd rfl hne, h.brk_lt, fun x hx addr haddr => ?_, ?_⟩
    · rcases List.mem_append.1 hx with hx | hx
      · exact h.asked_le x hx addr haddr
      · obtain rfl := List.mem_singleton.1 hx
        cases haddr
    · rcases h.brk_asked with hzero | ⟨x, hx, hbrk⟩
      · exact Or.inl hzero
      · exact Or.inr ⟨x, List.mem_append_left _ hx, hbrk⟩

end BootInv

/-- The heap survives the switch to virtual memory when no call has asked for more than the image. -/
theorem heap_survives (hrun : Run (bootMachine hw b) (BrkSucceeds hw b) .initial t ⟨.vmEnabled, m⟩) :
    HeapSurvives hw b m ↔ ∀ x ∈ t, WithinImage hw b x.2 := by
  have hinv : BootInv hw b t ⟨.vmEnabled, m⟩ :=
    hrun.traceInvariant .initial fun _ _ _ _ h _ hok hstep => h.step hok hstep
  have hpos := hw.PAGESIZE_pos
  constructor
  · intro hkept x hx
    cases hx₂ : x.2 with
    | setKernelBrk addr =>
      -- else the first page after the image is a heap page
      by_contra hmore
      have hmore : b.kernel_brk_start * hw.PAGESIZE < addr := not_le.1 hmore
      have hbrk : b.kernel_brk_start * hw.PAGESIZE < m.kernel_brk :=
        hmore.trans_le (hinv.asked_le x hx addr hx₂)
      have hlt : (b.kernel_brk_start : Int) < hw.KSTACK_START_PAGE :=
        Int.lt_of_mul_lt_mul_right (hbrk.trans hinv.brk_lt) hpos.le
      obtain ⟨hvalid, -, -⟩ := hkept b.kernel_brk_start ⟨le_rfl, hbrk⟩
      rw [hinv.unmapped b.kernel_brk_start le_rfl (by omega)] at hvalid
      cases hvalid
    | _ => trivial
  · intro hwithin i hi
    have hle : (b.kernel_brk_start : Int) * hw.PAGESIZE ≤ i * hw.PAGESIZE :=
      Int.mul_le_mul_of_nonneg_right (Int.ofNat_le.2 hi.1) hpos.le
    have hbrk := hi.2
    rcases hinv.brk_asked with hzero | ⟨x, hx, hx₂⟩
    · have hzero : m.kernel_brk = 0 := hzero
      have hnonneg : 0 ≤ (i : Int) * hw.PAGESIZE := Int.mul_nonneg (by omega) hpos.le
      omega
    · have hasked := hwithin x hx
      rw [hx₂] at hasked
      have hasked : m.kernel_brk ≤ b.kernel_brk_start * hw.PAGESIZE := hasked
      omega

theorem bootExec {es : List BootEvent} (hexec : (bootMachine hw b).exec .initial es = some st)
    (hphase : st.phase = .vmEnabled)
    (hok : ∀ x ∈ (bootMachine hw b).trace .initial es,
      (bootMachine hw b).enabled x.1 x.2 ∧ BrkSucceeds hw b x.1 x.2) :
    Run (bootMachine hw b) (BrkSucceeds hw b) .initial ((bootMachine hw b).trace .initial es)
      ⟨.vmEnabled, st.mem⟩ := by
  obtain ⟨phase, m⟩ := st
  obtain rfl : phase = .vmEnabled := hphase
  exact .ofExec hexec hok

/-- The break is moved to the end of the image before the table is built, and stays there. -/
def bootEvents : List BootEvent :=
  [.setKernelBrk 64, .initRegion0PageTable, .allocateIdleFrame, .initializeKernelStack,
    .enableVirtualMemory]

def bootEventsState : BootState :=
  ((bootMachine .small Boot.small.image).exec .initial bootEvents).get (by decide)

theorem heap_survives_small : HeapSurvives .small Boot.small.image bootEventsState.mem := by
  have hexec : (bootMachine .small Boot.small.image).exec .initial bootEvents = some bootEventsState :=
    (Option.some_get _).symm
  have hrun := bootExec hexec (by decide) (by decide +kernel)
  exact (heap_survives hrun).2 (by decide +kernel)

/-- One page is asked for while the process system is set up. -/
def grownEvents : List BootEvent :=
  [.setKernelBrk 80, .initRegion0PageTable, .allocateIdleFrame, .initializeKernelStack,
    .enableVirtualMemory]

def grownEventsState : BootState :=
  ((bootMachine .small Boot.small.image).exec .initial grownEvents).get (by decide)

/-- The page that `malloc` has handed out is not mapped when virtual memory is enabled. -/
theorem heap_lost : ¬ ∀ (hw : Hardware) (b : KernelImage) (t : List (BootState × BootEvent)) (m : Memory),
    Run (bootMachine hw b) (BrkSucceeds hw b) .initial t ⟨.vmEnabled, m⟩ → HeapSurvives hw b m := by
  intro h
  have hexec : (bootMachine .small Boot.small.image).exec .initial grownEvents = some grownEventsState :=
    (Option.some_get _).symm
  have hrun := bootExec hexec (by decide) (by decide +kernel)
  obtain ⟨hvalid, -, -⟩ := h _ _ _ _ hrun 4 ⟨by decide, by decide +kernel⟩
  revert hvalid
  decide +kernel

/-! ## The boot of the model -/

/-- `startIdle` is such a boot in which the break does not move any more. -/
theorem startIdle_run (b : Boot hw) {k : Kernel} (h : startIdle b = some k) : ∃ t m,
    Run (bootMachine hw b.image) (fun _ e => ∀ addr, e ≠ .setKernelBrk addr) ⟨.start, b.globals.mem⟩ t
      ⟨.vmEnabled, m⟩ ∧ k.mem = { m with ptbr1 := some b.idle_pcb } := by
  have hframe : ∀ m₀, (allocateFrame hw m₀).1 ≠ ERROR → allocateIdleFrame hw m₀ =
      some (mapPage (allocateFrame hw m₀).2 (fun _ => .zero) (hw.MAX_PT_LEN - 1)
        (allocateFrame hw m₀).1 .readWrite).1 := fun m₀ hne => if_neg hne
  unfold startIdle at h
  simp only at h
  split at h
  · cases h
  · rename_i hpfn
    simp only [Option.bind_eq_bind, Option.bind_eq_some_iff, Option.pure_def, Option.some.injEq,
      Prod.exists] at h
    obtain ⟨m, stack, hstack, rfl⟩ := h
    have hbuilt := Run.nil.snoc (S := bootMachine hw b.image) (a := ⟨.start, b.globals.mem⟩)
      (P := fun _ e => ∀ addr, e ≠ .setKernelBrk addr) (e := BootEvent.initRegion0PageTable) trivial (by simp) rfl
    have hframed := hbuilt.snoc (e := BootEvent.allocateIdleFrame) trivial (by simp)
      (congrArg (Option.map (BootState.mk .idleFramed)) (hframe _ hpfn))
    have hmapped := hframed.snoc (e := BootEvent.initializeKernelStack) trivial (by simp)
      (congrArg (Option.map fun r : Memory × (Nat → Pte) => BootState.mk .stackMapped r.1) hstack)
    exact ⟨_, _, hmapped.snoc (e := BootEvent.enableVirtualMemory) trivial (by simp) rfl, rfl⟩

end Yalnix
