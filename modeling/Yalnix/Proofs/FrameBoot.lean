import Yalnix.Proofs.FrameOwners
import Yalnix.Proofs.SwitchRun

/-!
# Whose frames they are after boot

`init_region0_pageTable` marks the frames of the kernel and of the stack that it was booted on, which becomes that
of the idle process. The frames of the init process are taken like those of any other.
-/

namespace Yalnix

open Intrusive Paging Transition

variable {hw : Hardware} {b : Boot hw} {k k' k₀ : Kernel} {m m' : Memory} {pt stack : Nat → Pte} {f j n : Nat}

/-! ## The bits of region 0 -/

/-- The frames of the kernel stack that the kernel is booted on. -/
def BootStackFrame (hw : Hardware) (f : Nat) : Prop :=
  hw.KSTACK_START_PAGE ≤ f ∧ f < hw.KSTACK_START_PAGE + hw.kernelStackPages

theorem initRegion0PageTable_bits : (initRegion0PageTable hw b.kernel_text_start b.kernel_data_start
    b.kernel_brk_start b.pmem_size m).frame_bitMap f = true ↔ b.Reserved f ∨ BootStackFrame hw f := by
  have himage := b.image_fits
  have hstack := hw.stack_fits
  unfold Hardware.tempMappingPage at himage
  unfold initRegion0PageTable BootStackFrame
  simp only
  rw [mapBootStack_eq _ _ (by unfold Hardware.KSTACK_START_PAGE; omega)]
  have hkernel : (mapKernelImage hw b.kernel_data_start (b.pmem_size / hw.PAGESIZE)
      { m with frame_bitMap := Function.update (fun _ => false) 0 true } b.kernel_text_start
      (b.kernel_brk_start - b.kernel_text_start)).frame_bitMap f = true ↔ b.Reserved f := by
    have hzero : Function.update (fun _ : Nat => false) 0 true f = true ↔ f = 0 := by
      rw [Function.update_apply]
      simp
    unfold Boot.Reserved Boot.ImagePage
    by_cases hle : b.kernel_text_start ≤ b.kernel_brk_start
    · rw [mapKernelImage_eq _ _ (by unfold Hardware.KSTACK_START_PAGE at himage; omega)]
      simp only
      split
      · rename_i hin
        simp only [true_iff]
        omega
      · rename_i hout
        rw [hzero]
        omega
    · rw [Nat.sub_eq_zero_of_le (by omega), mapKernelImage, hzero]
      omega
  simp only
  split
  · rename_i hin
    simp only [true_iff]
    exact Or.inr hin
  · rename_i hout
    rw [hkernel, or_iff_left hout]

theorem identityStack_bits (hfits : hw.KSTACK_START_PAGE + j + n ≤ 2 ^ 24) :
    (identityStack hw m pt j n).1.frame_bitMap f = true ↔ m.frame_bitMap f = true ∨
      hw.KSTACK_START_PAGE + j ≤ f ∧ f < hw.KSTACK_START_PAGE + j + n := by
  induction n generalizing m pt j with
  | zero =>
    rw [identityStack]
    exact (or_iff_left (by omega)).symm
  | succ n ih =>
    rw [identityStack, ih (by omega)]
    simp only [mapPage]
    rw [Pte.pfnOfInt_natCast (by omega)]
    by_cases e : f = hw.KSTACK_START_PAGE + j
    · subst e
      simp
    · rw [Function.update_of_ne e]
      exact or_congr_right (by omega)

/-- Of the frames that the idle process gets, only that of its page has not been marked by
`init_region0_pageTable`. -/
theorem idleStack_takes (hpfn : hw.NUM_VPN ≤ 2 ^ 24) (hbelow : hw.MAX_PT_LEN ≤ hw.NUM_VPN)
    (hvm : m.vm_enabled = false) (hmarked : ∀ f, BootStackFrame hw f → m.frame_bitMap f = true)
    (hne : (allocateFrame hw m).1 ≠ ERROR) {vpn : Nat} {prot : Prot}
    (h : initializeKernelStack hw (mapPage (allocateFrame hw m).2 pt vpn (allocateFrame hw m).1 prot).1 =
      some (m', stack)) :
    Takes hw m m' [Pte.pfnOfInt (allocateFrame hw m).1] := by
  have hstack := hw.stack_fits
  generalize halloc : allocateFrame hw m = r at h hne
  obtain ⟨pfn, m₁⟩ := r
  rcases allocateFrame_cases halloc with ⟨i, rfl, hi, hfree, rfl⟩ | ⟨rfl, -, -⟩
  · have hi24 : Pte.pfnOfInt (i : Int) = i := Pte.pfnOfInt_natCast (lt_of_lt_of_le hi hpfn)
    have hone := takes_one hi hfree
    unfold initializeKernelStack at h
    rw [if_neg (by simp [mapPage, hvm])] at h
    have hm' := congrArg Prod.fst (Option.some.inj h)
    simp only at hm' ⊢
    rw [hi24]
    refine ⟨hone.nodup, hone.free, fun f => ?_⟩
    rw [← hm', identityStack_bits (by unfold Hardware.KSTACK_START_PAGE; omega), ← hone.bits]
    unfold mapPage
    simp only
    rw [hi24, Function.update_idem]
    constructor
    · rintro (hbit | hin)
      · exact hbit
      · exact (hone.bits f).2 (Or.inl (hmarked f ⟨by omega, by omega⟩))
    · exact Or.inl
  · exact absurd rfl hne

/-! ## The idle process -/

/-- The idle process with nothing but the stack that the kernel was booted on. -/
theorem OwnersInv.ofBoot (hbits : ∀ f, k.mem.frame_bitMap f = true ↔ b.Reserved f ∨ BootStackFrame hw f)
    (hlives : ∀ p, k.Lives p ↔ p = b.idle_pcb) (hpt : ∀ i, ((k.pcb b.idle_pcb).region1_pt i).valid = false)
    (hstack : ∀ i < hw.kernelStackPages,
      (k.pcb b.idle_pcb).kernel_stack i = ⟨true, .readWrite, hw.KSTACK_START_PAGE + i⟩) :
    OwnersInv hw b.Reserved k := by
  have himage := b.image_fits
  have hfits := hw.stack_fits
  have hbelow := b.frames_below
  unfold Hardware.tempMappingPage at himage
  have hmapped : ∀ x f, k.mapped hw x = some f ↔
      ∃ i < hw.kernelStackPages, x = .stack b.idle_pcb i ∧ f = hw.KSTACK_START_PAGE + i := by
    intro x f
    rw [Kernel.mapped_eq_some]
    constructor
    · rintro ⟨⟨hl, hin⟩, hv, hf⟩
      have hidle := (hlives _).1 hl
      cases x with
      | page p i =>
        obtain rfl : p = b.idle_pcb := hidle
        exact absurd hv (by simpa [Kernel.entry] using hpt i)
      | stack p i =>
        obtain rfl : p = b.idle_pcb := hidle
        have hin : i < hw.kernelStackPages := hin
        refine ⟨i, hin, rfl, ?_⟩
        rw [← hf]
        exact congrArg Pte.pfn (hstack i hin)
    · rintro ⟨i, hi, rfl, rfl⟩
      have hentry : k.entry (.stack b.idle_pcb i) = ⟨true, .readWrite, hw.KSTACK_START_PAGE + i⟩ := hstack i hi
      rw [hentry]
      exact ⟨⟨(hlives _).2 rfl, hi⟩, rfl, rfl⟩
  refine ⟨⟨fun f => ?_, fun f x y hx hy => ?_, fun f x hx hap => ?_⟩, fun x f hx => ?_, fun p hp i hi => ?_⟩
  · rw [hbits]
    refine or_congr_right ⟨fun hin => ?_, ?_⟩
    · obtain ⟨hlo, hhi⟩ := hin
      exact ⟨.stack b.idle_pcb (f - hw.KSTACK_START_PAGE), (hmapped _ _).2 ⟨_, by omega, rfl, by omega⟩⟩
    · rintro ⟨x, hx⟩
      obtain ⟨i, hi, -, rfl⟩ := (hmapped x f).1 hx
      exact ⟨by omega, by omega⟩
  · obtain ⟨i, -, rfl, hf⟩ := (hmapped x f).1 hx
    obtain ⟨j, -, rfl, hf'⟩ := (hmapped y f).1 hy
    obtain rfl : i = j := by omega
    rfl
  · -- the kernel lies below its stack
    obtain ⟨i, hi, -, rfl⟩ := (hmapped x f).1 hx
    unfold Hardware.KSTACK_START_PAGE at himage hap
    rcases hap with hzero | ⟨-, hlt⟩
    · omega
    · omega
  · obtain ⟨i, hi, -, rfl⟩ := (hmapped x f).1 hx
    unfold Hardware.KSTACK_START_PAGE
    omega
  · obtain rfl := (hlives p).1 hp
    rw [hstack i hi]

theorem startIdle_owners (h : startIdle b = some k) : OwnersInv hw b.Reserved k := by
  have hfits := hw.stack_fits
  have hbelow := b.frames_below
  have hpfn := b.pfn_fits
  obtain ⟨hvm, -⟩ := initRegion0PageTable_stack b (m := b.globals.mem) rfl
  unfold startIdle at h
  simp only at h
  split at h
  · cases h
  rename_i hne
  simp only [Option.bind_eq_bind, Option.bind_eq_some_iff, Option.pure_def, Option.some.injEq,
    Prod.exists] at h
  obtain ⟨m, stack, hstack, hk⟩ := h
  generalize hm₀ : initRegion0PageTable hw b.kernel_text_start b.kernel_data_start b.kernel_brk_start
    b.pmem_size b.globals.mem = m₀ at hvm
  have hbits : ∀ f, m₀.frame_bitMap f = true ↔ b.Reserved f ∨ BootStackFrame hw f := fun f => by
    rw [← hm₀]
    exact initRegion0PageTable_bits
  obtain ⟨-, hentries⟩ := bootStack (m := m₀) hvm (hm₀ ▸ hstack)
  have htakes := idleStack_takes hpfn hbelow (m := m₀) hvm (fun f hf => (hbits f).2 (Or.inr hf)) (hm₀ ▸ hne)
    (hm₀ ▸ hstack)
  -- the idle process before it gets its page
  have hpt : (k.pcb b.idle_pcb).region1_pt = Function.update (fun _ => .zero) (hw.MAX_PT_LEN - 1)
      ⟨true, .readWrite, Pte.pfnOfInt (allocateFrame hw m₀).1⟩ := by
    rw [← hk, ← hm₀]
    simp [Kernel.modifyPcb, createPcb, initPcbSystem, mapPage]
  have hks : (k.pcb b.idle_pcb).kernel_stack = stack := by
    rw [← hk]
    simp [Kernel.modifyPcb]
  have hlives : ∀ p, k.Lives p ↔ p = b.idle_pcb := fun p => by
    rw [← hk]
    by_cases e : p = b.idle_pcb
    · subst e
      simp [Kernel.Lives, Kernel.modifyPcb, createPcb, initPcbSystem]
    · simp [Kernel.Lives, Kernel.modifyPcb, createPcb, initPcbSystem, Boot.globals, e]
  have hmem : k.mem.frame_bitMap = m.frame_bitMap := by
    rw [← hk]
    simp [Kernel.modifyPcb]
  generalize hk₀ : ({ k with
    pcb := Function.update k.pcb b.idle_pcb { k.pcb b.idle_pcb with region1_pt := fun _ => .zero }
    mem := m₀ } : Kernel) = k₀
  have honly : OnlyTable k₀ k b.idle_pcb := by
    refine .update (k.pcb b.idle_pcb) ?_ (by rw [← hk₀]) ?_ ?_
    · simp [← hk₀]
    · simp [← hk₀]
    · simp [← hk₀]
  have hmem₀ : k₀.mem = m₀ := by rw [← hk₀]
  have hzero : ∀ i, (k₀.pcb b.idle_pcb).region1_pt i = .zero := fun i => by simp [← hk₀]
  have hboot : OwnersInv hw b.Reserved k₀ := by
    refine .ofBoot (fun f => by rw [hmem₀]; exact hbits f) (fun p => ?_) (fun i => by rw [hzero]; rfl) fun i hi => ?_
    · by_cases e : p = b.idle_pcb
      · subst e
        exact honly.lives.symm.trans (hlives _)
      · exact (honly.others p e).lives.symm.trans (hlives p)
    · rw [← honly.kernel_stack, hks, hentries i hi,
        Pte.pfnOfInt_natCast (by unfold Hardware.KSTACK_START_PAGE; omega)]
  refine hboot.gainsPages honly ((hlives _).2 rfl) [hw.MAX_PT_LEN - 1] ?_ (fun i hi => ?_)
    (fun i _ => by rw [hzero]; rfl) fun i _ hi => ?_
  · rw [hmem₀, hpt]
    simpa using ⟨htakes.nodup, htakes.free, fun f => by rw [hmem, htakes.bits]⟩
  · rw [List.mem_singleton.1 hi, hpt]
    exact ⟨by omega, by simp⟩
  · rw [List.mem_singleton] at hi
    rw [hzero, hpt, Function.update_of_ne hi]
    exact Or.inl rfl

/-! ## The init process -/

/-- `KernelStart` allocates a kernel stack for the init process, loads its program and copies the stack that it
runs on. -/
theorem startInit_parts (h : startInit b k = some k') : ∃ m stack new rc m' proc,
    initializeKernelStack hw k.mem = some (m, stack) ∧
    (new.region1_pt = (fun _ => .zero) ∧ new.kernel_stack = stack ∧ new.state = .processDefault) ∧
    loadProgram hw m new b.initProgram = some (rc, m', proc) ∧
    k' = { k with
      pcb := Function.update k.pcb b.init_pcb { proc with
        kernel_stack := (copyKernelStack hw m' proc.kernel_stack).2
        kernel_context := .kernelStart }
      allocated := Function.update k.allocated b.init_pcb true
      family := k.family.listInit b.init_pcb
      pidCalls := k.pidCalls + 1
      mem := (copyKernelStack hw m' proc.kernel_stack).1 } := by
  unfold startInit at h
  simp only [Option.bind_eq_bind, Option.bind_eq_some_iff, Option.pure_def, Option.some.injEq,
    Prod.exists] at h
  obtain ⟨m, stack, hinit, rc, m', proc, hload, rfl⟩ := h
  refine ⟨m, stack, _, rc, m', proc, hinit, ⟨?_, ?_, ?_⟩, hload, ?_⟩
  · simp [Kernel.modifyPcb, createPcb]
  · simp [Kernel.modifyPcb]
  · simp [Kernel.modifyPcb, createPcb]
  · simp only [Kernel.modifyPcb, createPcb, Function.update_idem]

theorem startInit_owners (hvm : k.mem.vm_enabled = true) (hfresh : k.allocated b.init_pcb = false)
    (h : startInit b k = some k') : k'.mem.vm_enabled = true ∧ (k'.mem.exhausted = false →
      LoadsOver hw b.initProgram (fun _ => .zero) → OwnersInv hw b.Reserved k → OwnersInv hw b.Reserved k') := by
  have hpfn := b.pfn_fits
  obtain ⟨m, stack, new, rc, m', proc, hinit, ⟨hpt, hks, hstate⟩, hload, hk'⟩ := startInit_parts h
  unfold initializeKernelStack at hinit
  rw [if_pos hvm] at hinit
  have hgets := allocateStack_gets hpfn hinit
  obtain ⟨-, -, hvalid⟩ := allocateStack_entries hinit
  obtain ⟨hvm', hroom'⟩ := loadProgram_flags hload
  generalize hcopy : copyKernelStack hw m' proc.kernel_stack = r at hk'
  obtain ⟨m₁, stack₁⟩ := r
  obtain ⟨hsame, hentries⟩ := copyKernelStack_entries hcopy
  have hmem : k'.mem = m₁ := by rw [hk']
  refine ⟨by rw [hmem]; exact hsame.vm.trans (hvm'.trans (hgets.vm.trans hvm)), fun hroom hover howned => ?_⟩
  rw [hmem] at hroom
  have hroom₁ := hsame.exhausted.symm.trans hroom
  -- the init process with its stack alone
  generalize hk₁ : ({ k with
    pcb := Function.update k.pcb b.init_pcb new
    allocated := Function.update k.allocated b.init_pcb true
    mem := m } : Kernel) = k₁
  have hnew : k₁.pcb b.init_pcb = new := by simp [← hk₁]
  have hlives₁ : k₁.Lives b.init_pcb := by simp [← hk₁, Kernel.Lives, hstate]
  have hstacked : OwnersInv hw b.Reserved k₁ := by
    refine howned.bears (fun hlives => ?_) hlives₁ (fun q hq => ?_) [] ?_ (by simp)
      (fun i _ => ?_) fun i hi => ?_
    · rw [hlives.1] at hfresh
      cases hfresh
    · constructor <;> simp [← hk₁, Kernel.Lives, hq]
    · rw [hnew, hks, show k₁.mem = m by rw [← hk₁]]
      simpa using (hgets.takes (hroom' hroom₁)).2
    · rw [hnew, hpt]
      simp [Pte.zero]
    · rw [hnew, hks]
      simpa using hvalid i hi
  -- then with its program
  generalize hk₂ : ({ k₁ with pcb := Function.update k₁.pcb b.init_pcb proc, mem := m' } : Kernel) = k₂
  obtain ⟨pt, brk, uc, hproc⟩ := loadProgram_frame hload
  have hproc' : k₂.pcb b.init_pcb = proc := by simp [← hk₂]
  have honly : OnlyTable k₁ k₂ b.init_pcb :=
    .update proc (by rw [← hk₂]) (by rw [← hk₂]) (by rw [hproc, hnew]) (by rw [hproc, hnew])
  have hloaded : OwnersInv hw b.Reserved k₂ := by
    have hload₁ : loadProgram hw k₁.mem (k₁.pcb b.init_pcb) b.initProgram = some (rc, m', proc) := by
      rw [hnew, show k₁.mem = m by rw [← hk₁]]
      exact hload
    have hover₁ : LoadsOver hw b.initProgram (k₁.pcb b.init_pcb).region1_pt := by
      rw [hnew, hpt]
      exact hover
    exact hstacked.loads hpfn hlives₁ hover₁ hload₁ hroom₁ (by rw [← hk₂]) (congrArg Pcb.region1_pt hproc') honly
  have hother : ∀ q, q ≠ b.init_pcb → k'.pcb q = k₂.pcb q := fun q hq => by simp [hk', ← hk₂, ← hk₁, hq]
  have hinit' : k'.pcb b.init_pcb = { proc with kernel_stack := stack₁, kernel_context := .kernelStart } := by
    simp [hk']
  refine hloaded.congr (by rw [hmem, ← hk₂]; exact hsame) (fun q => ?_) (fun q => ?_) fun q hq i hi => ?_
  · by_cases e : q = b.init_pcb
    · subst e
      simp [Kernel.Lives, hk', ← hk₂, ← hk₁]
    · simp [Kernel.Lives, hk', ← hk₂, ← hk₁, e]
  · by_cases e : q = b.init_pcb
    · subst e
      rw [hinit', hproc']
    · rw [hother q e]
  · by_cases e : q = b.init_pcb
    · -- the entries that are copied were valid before
      subst e
      have hv := hloaded.kernelStacks _ hq i hi
      rw [hproc'] at hv ⊢
      rw [hinit']
      simp [Pte.frame, hentries i hi, hv]
    · rw [hother q e]

/-! ## KernelStart -/

theorem startIdle_vm (h : startIdle b = some k) : k.mem.vm_enabled = true := by
  unfold startIdle at h
  simp only at h
  split at h
  · cases h
  simp only [Option.bind_eq_bind, Option.bind_eq_some_iff, Option.pure_def, Option.some.injEq,
    Prod.exists] at h
  obtain ⟨m, stack, -, rfl⟩ := h
  rfl

theorem setState_tables (k : Kernel) (q : PcbPtr) (st : ProcessState) (p : PcbPtr) :
    ((k.setState q st).pcb p).region1_pt = (k.pcb p).region1_pt ∧
      ((k.setState q st).pcb p).kernel_stack = (k.pcb p).kernel_stack := by
  by_cases e : p = q
  · subst e
    simp [Kernel.setState, Kernel.modifyPcb]
  · simp [Kernel.setState, Kernel.modifyPcb, e]

/-- Putting a process on a queue changes no table. -/
theorem addToQueue_tables {l : QueueId} {st : ProcessState} {q : PcbPtr}
    (h : addToQueue l st k q = some k') : k'.mem = k.mem ∧
    ∀ p, (k'.pcb p).region1_pt = (k.pcb p).region1_pt ∧ (k'.pcb p).kernel_stack = (k.pcb p).kernel_stack := by
  unfold addToQueue at h
  split at h
  · obtain rfl := Option.some.inj h
    exact ⟨rfl, fun _ => ⟨rfl, rfl⟩⟩
  · obtain ⟨queues, -, rfl⟩ := Option.map_eq_some_iff.1 h
    exact ⟨rfl, setState_tables k q st⟩

theorem kernelStart_space (h : kernelStart b = some k) (hover : LoadsOver hw b.initProgram fun _ => .zero) :
    SpaceInv hw b.Reserved k := by
  have hbooted := kernelStart_booted h
  obtain ⟨g, hfamily⟩ := FamilyInv.start hbooted.familyStart
  unfold kernelStart at h
  simp only [Option.bind_eq_bind, Option.bind_eq_some_iff, Option.pure_def, Option.some.injEq] at h
  obtain ⟨k₁, hidle, k₂, hinit, k₃, hadd, hk⟩ := h
  have hvm := startIdle_vm hidle
  have howned := startIdle_owners hidle
  have hne := b.init_ne_idle
  obtain ⟨m₁, idle, fidle, hk₁⟩ := startIdle_cases hidle
  obtain ⟨m₂, init, finit, hk₂⟩ := startInit_cases hinit
  obtain ⟨hvm₂, howned₂⟩ := startInit_owners hvm (by rw [hk₁]; simp [hne]) hinit
  -- the rest is a matter of queues and states
  have hlives₂ : ∀ p, k₂.Lives p ↔ p = b.idle_pcb ∨ p = b.init_pcb := fun p => by
    by_cases h1 : p = b.idle_pcb <;> by_cases h2 : p = b.init_pcb <;>
      simp [Kernel.Lives, hk₂, hk₁, h1, h2, hne, hne.symm, fidle.state, finit.state]
  have hlives : ∀ p, k.Lives p ↔ p = b.idle_pcb ∨ p = b.init_pcb := fun p => by
    unfold Kernel.Lives
    rw [hbooted.allocated]
    refine ⟨And.left, fun hp => ⟨hp, ?_⟩⟩
    rcases hp with rfl | rfl
    · simp [hbooted.state_idle]
    · simp [hbooted.state_init]
  have hrest : k.mem = k₂.mem ∧ ∀ p, (k.pcb p).region1_pt = (k₂.pcb p).region1_pt ∧
      (k.pcb p).kernel_stack = (k₂.pcb p).kernel_stack := by
    obtain ⟨hmem, htables⟩ := addToQueue_tables hadd
    subst hk
    refine ⟨hmem, fun p => ?_⟩
    obtain ⟨hpt, hks⟩ := setState_tables { k₃ with
      current_process := b.idle_pcb, uctxt := (k₃.pcb b.idle_pcb).user_context } b.idle_pcb .processRunning p
    exact ⟨hpt.trans (htables p).1, hks.trans (htables p).2⟩
  refine ⟨⟨_, g, hfamily⟩, by rw [hrest.1]; exact hvm₂, fun hroom => ?_⟩
  rw [hrest.1] at hroom
  exact (howned₂ hroom hover howned).congr (hrest.1 ▸ .refl _) (fun p => (hlives p).trans (hlives₂ p).symm)
    (fun p => (hrest.2 p).1) fun p _ i _ => by rw [(hrest.2 p).2]

end Yalnix
