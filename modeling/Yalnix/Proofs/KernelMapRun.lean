import Yalnix.Proofs.BootRun
import Yalnix.Proofs.Identity
import Yalnix.Proofs.TempMapping
import Yalnix.WholeRun

/-!
# What the machine walks

The machine goes on walking the table of the process that runs, and region 0 is as boot has left it, with the
kernel stack of that process, as long as `malloc` does not give a fork the PCB of its caller.
-/

namespace Yalnix

open Transition

variable {hw : Hardware} {h : Header} {b : Boot hw} {k k' k₀ k₁ : Kernel} {e : VectorEvent}
  {t : List (Kernel × VectorEvent)}

namespace KeepsMemory

/-- The memory does not change. -/
theorem of_mem (hcurrent : k'.current_process = k.current_process) (hmem : k'.mem = k.mem) :
    KeepsMemory hw k k' := by
  refine ⟨hcurrent, fun hw => ?_, fun i _ => ?_, fun hv => ?_, ?_, ?_⟩
  · rwa [hmem]
  · rw [hmem]
  · rwa [hmem] at hv
  · rw [hmem]
  · rw [hmem]

theorem trans (hk : KeepsMemory hw k k₁) (hk' : KeepsMemory hw k₁ k') : KeepsMemory hw k k' where
  current := hk'.current.trans hk.current
  walks hwalk := by
    have hwalk' := hk'.walks
    rw [hk.current] at hwalk'
    exact hwalk' (hk.walks hwalk)
  entry i hi := (hk'.entry i hi).trans (hk.entry i hi)
  temp hv := hk.temp (hk'.temp hv)
  kernel_brk := hk'.kernel_brk.trans hk.kernel_brk
  vm_enabled := hk'.vm_enabled.trans hk.vm_enabled

theorem setMem {m : Memory} (hm : SameKernelMap hw k.mem m) : KeepsMemory hw k { k with mem := m } where
  current := rfl
  walks hwalk := hm.ptbr1.trans hwalk
  entry := hm.entry
  temp := hm.temp
  kernel_brk := hm.kernel_brk
  vm_enabled := hm.vm_enabled

theorem allows (hw : Hardware) (new : PcbPtr → Prop) (gone : Int → Prop) :
    Allows hw new gone (KeepsMemory hw) where
  refl _ := of_mem rfl rfl
  trans := trans
  current := KeepsMemory.current
  links heq := by
    rw [heq]
    exact of_mem rfl rfl
  store _ := of_mem rfl rfl
  pcb _ := of_mem rfl rfl
  free := of_mem rfl rfl
  memory := setMem
  walk := ⟨rfl, fun _ => rfl, fun _ _ => rfl, id, rfl, rfl⟩
  object _ _ := of_mem rfl rfl
  init hinit := by
    rw [initSyncObject_frame hinit]
    exact of_mem rfl rfl
  reclaim _ hreclaim := by
    rw [syncReclaim_frame hreclaim]
    exact of_mem rfl rfl

/-- An event is a handler's, or a switch. -/
theorem of_step (hstep : (vectorMachine hw h).step k e = some k') : KeepsMemory hw k k' ∨
    ∃ caller next q, e = .schedule ∧ k' = switched hw k caller next q := by
  rcases (allows hw e.Gives (e.Reclaims h)).vectorStep (fun _ hp => hp) (fun _ hid => hid) hstep with
    hk | ⟨u, a, rfl, hk⟩ | ⟨caller, rfl, -, hswitch⟩
  · exact Or.inl hk
  · have hcreate : KeepsMemory hw k (createPcb hw { k with uctxt := u } a.child_pcb) :=
      of_mem rfl rfl
    exact Or.inl (hcreate.trans hk)
  · obtain ⟨next, q, rfl⟩ := schedule_switched hswitch
    exact Or.inr ⟨caller, next, q, rfl, rfl⟩

end KeepsMemory

/-! ## Boot -/

theorem KernelMapped.ofHandler (hk : KernelMapped hw k₀ k) (hmem : KeepsMemory hw k k')
    (hstack : (k'.pcb k.current_process).kernel_stack = (k.pcb k.current_process).kernel_stack) :
    KernelMapped hw k₀ k' where
  walks := by
    rw [hmem.current]
    exact hmem.walks hk.walks
  stack i hi := by
    have hne : hw.KSTACK_START_PAGE + i ≠ hw.tempMappingPage := by
      have := hw.tempMappingPage_lt
      omega
    rw [hmem.current, hstack, hmem.entry _ hne]
    exact hk.stack i hi
  entry i hi hno := (hmem.entry i hi).trans (hk.entry i hi hno)
  temp := by
    by_contra hv
    have hvalid := hmem.temp (by simpa using hv)
    rw [hk.temp] at hvalid
    cases hvalid
  kernel_brk := hmem.kernel_brk.trans hk.kernel_brk
  vm_enabled := hmem.vm_enabled.trans hk.vm_enabled

/-- `schedule` maps the kernel stack of the process that it switches to. -/
theorem KernelMapped.switched (hk : KernelMapped hw k₀ k) (caller : ScheduleCaller) (next : PcbPtr)
    (q : Intrusive.Heap QueueId PcbPtr) : KernelMapped hw k₀ (switched hw k caller next q) where
  walks := rfl
  stack i hi := by
    have hpage : hw.KSTACK_START_PAGE ≤ hw.KSTACK_START_PAGE + i ∧
        hw.KSTACK_START_PAGE + i < hw.KSTACK_START_PAGE + hw.kernelStackPages := by omega
    simp [Yalnix.switched, switchedPcb, mapKernelStack, hi]
  entry i hi hno := by
    have hmap : (mapKernelStack hw k.mem (k.pcb next).kernel_stack).region0_pt i = k.mem.region0_pt i :=
      if_neg hno
    exact hmap.trans (hk.entry i hi hno)
  temp := by
    have hlow := hw.tempMappingPage_lt
    have hmap : (mapKernelStack hw k.mem (k.pcb next).kernel_stack).region0_pt hw.tempMappingPage =
        k.mem.region0_pt hw.tempMappingPage := if_neg (by omega)
    show ((mapKernelStack hw k.mem (k.pcb next).kernel_stack).region0_pt hw.tempMappingPage).valid = false
    rw [hmap]
    exact hk.temp
  kernel_brk := hk.kernel_brk
  vm_enabled := hk.vm_enabled

theorem KernelMapped.step (hk : KernelMapped hw k₀ k) (hgives : GivesElsewhere k e)
    (hstep : (vectorMachine hw h).step k e = some k') : KernelMapped hw k₀ k' := by
  rcases KeepsMemory.of_step hstep with hmem | ⟨caller, next, q, -, rfl⟩
  · exact hk.ofHandler hmem (((ProcessStep.of_step hstep).old _ hgives).kernel_stack id)
  · exact hk.switched caller next q

theorem idleFrames_map {m m' : Memory} {pt stack : Nat → Pte} {vpn : Nat} {pfn : Int} {prot : Prot}
    (hstack : initializeKernelStack hw (mapPage (allocateFrame hw m).2 pt vpn pfn prot).1 =
      some (m', stack)) : SameKernelMap hw m m' := by
  have hframe : SameKernelMap hw m (allocateFrame hw m).2 := .allocateFrame rfl
  have hpage : SameKernelMap hw (allocateFrame hw m).2 (mapPage (allocateFrame hw m).2 pt vpn pfn prot).1 :=
    .of_eq rfl rfl rfl rfl
  exact hframe.trans (hpage.trans (.initializeKernelStack hstack))

/-- The page for temporary mappings is between the kernel image and the kernel stack. -/
theorem startIdle_map (hidle : startIdle b = some k) :
    (k.mem.region0_pt hw.tempMappingPage).valid = false ∧ k.mem.vm_enabled = true := by
  unfold startIdle at hidle
  simp only at hidle
  split at hidle
  · cases hidle
  · simp only [Option.bind_eq_bind, Option.bind_eq_some_iff, Option.pure_def, Option.some.injEq,
      Prod.exists] at hidle
    obtain ⟨m, stack, hstack, rfl⟩ := hidle
    refine ⟨?_, rfl⟩
    have hzero : (initRegion0PageTable hw b.kernel_text_start b.kernel_data_start b.kernel_brk_start
        b.pmem_size b.globals.mem).region0_pt hw.tempMappingPage = .zero :=
      (SamePages.initRegion0PageTable _ _ _ _ _).entry _ b.image_fits hw.tempMappingPage_lt
    have hsame := (idleFrames_map hstack).temp
    show (m.region0_pt hw.tempMappingPage).valid = false
    by_contra hv
    have hvalid : ((initRegion0PageTable hw b.kernel_text_start b.kernel_data_start b.kernel_brk_start
        b.pmem_size b.globals.mem).region0_pt hw.tempMappingPage).valid = true :=
      hsame (by simpa using hv)
    rw [hzero] at hvalid
    cases hvalid

theorem startInit_map (hinit : startInit b k = some k') : SameKernelMap hw k.mem k'.mem := by
  simp only [startInit, Option.bind_eq_bind, Option.bind_eq_some_iff, Option.pure_def, Option.some.injEq,
    Prod.exists] at hinit
  obtain ⟨m, stack, hstack, rc, m', proc, hload, rfl⟩ := hinit
  have hmade : SameKernelMap hw k.mem m := .initializeKernelStack hstack
  exact hmade.trans (.trans (.loadProgram hload) (.copyKernelStack rfl))

theorem kernelStart_mapped (h₀ : kernelStart b = some k₀) : KernelMapped hw k₀ k₀ := by
  have hinv := kernelStart_inv h₀
  simp only [kernelStart, Option.bind_eq_bind, Option.bind_eq_some_iff, Option.pure_def,
    Option.some.injEq] at h₀
  obtain ⟨k₁, hidle, k₂, hinit, k₃, hready, hk₀⟩ := h₀
  obtain ⟨htemp, hvm⟩ := startIdle_map hidle
  have hsame := startInit_map hinit
  have hlast := (KeepsMemory.allows hw (fun _ => False) fun _ => False).addToQueue hready
  have hmem : k₀.mem = k₃.mem := by rw [← hk₀]; rfl
  refine ⟨hinv.table, hinv.stack, fun _ _ _ => rfl, ?_, rfl, ?_⟩
  · rw [hmem]
    by_contra hv
    have hvalid := hsame.temp (hlast.temp (by simpa using hv))
    rw [htemp] at hvalid
    cases hvalid
  · rw [hmem, hlast.vm_enabled, hsame.vm_enabled, hvm]

/-! ## Runs -/

end Yalnix
