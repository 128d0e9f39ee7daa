import Yalnix.SwitchRun
import Yalnix.Proofs.ForkRun
import Yalnix.Proofs.KernelHeap
import Yalnix.Proofs.TrapStep
import Yalnix.Proofs.Unswitched

/-!
# Switches are coherent

Only `schedule` switches, and it leaves `REG_PTBR1` and the kernel stack pages with the process that it
switches to.
-/

namespace Yalnix

open Intrusive Transition

variable {hw : Hardware} {k k₀ k' : Kernel} {t : List (Kernel × TrapEvent)} {e : TrapEvent}

/-- The invariant, in all modes. -/
structure SwitchInv (hw : Hardware) (t : List (Kernel × TrapEvent)) (k : Kernel) : Prop where
  table : k.mem.ptbr1 = some k.current_process
  stack : k.StackMapped hw
  runTime : (k.pcb k.current_process).run_time = ticksSinceSwitch t

@[simp] theorem ticksSinceSwitch_kernel {u : UserContext} {c : Syscall} :
    ticksSinceSwitch (t ++ [(k, .kernel u c)]) = ticksSinceSwitch t := by
  simp [ticksSinceSwitch]

@[simp] theorem ticksSinceSwitch_clock {u : UserContext} :
    ticksSinceSwitch (t ++ [(k, .clock u)]) = ticksSinceSwitch t + 1 := by
  simp [ticksSinceSwitch]

@[simp] theorem ticksSinceSwitch_schedule : ticksSinceSwitch (t ++ [(k, .schedule)]) = 0 := by
  simp [ticksSinceSwitch]

@[simp] theorem ticksSinceSwitch_resume :
    ticksSinceSwitch (t ++ [(k, .resume)]) = ticksSinceSwitch t := by
  simp [ticksSinceSwitch]

theorem nextProcess_queues {next : PcbPtr} {k₁ : Kernel} (h : nextProcess k = some (next, k₁)) :
    ∃ q, k₁ = { k with queues := q } := by
  unfold nextProcess at h
  split at h
  · obtain ⟨-, rfl⟩ := Prod.mk.inj (Option.some.inj h)
    exact ⟨_, rfl⟩
  · simp only [Kernel.pop, Option.bind_eq_bind, Option.bind_eq_some_iff, Option.pure_def,
      Option.some.injEq, Prod.mk.injEq, Prod.exists] at h
    obtain ⟨node, k₂, ⟨r, q, -, x, -, -, rfl⟩, p, -, -, rfl⟩ := h
    exact ⟨q, rfl⟩

/-- What `schedule` does when it returns, whatever the ready queue is like. -/
theorem schedule_switched {caller : ScheduleCaller} (h : schedule hw k caller = some k') :
    ∃ next q, k' = switched hw k caller next q := by
  cases hnext : nextProcess k with
  | none => simp [schedule, hnext] at h
  | some r =>
    obtain ⟨next, k₁⟩ := r
    obtain ⟨q, rfl⟩ := nextProcess_queues hnext
    exact ⟨next, q, Option.some.inj (h.symm.trans (schedule_eq hnext))⟩

namespace SwitchInv

theorem unswitched {t' : List (Kernel × TrapEvent)} (h : SwitchInv hw t k) (hk : Unswitched hw k k')
    (ht : ticksSinceSwitch t' = ticksSinceSwitch t) : SwitchInv hw t' k' where
  table := by rw [hk.mem.ptbr1, hk.current, h.table]
  stack i hi := by rw [hk.mem.stack _ (by omega), hk.current, hk.stack, h.stack i hi]
  runTime := by rw [hk.current, hk.runTime, h.runTime, ht]

theorem clock {u : UserContext} (h : SwitchInv hw t k)
    (hstep : (trapMachine hw).step k (.clock u) = some k') :
    SwitchInv hw (t ++ [(k, .clock u)]) k' := by
  obtain ⟨k₁, hupdate, htick⟩ := Unswitched.clockHandler hstep
  have henter : Unswitched hw k k₁ := by
    refine Unswitched.trans ?_ hupdate
    exact .of_eq rfl rfl rfl
  obtain ⟨hcurrent, hmem, hstack, htime⟩ := htick
  have hcurrent : k'.current_process = k₁.current_process := hcurrent
  have hstack : (k'.pcb k₁.current_process).kernel_stack = (k₁.pcb k₁.current_process).kernel_stack := by
    simpa [Kernel.modifyPcb] using hstack
  have htime : (k'.pcb k₁.current_process).run_time = (k₁.pcb k₁.current_process).run_time + 1 := by
    simpa [Kernel.modifyPcb] using htime
  rw [henter.current] at hcurrent hstack htime
  refine ⟨?_, fun i hi => ?_, ?_⟩
  · rw [hmem.ptbr1, hcurrent]
    exact henter.mem.ptbr1.trans h.table
  · rw [hmem.stack _ (by omega), hcurrent, hstack, henter.stack]
    exact (henter.mem.stack _ (by omega)).trans (h.stack i hi)
  · rw [hcurrent, htime, henter.runTime, h.runTime, ticksSinceSwitch_clock]

/-- The process switched to has just been dispatched. -/
theorem schedule {caller : ScheduleCaller} {next : PcbPtr} {q : Heap QueueId PcbPtr} :
    SwitchInv hw (t ++ [(k, .schedule)]) (switched hw k caller next q) := by
  refine ⟨rfl, fun i hi => ?_, ?_⟩
  · simp [switched, switchedPcb, mapKernelStack, hi]
  · simp [switched, switchedPcb]

theorem step (h : SwitchInv hw t k) (he : ForkElsewhere k e)
    (hstep : (trapMachine hw).step k e = some k') : SwitchInv hw (t ++ [(k, e)]) k' := by
  cases e with
  | kernel u c =>
    have hne : ∀ child, c = .fork child → child ≠ k.current_process := by
      rintro child rfl
      exact he
    have henter : Unswitched hw k { k with uctxt := u } := .of_eq rfl rfl rfl
    exact h.unswitched (henter.trans (Unswitched.syscall hne hstep)) (by simp)
  | clock u => exact h.clock hstep
  | schedule =>
    cases hmode : k.mode with
    | user => simp [trapMachine, hmode] at hstep
    | resumed => simp [trapMachine, hmode] at hstep
    | atSchedule caller =>
      have hstep : Yalnix.schedule hw k caller = some k' := by simpa [trapMachine, hmode] using hstep
      obtain ⟨next, q, rfl⟩ := schedule_switched hstep
      exact schedule
  | resume => exact h.unswitched (Unswitched.resume h.table hstep) (by simp)

end SwitchInv

/-! ## Boot -/

theorem mapKernelImage_vm_enabled {m : Memory} {data frames : Int} {i n : Nat} :
    (mapKernelImage hw data frames m i n).vm_enabled = m.vm_enabled := by
  induction n generalizing m i with
  | zero => rfl
  | succ n ih =>
    unfold mapKernelImage
    split
    · rfl
    · split
      · rfl
      · exact ih

/-- The table of region 0 that the kernel is booted with: the kernel stack is mapped to itself. -/
theorem initRegion0PageTable_stack (b : Boot hw) {m : Memory} (hm : m.vm_enabled = false) :
    let m := initRegion0PageTable hw b.kernel_text_start b.kernel_data_start b.kernel_brk_start
      b.pmem_size m
    m.vm_enabled = false ∧ ∀ i < hw.kernelStackPages, m.region0_pt (hw.KSTACK_START_PAGE + i) =
      ⟨true, .readWrite, hw.KSTACK_START_PAGE + i⟩ := by
  have hfits := hw.stack_fits
  unfold initRegion0PageTable
  simp only
  rw [mapBootStack_eq _ _ (by unfold Hardware.KSTACK_START_PAGE; omega)]
  exact ⟨mapKernelImage_vm_enabled.trans hm, fun i hi => if_pos (by omega)⟩

theorem identityStack_eq (m : Memory) (pt : Nat → Pte) (j n : Nat) :
    (identityStack hw m pt j n).2 = fun i => if j ≤ i ∧ i < j + n then
      ⟨true, .readWrite, Pte.pfnOfInt (hw.KSTACK_START_PAGE + i : Nat)⟩ else pt i := by
  induction n generalizing m pt j with
  | zero => rw [identityStack, ite_range_zero]
  | succ n ih =>
    rw [identityStack, ← ite_range_update pt fun i =>
      ⟨true, .readWrite, Pte.pfnOfInt (hw.KSTACK_START_PAGE + i : Nat)⟩]
    exact ih _ _ _

/-- Before virtual memory is on, a kernel stack is mapped to itself. -/
theorem bootStack {m m' : Memory} {pt stack : Nat → Pte} {vpn : Nat} {pfn : Int} {prot : Prot}
    (hm : m.vm_enabled = false)
    (h : initializeKernelStack hw (mapPage (allocateFrame hw m).2 pt vpn pfn prot).1 = some (m', stack)) :
    SameWindow hw m m' ∧ ∀ i < hw.kernelStackPages,
      stack i = ⟨true, .readWrite, Pte.pfnOfInt (hw.KSTACK_START_PAGE + i : Nat)⟩ := by
  have hvm : (allocateFrame hw m).2.vm_enabled = m.vm_enabled := by
    rcases allocateFrame_cases (Prod.mk.eta.symm : allocateFrame hw m = _) with
      ⟨i, -, -, -, heq⟩ | ⟨-, -, heq⟩ <;> rw [heq]
  have hmapped : SameWindow hw m (mapPage (allocateFrame hw m).2 pt vpn pfn prot).1 :=
    (SameWindow.allocateFrame rfl).trans (.of_eq rfl rfl)
  refine ⟨hmapped.trans (SameWindow.initializeKernelStack h), fun i hi => ?_⟩
  unfold initializeKernelStack at h
  rw [if_neg (by simp [mapPage, hvm, hm])] at h
  have hstack : (identityStack hw _ _ _ _).2 = stack := congrArg Prod.snd (Option.some.inj h)
  rw [← hstack, identityStack_eq]
  exact if_pos (by omega)

/-- The idle process is the first, on the kernel stack that the kernel was booted on. -/
theorem startIdle_inv {b : Boot hw} (h : startIdle b = some k) :
    SwitchInv hw [] k ∧ k.current_process = b.idle_pcb := by
  have hfits := hw.stack_fits
  have hbelow := b.frames_below
  have hpfn := b.pfn_fits
  obtain ⟨hvm, hwindow⟩ := initRegion0PageTable_stack b (m := b.globals.mem) rfl
  unfold startIdle at h
  simp only at h
  split at h
  · cases h
  · simp only [Option.bind_eq_bind, Option.bind_eq_some_iff, Option.pure_def, Option.some.injEq,
      Prod.exists] at h
    obtain ⟨m, stack, hstack, rfl⟩ := h
    obtain ⟨hsame, hentries⟩ := bootStack hvm hstack
    have hcurrent : b.globals.current_process = b.idle_pcb := rfl
    refine ⟨⟨?_, fun i hi => ?_, ?_⟩, ?_⟩
    · simp [Kernel.modifyPcb, createPcb, initPcbSystem, hcurrent]
    · have hpage : hw.KSTACK_START_PAGE + i < 2 ^ 24 := by
        unfold Hardware.KSTACK_START_PAGE
        omega
      have hown : stack i = m.region0_pt (hw.KSTACK_START_PAGE + i) := by
        rw [hentries i hi, hsame.stack _ (by omega), hwindow i hi, Pte.pfnOfInt_natCast hpage]
      simp [Kernel.modifyPcb, createPcb, initPcbSystem, hcurrent, hown]
    · simp [Kernel.modifyPcb, createPcb, initPcbSystem, hcurrent, ticksSinceSwitch]
    · simp [Kernel.modifyPcb, createPcb, initPcbSystem, hcurrent]

/-- The init process is made beside it. -/
theorem startInit_unswitched {b : Boot hw} (h : startInit b k = some k')
    (hcurrent : k.current_process = b.idle_pcb) : Unswitched hw k k' := by
  have hne : b.init_pcb ≠ k.current_process := by
    rw [hcurrent]
    exact b.init_ne_idle
  simp only [startInit, Option.bind_eq_bind, Option.bind_eq_some_iff, Option.pure_def,
    Option.some.injEq, Prod.exists] at h
  obtain ⟨m, stack, hstack, rc, m', proc, hload, rfl⟩ := h
  have hcreated := (Unswitched.createPcb hne).trans (.setMem (SameWindow.initializeKernelStack hstack))
  have hloaded := (hcreated.modifyOther hne fun pcb =>
    { pcb with kernel_stack := stack, user_context := b.uctxt }).trans (.setMem (SameWindow.loadProgram hload))
  exact (hloaded.trans (.setMem (SameWindow.copyKernelStack rfl))).modifyOther hne _

theorem kernelStart_inv {b : Boot hw} (h : kernelStart b = some k) : SwitchInv hw [] k := by
  simp only [kernelStart, Option.bind_eq_bind, Option.bind_eq_some_iff, Option.pure_def,
    Option.some.injEq] at h
  obtain ⟨k₁, hidle, k₂, hinit, k₃, hready, rfl⟩ := h
  obtain ⟨hinv, hcurrent⟩ := startIdle_inv hidle
  have hstarted := (startInit_unswitched hinit hcurrent).trans (Unswitched.addToQueue hready)
  refine hinv.unswitched (hstarted.trans (Unswitched.trans ?_ (.setState _ b.idle_pcb _))) rfl
  exact .of_eq (hstarted.current.trans hcurrent).symm rfl rfl

/-! ## The theorem -/

/-- In every run of traps from boot in which no process forks at its own address, the switches are
coherent. -/
theorem switch_coherent {b : Boot hw} (h₀ : kernelStart b = some k₀)
    (hrun : Run (trapMachine hw) ForkElsewhere k₀ t k) : SwitchCoherent hw t k := by
  have hinv : SwitchInv hw t k := by
    refine hrun.traceInvariant (kernelStart_inv h₀) ?_
    intro t k e k' hinv hen he hstep
    exact hinv.step he hstep
  refine ⟨fun _ => hinv.table, fun _ => hinv.stack, ?_, hinv.runTime⟩
  rintro t₁ k₁ rfl ⟨caller, hcontext⟩
  obtain ⟨-, -, -, hstep⟩ := hrun.last
  cases hmode : k₁.mode with
  | user => simp [trapMachine, hmode] at hstep
  | resumed => simp [trapMachine, hmode] at hstep
  | atSchedule caller' =>
    have hstep : schedule hw k₁ caller' = some k := by simpa [trapMachine, hmode] using hstep
    obtain ⟨next, q, rfl⟩ := schedule_switched hstep
    exact switched_uctxt hcontext

/-- The init process has forked, and stands aside for its child. -/
def asideEvents : List TrapEvent :=
  [.kernel (Boot.small.uctxt.setReg0 1) .delay, .schedule, .resume]

def childKernel : Kernel := ((trapMachine .small).exec forkedKernel asideEvents).get (by decide +kernel)

theorem switch_coherent_small : childKernel.current_process = 102 ∧ SwitchCoherent .small
    ((trapMachine .small).trace Boot.smallKernel dispatchEvents ++
      [(initKernel, .kernel Boot.small.uctxt (.fork 102))] ++
      (trapMachine .small).trace forkedKernel asideEvents) childKernel := by
  have hdispatch : ∀ k, ∀ e ∈ dispatchEvents, ForkElsewhere k e := by
    simp [dispatchEvents, ForkElsewhere]
  have hfork : ForkElsewhere initKernel (.kernel Boot.small.uctxt (.fork 102)) := by
    show (102 : PcbPtr) ≠ initKernel.current_process
    decide +kernel
  have haside : ∀ k, ∀ e ∈ asideEvents, ForkElsewhere k e := by
    simp [asideEvents, ForkElsewhere]
  have hen : ∀ x ∈ (trapMachine .small).trace forkedKernel asideEvents,
      (trapMachine .small).enabled x.1 x.2 := by
    decide +kernel
  have hforked : Run (trapMachine .small) ForkElsewhere Boot.smallKernel _ forkedKernel :=
    (initKernel_run hdispatch).snoc (by decide +kernel) hfork (Option.some_get _).symm
  have hrun : Run (trapMachine .small) ForkElsewhere forkedKernel _ childKernel :=
    Run.ofExec (Option.some_get _).symm fun x hx => ⟨hen x hx, haside x.1 x.2 (System.mem_trace hx)⟩
  exact ⟨by decide +kernel, switch_coherent (Option.some_get _).symm (hforked.trans hrun)⟩

/-! ## A process that forks at its own address -/

/-- The init process `101` forks `102`, which forks `103`; `103` exits, and `102` exits and frees `103`,
which stays on the zombie queue. -/
def orphanEvents : List TrapEvent :=
  let u := Boot.small.uctxt
  let delay (n : Int) : List TrapEvent := [.kernel (u.setReg0 n) .delay, .schedule, .resume]
  let exit : List TrapEvent := [.kernel u .exit, .schedule, .resume]
  let preempt : List TrapEvent := [.clock u, .clock u, .schedule, .resume]
  preempt ++ [.kernel u (.fork 102)] ++ delay 3 ++
    [.kernel u (.fork 90), .kernel u (.fork 103)] ++ delay 1 ++ exit ++ preempt ++ exit ++ preempt

/-- The init process gets the address `103` for another child, which forks `104`. While both are ready,
init reaps `102`, and that links `103` to the zombie queue; there the exits of `104` and `103` follow. -/
def corruptEvents : List TrapEvent :=
  let u := Boot.small.uctxt
  let delay (n : Int) : List TrapEvent := [.kernel (u.setReg0 n) .delay, .schedule, .resume]
  let exit : List TrapEvent := [.kernel u .exit, .schedule, .resume]
  [.kernel u (.fork 103)] ++ delay 1 ++
    [.kernel u (.fork 90), .clock u, .kernel u (.fork 104)] ++ delay 1 ++
    [.clock u, .kernel u (.wait 500)] ++ delay 1 ++ exit ++ exit

/-- `104`, which has exited and is freed, is dispatched, and forks at its own address. -/
def ownForkEvents : List TrapEvent :=
  let u := Boot.small.uctxt
  [.clock u, .clock u, .schedule, .resume, .kernel u (.fork 90), .kernel u (.fork 104)]

def ownForkKernel : Kernel := ((trapMachine .small).exec Boot.smallKernel
  (orphanEvents ++ corruptEvents ++ ownForkEvents)).get (by decide +kernel)

/-- Then it runs on in user mode, and the kernel stack pages of region 0 are not those of its PCB. -/
theorem switch_coherent_fails : ∃ t, Run (trapMachine .small) (fun _ _ => True) Boot.smallKernel t
    ownForkKernel ∧ ownForkKernel.mode = .user ∧ ¬ ownForkKernel.StackMapped .small := by
  have hen : ∀ x ∈ (trapMachine .small).trace Boot.smallKernel
      (orphanEvents ++ corruptEvents ++ ownForkEvents), (trapMachine .small).enabled x.1 x.2 := by
    decide +kernel
  refine ⟨_, Run.ofExec (Option.some_get _).symm fun x hx => ⟨hen x hx, trivial⟩, by decide +kernel,
    fun hmapped => ?_⟩
  have hother : ownForkKernel.mem.region0_pt (Hardware.small.KSTACK_START_PAGE + 0) ≠
      (ownForkKernel.pcb ownForkKernel.current_process).kernel_stack 0 := by decide +kernel
  exact hother (hmapped 0 (by decide))

end Yalnix
