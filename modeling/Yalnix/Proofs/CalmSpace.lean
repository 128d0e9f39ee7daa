import Yalnix.Proofs.CrashRun
import Yalnix.Proofs.IsolationRun

/-!
# Owned frames in runs with all calls

A call on an object changes no table, so that every call may stand in the runs in which frames have one owner,
as long as none has to wait.
-/

namespace Yalnix

open Intrusive Transition

variable {hw : Hardware} {k k' k₁ : Kernel} {s : QueueId → List PcbPtr} {g : PcbPtr → List PcbPtr}
  {u : UserContext} {c : Syscall} {e : TrapEvent} {apart : Nat → Prop}

/-! ## Calls on objects -/

/-- The memory and the tables of all processes are the same. -/
structure SameTables (k k' : Kernel) : Prop where
  mem : k'.mem = k.mem
  region1_pt : ∀ p, (k'.pcb p).region1_pt = (k.pcb p).region1_pt
  kernel_stack : ∀ p, (k'.pcb p).kernel_stack = (k.pcb p).kernel_stack

namespace SameTables

theorem of_pcb (hmem : k'.mem = k.mem) (hpcb : k'.pcb = k.pcb) : SameTables k k' := by
  refine ⟨hmem, fun p => ?_, fun p => ?_⟩
  · rw [hpcb]
  · rw [hpcb]

theorem trans (h : SameTables k k₁) (h' : SameTables k₁ k') : SameTables k k' where
  mem := h'.mem.trans h.mem
  region1_pt p := (h'.region1_pt p).trans (h.region1_pt p)
  kernel_stack p := (h'.kernel_stack p).trans (h.kernel_stack p)

theorem of_frame (h : SyncFrame k k') : SameTables k k' := by
  refine ⟨h.mem, fun p => ?_, fun p => ?_⟩
  · rw [h.pcb p]
  · rw [h.pcb p]

end SameTables

namespace Calm

theorem syncCall_tables (h : Calm hw k s) (hmode : k.mode = .user) (hidle : k.current_process ≠ k.idle_process)
    {call : SyncCall} {rc : Int} (hrun : call.run hw k = some (rc, k')) : SameTables k k' := by
  obtain ⟨s', hmoves⟩ := syncCall_moves h.steady.coherent h.call.table (h.off hmode) hidle hrun
  exact .of_frame hmoves.frame

theorem returnSync_tables (h : Calm hw k s) (hmode : k.mode = .user)
    (hidle : k.current_process ≠ k.idle_process) (call : SyncCall)
    (hstep : returnSync (call.run hw k) = some k') : SameTables k k' := by
  obtain ⟨rc, k₁, hrun, rfl⟩ := returnSync_eq_some hstep
  exact (h.syncCall_tables hmode hidle hrun).trans (.of_pcb rfl rfl)

theorem pipeRead_tables (h : Calm hw k s) (hmode : k.mode = .user)
    (hidle : k.current_process ≠ k.idle_process) {kbuf : BufPtr} (hstep : sysPipeRead hw k kbuf = some k') :
    SameTables k k' := by
  simp only [sysPipeRead, Option.bind_eq_bind, Option.bind_eq_some_iff, Prod.exists] at hstep
  obtain ⟨rc, k₁, hread, hstep⟩ := hstep
  have hnew : Calm hw (k.mallocBuffer kbuf) s := h.congr rfl
  have hread : (SyncCall.readPipe (k.uctxt.regs 0) kbuf (k.uctxt.regs 2)).run hw (k.mallocBuffer kbuf) =
    some (rc, k₁) := hread
  have hbefore : SameTables k (k.mallocBuffer kbuf) := .of_pcb rfl rfl
  refine (hbefore.trans (hnew.syncCall_tables hmode hidle hread)).trans ?_
  split at hstep
  · obtain rfl := Option.some.inj hstep
    exact .of_pcb rfl rfl
  · split at hstep
    · obtain rfl := Option.some.inj hstep
      exact .of_pcb rfl rfl
    · obtain ⟨-, rfl⟩ := finishRead_bytes hstep
      exact .of_pcb rfl rfl

theorem pipeWrite_tables (h : Calm hw k s) (hmode : k.mode = .user)
    (hidle : k.current_process ≠ k.idle_process) {kbuf : BufPtr} {data : Nat → UInt8}
    (hstep : sysPipeWrite hw k kbuf data = some k') : SameTables k k' := by
  unfold sysPipeWrite at hstep
  simp only at hstep
  split at hstep
  · cases hstep
  · simp only [Option.bind_eq_bind, Option.bind_eq_some_iff, Prod.exists] at hstep
    obtain ⟨rc, k₁, hwrite, hstep⟩ := hstep
    have hcopied : Calm hw (k.copyFromUser kbuf data (k.uctxt.regs 2)) s := h.congr rfl
    have hwrite : (SyncCall.writePipe (k.uctxt.regs 0) kbuf (k.uctxt.regs 2)).run hw
        (k.copyFromUser kbuf data (k.uctxt.regs 2)) = some (rc, k₁) := hwrite
    have hbefore : SameTables k (k.copyFromUser kbuf data (k.uctxt.regs 2)) := .of_pcb rfl rfl
    refine (hbefore.trans (hcopied.syncCall_tables hmode hidle hwrite)).trans ?_
    split at hstep
    · obtain rfl := Option.some.inj hstep
      exact .of_pcb rfl rfl
    · split at hstep
      · obtain rfl := Option.some.inj hstep
        exact .of_pcb rfl rfl
      · obtain rfl := Option.some.inj hstep
        exact .of_pcb rfl rfl

theorem lockAcquire_tables (h : Calm hw k s) (hmode : k.mode = .user)
    (hidle : k.current_process ≠ k.idle_process) (hstep : sysLockAcquire k = some k') : SameTables k k' := by
  simp only [sysLockAcquire, Option.bind_eq_bind, Option.bind_eq_some_iff, Prod.exists] at hstep
  obtain ⟨rc, k₁, hlock, hstep⟩ := hstep
  have hlock : (SyncCall.lockAcquire (k.uctxt.regs 0)).run hw k = some (rc, k₁) := hlock
  refine (h.syncCall_tables hmode hidle hlock).trans ?_
  split at hstep
  · obtain rfl := Option.some.inj hstep
    exact .of_pcb rfl rfl
  · obtain rfl := Option.some.inj hstep
    exact .of_pcb rfl rfl

/-- A call that neither moves processes nor changes tables by its purpose changes none. -/
theorem call_tables (h : Calm hw k s) (hmode : k.mode = .user) (hidle : k.current_process ≠ k.idle_process)
    (hc : ¬ SpaceEvent (.kernel k.uctxt c)) (hstep : c.run hw k = some k') : SameTables k k' := by
  cases c with
  | fork child => exact absurd trivial hc
  | exec req => exact absurd trivial hc
  | exit => exact absurd trivial hc
  | wait kstatus_ptr => exact absurd trivial hc
  | getPid => exact absurd trivial hc
  | brk => exact absurd trivial hc
  | delay => exact absurd trivial hc
  | pipeInit allocated buffer =>
    exact h.returnSync_tables hmode hidle (.initPipe (k.uctxt.regs 0) allocated buffer) hstep
  | pipeRead kbuf => exact h.pipeRead_tables hmode hidle hstep
  | pipeWrite kbuf data => exact h.pipeWrite_tables hmode hidle hstep
  | lockInit allocated => exact h.returnSync_tables hmode hidle (.initLock (k.uctxt.regs 0) allocated) hstep
  | lockAcquire => exact h.lockAcquire_tables hmode hidle hstep
  | lockRelease => exact h.returnSync_tables hmode hidle (.lockRelease (k.uctxt.regs 0)) hstep
  | cvarInit allocated => exact h.returnSync_tables hmode hidle (.initCvar (k.uctxt.regs 0) allocated) hstep
  | signal => exact h.returnSync_tables hmode hidle (.cvarSignal (k.uctxt.regs 0)) hstep
  | broadcast rc => exact h.returnSync_tables hmode hidle (.cvarBroadcast (k.uctxt.regs 0) rc) hstep
  | cvarWait =>
    obtain rfl := sysCvarWait_error hstep
    exact .of_pcb rfl rfl
  | unimplemented =>
    obtain rfl := Option.some.inj hstep
    exact .of_pcb rfl rfl

end Calm

/-! ## Every step -/

theorem FamilyInv.quiet (h : FamilyInv k s g) (hcalm : Calm hw k s) (hmode : k.mode = .user)
    (hq : Quiet hw { k with uctxt := u } s c k') (hfamily : k'.family = k.family) : FamilyInv k' s g := by
  have hcalm' : Calm hw { k with uctxt := u } s := hcalm.congr rfl
  refine h.keeps (hcalm'.quiet hmode hq).steady hfamily hq.allocated hq.idle (fun p => ?_) (fun p hz => ?_)
    (fun _ => ?_) fun l p hp => Or.inl hp
  · exact ⟨(hq.pcb p).parent, Or.inl (hq.pcb p).waiting⟩
  · rwa [(hq.pcb p).state] at hz
  · rw [hq.current]
    exact h.allocated_current hmode

/-- Every step in which no call has to wait keeps the families, and is one of the cases. -/
theorem FamilyInv.calmStep (h : FamilyInv k s g) (hcalm : Calm hw k s) (hen : (trapMachine hw).enabled k e)
    (hok : KeepsGoing hw k e) (hstep : (trapMachine hw).step k e = some k') :
    ∃ s' g', FamilyInv k' s' g' ∧ SpaceCase hw k e k' := by
  by_cases hevent : SpaceEvent e
  · exact h.spaceStep hen hevent hok.2 hstep
  cases e with
  | kernel u c =>
    obtain ⟨hmode, hidle, -⟩ := hen
    have hu : Calm hw { k with uctxt := u } s := hcalm.congr rfl
    have hgo : GoesOn hw { k with uctxt := u } u c := by
      cases c with
      | fork child => exact absurd trivial hevent
      | _ => exact hok.1
    have hnone : ¬ FamilyEvent (.kernel u c) := by
      cases c with
      | fork child => exact absurd trivial hevent
      | exit => exact absurd trivial hevent
      | wait kstatus_ptr => exact absurd trivial hevent
      | delay => exact absurd trivial hevent
      | _ => exact not_false
    obtain ⟨hq, hfamily⟩ := hu.quietCall hmode hidle hgo hnone hstep
    have htables := hu.call_tables hmode hidle hevent hstep
    refine ⟨s, g, h.quiet hcalm hmode hq hfamily, .same ?_ fun p => ?_⟩
    · have hmem : k'.mem = k.mem := htables.mem
      rw [hmem]
      exact .refl _
    · refine ⟨?_, htables.region1_pt p, htables.kernel_stack p⟩
      unfold Kernel.Lives
      rw [hq.allocated, (hq.pcb p).state]
  | clock u => exact absurd trivial hevent
  | schedule => exact absurd trivial hevent
  | resume => exact absurd trivial hevent

/-! ## The invariant -/

/-- What holds in every state of a run in which no call has to wait. -/
structure MemoryInv (hw : Hardware) (apart : Nat → Prop) (k : Kernel) : Prop where
  calm : Calm hw k k.queue
  space : SpaceInv hw apart k
  switch : ∃ t, SwitchInv hw t k

namespace MemoryInv

theorem family (h : MemoryInv hw apart k) : ∃ g, FamilyInv k k.queue g := by
  obtain ⟨s, g, hinv⟩ := h.space.family
  obtain rfl : k.queue = s := hinv.steady.coherent.queue_eq
  exact ⟨g, hinv⟩

theorem walks (h : MemoryInv hw apart k) : k.mem.ptbr1 = some k.current_process := by
  obtain ⟨t, hswitch⟩ := h.switch
  exact hswitch.table

theorem spaceCase (h : MemoryInv hw apart k) (hen : (trapMachine hw).enabled k e)
    (hok : NeverWaits hw k e ∧ KeepsOwners hw k e) (hstep : (trapMachine hw).step k e = some k') :
    SpaceCase hw k e k' := by
  obtain ⟨g, hinv⟩ := h.family
  obtain ⟨s', g', -, hcase⟩ := hinv.calmStep h.calm hen ⟨hok.1, hok.2.1⟩ hstep
  exact hcase

/-- A failure of `allocate_frame` stays recorded. -/
theorem room (h : MemoryInv hw apart k) (hpfn : hw.NUM_VPN ≤ 2 ^ 24) (hen : (trapMachine hw).enabled k e)
    (hok : NeverWaits hw k e ∧ KeepsOwners hw k e) (hstep : (trapMachine hw).step k e = some k')
    (hroom : k'.mem.exhausted = false) : k.mem.exhausted = false :=
  ((h.spaceCase hen hok hstep).flags hpfn h.space.vm).2 hroom

theorem step (h : MemoryInv hw apart k) (hpfn : hw.NUM_VPN ≤ 2 ^ 24) (hen : (trapMachine hw).enabled k e)
    (hok : NeverWaits hw k e ∧ KeepsOwners hw k e) (hstep : (trapMachine hw).step k e = some k') :
    MemoryInv hw apart k' := by
  obtain ⟨g, hinv⟩ := h.family
  obtain ⟨s', g', hinv', hcase⟩ := hinv.calmStep h.calm hen ⟨hok.1, hok.2.1⟩ hstep
  obtain ⟨hvm, hflags⟩ := hcase.flags hpfn h.space.vm
  obtain ⟨s₁, -, hcalm⟩ := h.calm.step hen hok.1 hstep
  obtain rfl : k'.queue = s₁ := hcalm.steady.coherent.queue_eq
  obtain ⟨t, hswitch⟩ := h.switch
  have helse : ForkElsewhere k e := by
    cases e with
    | kernel u c =>
      cases c with
      | fork child => exact hok.1.2
      | _ => trivial
    | _ => trivial
  refine ⟨hcalm, ⟨⟨s', g', hinv'⟩, hvm, fun hroom => ?_⟩, _, hswitch.step helse hstep⟩
  exact (h.space.owners (hflags hroom)).step hinv hpfn h.space.vm hcase hok.2 hroom

end MemoryInv

theorem kernelStart_memory {b : Boot hw} {k₀ : Kernel} (h₀ : kernelStart b = some k₀)
    (hboot : LoadsOver hw b.initProgram fun _ => .zero) : MemoryInv hw b.Reserved k₀ :=
  ⟨(kernelStart_booted h₀).dispatchStart.calm, kernelStart_space h₀ hboot, [], kernelStart_inv h₀⟩

end Yalnix
