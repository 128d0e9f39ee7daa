import Yalnix.Identity
import Yalnix.Proofs.Effects
import Yalnix.Proofs.SwitchRun
import Yalnix.Proofs.Vectors

/-!
# Processes keep to themselves

Every event of the machine is a `ProcessStep`. So whatever a process does that is not running is done by
nobody else either, and no pid is ever used for a second process.
-/

namespace Yalnix

open Transition

variable {hw : Hardware} {h : Header} {b : Boot hw} {k k' k₀ k₁ : Kernel} {e : VectorEvent} {p q : PcbPtr}
  {t t' t₀ : List (Kernel × VectorEvent)}

/-! ## Handlers -/

namespace PcbChange

variable {new own : Prop} {x y z : Pcb}

theorem trans (h : PcbChange new own x y) (h' : PcbChange new own y z) : PcbChange new own x z where
  pid := h'.pid.trans h.pid
  time_slice := h'.time_slice.trans h.time_slice
  kernel_stack hold := (h'.kernel_stack hold).trans (h.kernel_stack hold)
  others hold hother := by
    have hxy := h.others hold hother
    have hyz := h'.others hold hother
    refine ⟨hyz.region1_pt.trans hxy.region1_pt, hyz.brk.trans hxy.brk, ?_, ?_, ?_, ?_, fun v => ?_⟩
    · exact hyz.kernel_context.trans hxy.kernel_context
    · exact hyz.exit_code.trans hxy.exit_code
    · exact hyz.waiting_for_children.trans hxy.waiting_for_children
    · exact hyz.should_fork.trans hxy.should_fork
    · exact (hyz.user_context v).trans (hxy.user_context v)

/-- The PCB is not one that `malloc` has just given out. -/
theorem ofOld (h : PcbChange new own x y) (hold : ¬ new) : PcbChange False own x y :=
  ⟨h.pid, h.time_slice, fun _ => h.kernel_stack hold, fun _ => h.others hold⟩

end PcbChange

theorem initSyncObject_frame {o : SyncObject} {allocated : Bool} {rc : Int}
    (h : initSyncObject k o allocated = some (rc, k')) : k' = { k with
      id_used := k'.id_used
      global_sync_counter := k'.global_sync_counter
      sync_table := k'.sync_table } := by
  unfold initSyncObject at h
  split at h
  · rw [← (Prod.mk.inj (Option.some.inj h)).2]
  · generalize hnew : getNewID k = r at h
    obtain ⟨id, k₁⟩ := r
    simp only at h
    split at h
    · cases h
    · obtain ⟨-, rfl⟩ := Prod.mk.inj (Option.some.inj h)
      rcases getNewID_cases hnew with rfl | ⟨i, -, -, -, rfl⟩
      · rename_i hneg
        exact absurd (by decide) hneg
      · rfl

theorem syncReclaim_frame {id rc : Int} (h : syncReclaim k id = some (rc, k')) : k' = { k with
    queues := k'.queues
    id_used := k'.id_used
    global_sync_counter := k'.global_sync_counter
    sync_table := k'.sync_table } := by
  unfold syncReclaim at h
  split at h
  · rw [← (Prod.mk.inj (Option.some.inj h)).2]
  · simp only [Option.bind_eq_bind, Option.bind_eq_some_iff, Option.pure_def, Option.some.injEq,
      Prod.mk.injEq] at h
    obtain ⟨queues, -, -, rfl⟩ := h
    unfold freeID
    split <;> rfl

/-- The PCBs are allowed to change as handlers change them. -/
theorem SamePcbs.allows (hw : Hardware) (new : PcbPtr → Prop) :
    Allows hw new (fun _ => True) (SamePcbs new) := by
  have hsame : ∀ {k k' : Kernel}, k'.current_process = k.current_process → k'.pidCalls = k.pidCalls →
      (∀ p, k'.allocated p = true → k.allocated p = true) → k'.pcb = k.pcb → SamePcbs new k k' := by
    intro k k' hcurrent hcalls halloc hpcb
    refine ⟨hcurrent, hcalls, halloc, fun p => ?_⟩
    rw [hpcb]
    exact .bookkeeping rfl
  constructor
  case refl => exact fun k => hsame rfl rfl (fun _ hp => hp) rfl
  case trans =>
    intro k k₁ k' h h'
    refine ⟨h'.current.trans h.current, h'.pidCalls.trans h.pidCalls,
      fun p hp => h.allocated p (h'.allocated p hp), fun p => (h.pcb p).trans ?_⟩
    rw [← h.current]
    exact h'.pcb p
  case current => exact SamePcbs.current
  case links =>
    intro k k' heq
    rw [heq]
    exact hsame rfl rfl (fun _ hp => hp) rfl
  case store => exact fun _ => hsame rfl rfl (fun _ hp => hp) rfl
  case pcb =>
    intro k p f hchange
    refine ⟨rfl, rfl, fun _ hq => hq, fun q => ?_⟩
    by_cases e : q = p
    · subst e
      simpa [Kernel.modifyPcb] using hchange
    · simp only [Kernel.modifyPcb, Function.update_of_ne e]
      exact .bookkeeping rfl
  case free =>
    intro k p
    refine hsame rfl rfl (fun q hq => ?_) rfl
    by_cases e : q = p
    · subst e
      simp [Kernel.free] at hq
    · simpa [Kernel.free, e] using hq
  case memory => exact fun _ => hsame rfl rfl (fun _ hp => hp) rfl
  case walk => exact hsame rfl rfl (fun _ hp => hp) rfl
  case object => exact fun _ _ => hsame rfl rfl (fun _ hp => hp) rfl
  case init =>
    intro k k' o allocated rc hinit
    rw [initSyncObject_frame hinit]
    exact hsame rfl rfl (fun _ hp => hp) rfl
  case reclaim =>
    intro k k' id rc _ hreclaim
    rw [syncReclaim_frame hreclaim]
    exact hsame rfl rfl (fun _ hp => hp) rfl

/-! ## Events -/

/-- `schedule` saves the context of the process it leaves, and touches no field of another that is its
own. -/
theorem switched_pcb {caller : ScheduleCaller} (hstep : schedule hw k caller = some k') :
    k'.pidCalls = k.pidCalls ∧ k'.allocated = k.allocated ∧
      ∀ p, PcbChange False (p = k.current_process) (k.pcb p) (k'.pcb p) := by
  obtain ⟨next, q, rfl⟩ := schedule_switched hstep
  refine ⟨rfl, rfl, fun p => ?_⟩
  by_cases e : p = k.current_process
  · exact .byItself e rfl rfl rfl
  · refine .bookkeeping ?_
    simp [switched, switchedPcb, e]

theorem ProcessStep.of_step (hstep : (vectorMachine hw h).step k e = some k') : ProcessStep hw e k k' := by
  rcases (SamePcbs.allows hw e.Gives).vectorStep (fun _ hp => hp) (fun _ _ => trivial) hstep with
    hk | ⟨u, a, rfl, hk⟩ | ⟨caller, rfl, -, hswitch⟩
  · exact ⟨fun p hp => (hk.pcb p).ofOld hp, fun p => Or.inl (hk.pcb p).time_slice,
      Nat.le_of_eq hk.pidCalls.symm, fun p hp => Or.inl (hk.allocated p hp)⟩
  · have hnew : (createPcb hw { k with uctxt := u } a.child_pcb).pcb a.child_pcb =
        { (createPcb hw { k with uctxt := u } a.child_pcb).pcb a.child_pcb with
          pid := hw.newPid k.pidCalls
          time_slice := DEFAULT_TIMESLICE } := by
      simp [createPcb]
    have hother : ∀ p, p ≠ a.child_pcb →
        (createPcb hw { k with uctxt := u } a.child_pcb).pcb p = k.pcb p := by
      intro p hp
      simp [createPcb, hp]
    refine ⟨fun p hp => ?_, fun p => ?_, ?_, fun p hp => ?_⟩
    · have hchange := (hk.pcb p).ofOld hp
      rw [hother p hp] at hchange
      exact hchange
    · rw [(hk.pcb p).time_slice]
      by_cases e : p = a.child_pcb
      · subst e
        rw [hnew]
        exact Or.inr rfl
      · rw [hother p e]
        exact Or.inl rfl
    · rw [hk.pidCalls]
      exact Nat.le_succ _
    · by_cases e : p = a.child_pcb
      · subst e
        refine Or.inr ⟨rfl, ?_, hk.pidCalls⟩
        rw [(hk.pcb _).pid, hnew]
      · have hbefore := hk.allocated p hp
        simp only [createPcb, Function.update_of_ne e] at hbefore
        exact Or.inl hbefore
  · obtain ⟨hcalls, halloc, hpcb⟩ := switched_pcb hswitch
    refine ⟨fun p _ => hpcb p, fun p => Or.inl (hpcb p).time_slice, Nat.le_of_eq hcalls.symm, fun p hp => ?_⟩
    rw [halloc] at hp
    exact Or.inl hp

/-- `malloc` gives out no PCB that is in use. -/
theorem not_gives (hen : (vectorMachine hw h).enabled k e) (hp : k.allocated p = true) : ¬ e.Gives p := by
  intro hgives
  cases e with
  | trap u a =>
    obtain rfl : p = a.child_pcb := hgives
    obtain ⟨-, ⟨hfresh, -⟩, -⟩ := hen
    rw [hp] at hfresh
    cases hfresh
  | schedule => exact hgives
  | resume => exact hgives

/-- In every run from boot in which no call has to wait, a PCB keeps its pid, its time slice and its kernel stack
as long as it is allocated, and as long as its process does not run as well, all that is the process's own. -/
theorem bystander_kept (_h₀ : kernelStart b = some k₀)
    (_hrun₀ : Run (vectorMachine hw h) (CallsGoOn hw h) k₀ t₀ k)
    (hrun : Run (vectorMachine hw h) (CallsGoOn hw h) k t k')
    (hp : ∀ x ∈ t, x.1.allocated p = true) :
    (k'.pcb p).pid = (k.pcb p).pid ∧ (k'.pcb p).time_slice = (k.pcb p).time_slice ∧
      (k'.pcb p).kernel_stack = (k.pcb p).kernel_stack ∧
      ((∀ x ∈ t, x.1.current_process ≠ p) → SamePrivate (k.pcb p) (k'.pcb p)) := by
  have hall : PcbChange False (∃ x ∈ t, x.1.current_process = p) (k.pcb p) (k'.pcb p) := by
    induction hrun with
    | nil => exact .bookkeeping rfl
    | @snoc t k₁ k₂ e _ hen _ hstep ih =>
      have hstart := ih fun x hx => hp x (List.mem_append_left _ hx)
      have hold : ¬ e.Gives p := not_gives hen (hp (k₁, e) (by simp))
      have hchange := (ProcessStep.of_step hstep).old p hold
      refine .trans (y := k₁.pcb p) ?_ ?_
      · refine ⟨hstart.pid, hstart.time_slice, hstart.kernel_stack, fun hn hno => hstart.others hn ?_⟩
        rintro ⟨x, hx, hcurrent⟩
        exact hno ⟨x, List.mem_append_left _ hx, hcurrent⟩
      · refine ⟨hchange.pid, hchange.time_slice, hchange.kernel_stack, fun hn hno => hchange.others hn ?_⟩
        intro hcurrent
        exact hno ⟨(k₁, e), by simp, hcurrent.symm⟩
  refine ⟨hall.pid, hall.time_slice, hall.kernel_stack id, fun hno => hall.others id ?_⟩
  rintro ⟨x, hx, hcurrent⟩
  exact hno x hx hcurrent

/-- The init process is switched to. -/
def switchEvents : List VectorEvent := [.ofVector .clock 0, .ofVector .clock 0, .schedule]

def dispatchedKernel : Kernel :=
  ((vectorMachine .small .small).exec Boot.smallKernel switchEvents).get (by decide +kernel)

theorem dispatchedKernel_run : Run (vectorMachine .small .small) (CallsGoOn .small .small) Boot.smallKernel
    ((vectorMachine .small .small).trace Boot.smallKernel switchEvents) dispatchedKernel :=
  Run.ofExec (Option.some_get _).symm (by decide +kernel)

/-- It forks. -/
def forkEvents : List VectorEvent := [.resume, .ofCode .getpid, .ofCode .fork]

def forkKernel : Kernel :=
  ((vectorMachine .small .small).exec dispatchedKernel forkEvents).get (by decide +kernel)

def forkTrace : List (Kernel × VectorEvent) := (vectorMachine .small .small).trace dispatchedKernel forkEvents

theorem forkKernel_run :
    Run (vectorMachine .small .small) (CallsGoOn .small .small) dispatchedKernel forkTrace forkKernel :=
  Run.ofExec (Option.some_get _).symm (by decide +kernel)

/-- The idle process is left alone. -/
theorem bystander_kept_small : SamePrivate (dispatchedKernel.pcb 100) (forkKernel.pcb 100) :=
  (bystander_kept (Option.some_get _).symm dispatchedKernel_run forkKernel_run (by decide +kernel)).2.2.2 (by decide +kernel)

/-! ## Pids -/

/-- A step that leaves the pids alone, but gives the next one to a process that it makes. -/
theorem DistinctPids.keeps (hk : DistinctPids hw k) (new : PcbPtr → Prop)
    (hone : ∀ p q, new p → new q → q = p) (hcalls : k.pidCalls ≤ k'.pidCalls)
    (hold : ∀ p, k.allocated p = true → (k'.pcb p).pid = (k.pcb p).pid)
    (hallocated : ∀ p, k'.allocated p = true → k.allocated p = true ∨
      new p ∧ (k'.pcb p).pid = hw.newPid k.pidCalls ∧ k'.pidCalls = k.pidCalls + 1) : DistinctPids hw k' := by
  -- a new pid is none of those that have been given out
  have hnew : ∀ p, k.allocated p = true → (k'.pcb p).pid ≠ hw.newPid k.pidCalls := by
    intro p hp heq
    obtain ⟨n, hn, hpid⟩ := hk.given p hp
    rw [hold p hp, hpid] at heq
    exact absurd (hw.newPid_injective heq) (by omega)
  refine ⟨fun p hp => ?_, fun p q hp hq hpid => ?_⟩
  · rcases hallocated p hp with hp | ⟨-, hpid, hcalls⟩
    · obtain ⟨n, hn, hpid⟩ := hk.given p hp
      exact ⟨n, by omega, by rw [hold p hp, hpid]⟩
    · exact ⟨k.pidCalls, by omega, hpid⟩
  · rcases hallocated p hp with hp | ⟨hgives, hpid', -⟩ <;>
      rcases hallocated q hq with hq | ⟨hgives', hpid'', -⟩
    · rw [hold p hp, hold q hq] at hpid
      exact hk.distinct p q hp hq hpid
    · exact absurd (hpid.symm.trans hpid'') (hnew p hp)
    · exact absurd (hpid.trans hpid') (hnew q hq)
    · exact hone p q hgives hgives'

theorem DistinctPids.step (hk : DistinctPids hw k) (hen : (vectorMachine hw h).enabled k e)
    (hstep : (vectorMachine hw h).step k e = some k') : DistinctPids hw k' := by
  have hs := ProcessStep.of_step hstep
  refine hk.keeps e.Gives (fun p q hp hq => ?_) hs.calls (fun p hp => (hs.old p (not_gives hen hp)).pid)
    hs.allocated
  cases e with
  | trap u a => exact hq.trans hp.symm
  | schedule => cases hp
  | resume => cases hp

/-- The same for the machine without the tables. -/
theorem DistinctPids.trapStep (hk : DistinctPids hw k) {e : TrapEvent} (hen : (trapMachine hw).enabled k e)
    (hstep : (trapMachine hw).step k e = some k') : DistinctPids hw k' := by
  have hfork : ∀ u child, e = .kernel u (.fork child) → ∃ u, e = .kernel u (.fork child) :=
    fun u child he => ⟨u, he⟩
  rcases (SamePcbs.allows hw fun p => ∃ u, e = .kernel u (.fork p)).trapStep hfork hstep with
    hsame | ⟨u, child, rfl, hsame⟩ | ⟨caller, rfl, -, hswitch⟩
  · refine hk.keeps (fun _ => False) (fun p q hp => hp.elim) (Nat.le_of_eq hsame.pidCalls.symm)
      (fun p _ => (hsame.pcb p).pid) fun p hp => Or.inl (hsame.allocated p hp)
  · have hfresh : k.allocated child = false := hen.2.2
    have hother : ∀ p, p ≠ child → (createPcb hw { k with uctxt := u } child).pcb p = k.pcb p := by
      intro p hp
      simp [createPcb, hp]
    have hcalls : k'.pidCalls = k.pidCalls + 1 := hsame.pidCalls
    refine hk.keeps (fun p => p = child) (fun p q hp hq => hq.trans hp.symm) (by omega)
      (fun p hp => ?_) fun p hp => ?_
    · have hne : p ≠ child := by
        rintro rfl
        exact absurd hfresh (by simp [hp])
      rw [(hsame.pcb p).pid, hother p hne]
    · by_cases hc : p = child
      · subst hc
        refine Or.inr ⟨rfl, ?_, hcalls⟩
        rw [(hsame.pcb p).pid]
        simp [createPcb]
      · have hbefore := hsame.allocated p hp
        simp only [createPcb, Function.update_of_ne hc] at hbefore
        exact Or.inl hbefore
  · obtain ⟨hcalls, halloc, hpcb⟩ := switched_pcb hswitch
    refine hk.keeps (fun _ => False) (fun p q hp => hp.elim) (Nat.le_of_eq hcalls.symm)
      (fun p _ => (hpcb p).pid) fun p hp => Or.inl ?_
    rwa [halloc] at hp

/-- The pid of a process that is there can be that of no other process later on. -/
theorem DistinctPids.later (hk : DistinctPids hw k) (hp : k.allocated p = true)
    (hrun : Run (vectorMachine hw h) (fun _ _ => True) k t k') :
    DistinctPids hw k' ∧ k.pidCalls ≤ k'.pidCalls ∧ ∀ q, k'.allocated q = true →
      (k'.pcb q).pid = (k.pcb p).pid → q = p ∧ ∀ x ∈ t, x.1.allocated p = true := by
  obtain ⟨n, hn, hpid⟩ := hk.given p hp
  induction hrun with
  | nil => exact ⟨hk, le_rfl, fun q hq heq => ⟨hk.distinct p q hp hq heq, by simp⟩⟩
  | @snoc t k₁ k₂ e _ hen _ hstep ih =>
    obtain ⟨hk₁, hcalls, hother⟩ := ih
    have hs := ProcessStep.of_step hstep
    refine ⟨hk₁.step hen hstep, hcalls.trans hs.calls, fun q hq heq => ?_⟩
    rcases hs.allocated q hq with hq | ⟨-, hpid', -⟩
    · rw [(hs.old q (not_gives hen hq)).pid] at heq
      obtain ⟨rfl, hkept⟩ := hother q hq heq
      refine ⟨rfl, fun x hx => ?_⟩
      rcases List.mem_append.1 hx with hx | hx
      · exact hkept x hx
      · rw [List.mem_singleton.1 hx]
        exact hq
    · rw [heq, hpid] at hpid'
      exact absurd (hw.newPid_injective hpid') (by omega)

/-! ## Boot -/

/-- Boot gives pids to the idle process and the init process. -/
structure BootPids (hw : Hardware) (b : Boot hw) (k : Kernel) : Prop where
  calls : k.pidCalls = 2
  idle : (k.pcb b.idle_pcb).pid = hw.newPid 0
  init : (k.pcb b.init_pcb).pid = hw.newPid 1
  slice : ∀ p, 0 ≤ (k.pcb p).time_slice ∧ (k.pcb p).time_slice ≤ DEFAULT_TIMESLICE

theorem startIdle_pid (hidle : startIdle b = some k) : k.pidCalls = 1 ∧
    (k.pcb b.idle_pcb).pid = hw.newPid 0 ∧
    ∀ p, 0 ≤ (k.pcb p).time_slice ∧ (k.pcb p).time_slice ≤ DEFAULT_TIMESLICE := by
  unfold startIdle at hidle
  simp only at hidle
  split at hidle
  · cases hidle
  · simp only [Option.bind_eq_bind, Option.bind_eq_some_iff, Option.pure_def, Option.some.injEq,
      Prod.exists] at hidle
    obtain ⟨m, stack, -, rfl⟩ := hidle
    refine ⟨rfl, by simp [Kernel.modifyPcb, createPcb, initPcbSystem, Boot.globals], fun p => ?_⟩
    by_cases e : p = b.idle_pcb <;>
      simp [Kernel.modifyPcb, createPcb, initPcbSystem, Boot.globals, Boot.blankPcb, DEFAULT_TIMESLICE, e]

theorem startInit_pid (hinit : startInit b k = some k') : k'.pidCalls = k.pidCalls + 1 ∧
    (k'.pcb b.init_pcb).pid = hw.newPid k.pidCalls ∧
    (k'.pcb b.init_pcb).time_slice = DEFAULT_TIMESLICE ∧
    ∀ p, p ≠ b.init_pcb → k'.pcb p = k.pcb p := by
  unfold startInit at hinit
  simp only [Option.bind_eq_bind, Option.bind_eq_some_iff, Option.pure_def, Option.some.injEq,
    Prod.exists] at hinit
  obtain ⟨m, stack, -, rc, m', proc, hload, rfl⟩ := hinit
  obtain ⟨pt, brk, uc, hproc⟩ := loadProgram_frame hload
  refine ⟨rfl, ?_, ?_, fun p hp => ?_⟩
  · simp [Kernel.modifyPcb, createPcb, hproc]
  · simp [Kernel.modifyPcb, createPcb, hproc]
  · simp [Kernel.modifyPcb, createPcb, hp]

theorem kernelStart_pids (h₀ : kernelStart b = some k₀) : BootPids hw b k₀ := by
  simp only [kernelStart, Option.bind_eq_bind, Option.bind_eq_some_iff, Option.pure_def,
    Option.some.injEq] at h₀
  obtain ⟨k₁, hidle, k₂, hinit, k₃, hready, rfl⟩ := h₀
  obtain ⟨hcalls₁, hidle₁, hslice₁⟩ := startIdle_pid hidle
  obtain ⟨hcalls₂, hinit₂, hslice₂, hother₂⟩ := startInit_pid hinit
  have hR := SamePcbs.allows hw fun _ => False
  have hready' : SamePcbs (fun _ => False) k₂ k₃ := hR.addToQueue hready
  have hlast : ∀ p, ((setCurrentProcess { k₃ with uctxt := (k₃.pcb b.idle_pcb).user_context }
      b.idle_pcb).pcb p).pid = (k₃.pcb p).pid ∧
      ((setCurrentProcess { k₃ with uctxt := (k₃.pcb b.idle_pcb).user_context }
        b.idle_pcb).pcb p).time_slice = (k₃.pcb p).time_slice := by
    intro p
    by_cases e : p = b.idle_pcb
    · subst e
      simp [setCurrentProcess, Kernel.setState, Kernel.modifyPcb]
    · simp [setCurrentProcess, Kernel.setState, Kernel.modifyPcb, e]
  refine ⟨?_, ?_, ?_, fun p => ?_⟩
  · have hcalls : k₃.pidCalls = 2 := by rw [hready'.pidCalls, hcalls₂, hcalls₁]
    exact hcalls
  · rw [(hlast _).1, (hready'.pcb _).pid, hother₂ _ b.init_ne_idle.symm, hidle₁]
  · rw [(hlast _).1, (hready'.pcb _).pid, hinit₂, hcalls₁]
  · rw [(hlast p).2, (hready'.pcb p).time_slice]
    by_cases e : p = b.init_pcb
    · subst e
      rw [hslice₂]
      exact ⟨by decide, le_rfl⟩
    · rw [hother₂ p e]
      exact hslice₁ p

theorem kernelStart_distinct (h₀ : kernelStart b = some k₀) : DistinctPids hw k₀ := by
  have hb := kernelStart_booted h₀
  have hp := kernelStart_pids h₀
  refine ⟨fun p halloc => ?_, fun p q halloc halloc' hpid => ?_⟩
  · rw [hp.calls]
    rcases (hb.allocated p).1 halloc with rfl | rfl
    · exact ⟨0, by decide, hp.idle⟩
    · exact ⟨1, by decide, hp.init⟩
  · rcases (hb.allocated p).1 halloc with rfl | rfl <;>
      rcases (hb.allocated q).1 halloc' with rfl | rfl
    · rfl
    · rw [hp.idle, hp.init] at hpid
      exact absurd (hw.newPid_injective hpid) (by decide)
    · rw [hp.idle, hp.init] at hpid
      exact absurd (hw.newPid_injective hpid) (by decide)
    · rfl

/-- In every run from boot in which no call has to wait, a pid names one process for the whole run: whoever has the
pid of a process that was there before is that process, and has been there all the time. -/
theorem pid_names_process (h₀ : kernelStart b = some k₀)
    (hrun : Run (vectorMachine hw h) (CallsGoOn hw h) k₀ t k)
    (hrun' : Run (vectorMachine hw h) (CallsGoOn hw h) k t' k') (hp : k.allocated p = true)
    (hq : k'.allocated q = true) (hpid : (k'.pcb q).pid = (k.pcb p).pid) :
    q = p ∧ ∀ x ∈ t', x.1.allocated p = true := by
  have hk : DistinctPids hw k := by
    refine hrun.invariant (kernelStart_distinct h₀) ?_
    intro k e k' hk hen _ hstep
    exact hk.step hen hstep
  exact (hk.later hp (hrun'.mono fun _ _ _ => trivial)).2.2 q hq hpid

theorem pid_names_process_small : (101 : PcbPtr) = 101 ∧ ∀ x ∈ forkTrace, x.1.allocated 101 = true :=
  pid_names_process (Option.some_get _).symm dispatchedKernel_run forkKernel_run (by decide +kernel)
    (by decide +kernel) (by decide +kernel)

end Yalnix
