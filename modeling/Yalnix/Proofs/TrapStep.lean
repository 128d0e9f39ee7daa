import Yalnix.DelayRun
import Yalnix.Proofs.CallStep

/-!
# Traps and switches

What every step of the machine keeps, as long as nobody is suspended in `SysCvarWait`: the process that
runs or resumes is on no list, and the rest of its handler moves nobody.
-/

namespace Yalnix

open Intrusive Transition

variable {hw : Hardware} {k k' : Kernel} {s s' : QueueId → List PcbPtr}

/-! ## Resuming -/

theorem afterSchedule_eq {caller : ScheduleCaller} (hcaller : ∀ id, caller ≠ .sysCvarWait id)
    (h : afterSchedule k caller = some k') :
    k' = { k with
      kbufFreed := k'.kbufFreed, userStores := k'.userStores, kstatusAllocated := k'.kstatusAllocated } := by
  cases caller with
  | sysWait status_ptr kstatus_ptr =>
    unfold afterSchedule at h
    simp only at h
    split at h
    · cases h
    · rw [← Option.some.inj h]
      rfl
  | sysPipeRead buf kbuf len =>
    unfold afterSchedule Kernel.finishRead Kernel.copyToUser at h
    simp only at h
    split at h
    · cases h
    · rw [← Option.some.inj h]
      rfl
  | sysCvarWait id => exact absurd rfl (hcaller id)
  | clockHandler => rw [← Option.some.inj h]
  | sysExit => rw [← Option.some.inj h]
  | sysDelay => rw [← Option.some.inj h]
  | sysPipeWrite kbuf =>
    rw [← Option.some.inj h]
    rfl
  | sysLockAcquire => rw [← Option.some.inj h]

/-- A process that resumes from a plain context moves nobody. -/
theorem resume_plain (hplain : (k.pcb k.current_process).kernel_context.Plain k.current_process)
    (hrunning : (k.pcb k.current_process).state = .processRunning) (h : resume k = some k') :
    k' = { k with
      mem := { k.mem with ptbr1 := k'.mem.ptbr1 }
      uctxt := k'.uctxt
      kbufFreed := k'.kbufFreed
      userStores := k'.userStores
      kstatusAllocated := k'.kstatusAllocated
      mode := .user } := by
  unfold resume at h
  cases hkc : (k.pcb k.current_process).kernel_context with
  | uninitialized => simp [hkc] at h
  | kernelStart =>
    simp only [hkc, Option.bind_eq_bind, Option.bind_some, Option.pure_def, Option.some.injEq] at h
    rw [← h]
    apply Kernel.ext <;> try rfl
    have hself : { k.pcb k.current_process with state := .processRunning } =
        k.pcb k.current_process := by rw [← hrunning]
    simp [Kernel.setState, Kernel.modifyPcb, hself]
  | sysFork child u =>
    rw [hkc] at hplain
    obtain rfl : child = k.current_process := hplain
    simp only [hkc, forkReturn, Option.bind_eq_bind, Option.bind_eq_some_iff, Option.pure_def,
      Option.some.injEq] at h
    obtain ⟨k₁, ⟨k₂, hadd, rfl⟩, rfl⟩ := h
    -- the child runs, so it is not put on the ready queue again
    obtain rfl := Option.some.inj (hadd.symm.trans (addToQueue_of_ne (by simp [hrunning])))
    rfl
  | schedule caller =>
    rw [hkc] at hplain
    have hcaller : ∀ id, caller ≠ .sysCvarWait id := by
      rintro id rfl
      exact hplain
    simp only [hkc, Option.bind_eq_bind, Option.bind_eq_some_iff, Option.pure_def,
      Option.some.injEq] at h
    obtain ⟨k₁, hafter, rfl⟩ := h
    rw [afterSchedule_eq hcaller hafter]

/-! ## Between traps -/

/-- Whoever runs or resumes is on no list, and nobody is suspended in `SysCvarWait`. -/
structure Steady (k : Kernel) (s : QueueId → List PcbPtr) : Prop where
  coherent : Coherent k s
  off : k.mode = .user ∨ k.mode = .resumed → ∀ l, k.current_process ∉ s l
  running : k.mode = .resumed → (k.pcb k.current_process).state = .processRunning
  plain : ∀ p, (k.pcb p).kernel_context.Plain p
  caller : ∀ id, k.mode ≠ .atSchedule (.sysCvarWait id)

namespace Steady

theorem start (h : DelayStart k) : Steady k k.queue where
  coherent := h.coherent
  off _ := h.coherent.offQueues_iff.1 h.current
  running hmode := by rw [h.mode] at hmode; cases hmode
  plain := h.plain
  caller id hmode := by rw [h.mode] at hmode; cases hmode

/-- A handler returns to user mode. -/
theorem returns (hmode : k.mode = .user) (hc : Coherent k' s')
    (hmode' : k'.mode = k.mode) (hcurrent : k'.current_process = k.current_process)
    (hoff : ∀ l, k.current_process ∉ s' l)
    (hcontext : ∀ p, (k'.pcb p).kernel_context.Plain p) : Steady k' s' where
  coherent := hc
  off _ := by rwa [hcurrent]
  running hres := by rw [hmode', hmode] at hres; cases hres
  plain := hcontext
  caller id hsched := by rw [hmode', hmode] at hsched; cases hsched

/-- A handler calls `schedule`. -/
theorem calls {caller : ScheduleCaller} (hc : Coherent k' s') (hmode : k'.mode = .atSchedule caller)
    (hcaller : ∀ id, caller ≠ .sysCvarWait id) (hcontext : ∀ p, (k'.pcb p).kernel_context.Plain p) :
    Steady k' s' where
  coherent := hc
  off hno := by rcases hno with hno | hno <;> rw [hmode] at hno <;> cases hno
  running hno := by rw [hmode] at hno; cases hno
  plain := hcontext
  caller id hsched := by
    rw [hmode] at hsched
    exact hcaller id (Mode.atSchedule.inj hsched)

theorem clockCase (h : Steady k s) {u : UserContext} (hmode : k.mode = .user)
    (hstep : (trapMachine hw).step k (.clock u) = some k') : ClockCase { k with uctxt := u } s k' := by
  have hc : Coherent { k with uctxt := u } s := h.coherent.congr rfl rfl fun _ => rfl
  exact clockHandler_cases hc (h.off (Or.inl hmode)) hstep

theorem clock (h : Steady k s) {u : UserContext} (hmode : k.mode = .user)
    (hstep : (trapMachine hw).step k (.clock u) = some k') : Steady k' (tickedLists k s (s .delay) []) := by
  have hcase := h.clockCase hmode hstep
  have hoff : ∀ l, k.current_process ∉ tickedLists k s (s .delay) [] l := fun l hl => by
    obtain ⟨l', hl'⟩ := mem_of_mem_tickedLists hl
    exact h.off (Or.inl hmode) l' hl'
  have hcontext : ∀ p, (k'.pcb p).kernel_context.Plain p := fun p => by
    obtain ⟨ticks, st, time, hpcb⟩ := hcase.pcb p
    rw [hpcb]
    exact h.plain p
  have hcurrent : k'.current_process = k.current_process := by rw [hcase.frame]
  cases hcase with
  | goesOn heq hc => exact .returns hmode hc (by rw [heq]; rfl) hcurrent hoff hcontext
  | preempts heq hc => exact .calls hc (by rw [heq]; rfl) (by simp) hcontext

theorem schedule (h : Steady k s) (hstep : (trapMachine hw).step k .schedule = some k') :
    ∃ caller next q s', k.mode = .atSchedule caller ∧ k' = switched hw k caller next q ∧
      Next k s next s' ∧ Steady k' s' := by
  cases hmode : k.mode with
  | user => simp [trapMachine, hmode] at hstep
  | resumed => simp [trapMachine, hmode] at hstep
  | atSchedule caller =>
    have hstep : Yalnix.schedule hw k caller = some k' := by simpa [trapMachine, hmode] using hstep
    obtain ⟨next, s', q, rfl, hnext, hc⟩ := h.coherent.schedule_some hstep
    have hrunning : ((switched hw k caller next q).pcb next).state = .processRunning := by
      simp [switched, switchedPcb]
    refine ⟨caller, next, q, s', rfl, rfl, hnext, hc, fun _ => ?_, fun _ => hrunning, fun p => ?_, fun id hno => ?_⟩
    · exact hc.offQueues_iff.1 (hc.offQueues_iff_state.2 (Or.inr hrunning))
    · by_cases e : p = k.current_process
      · simp only [switched, switchedPcb, if_pos e]
        unfold KernelContext.Plain
        split
        · trivial
        · rename_i id heq
          exact h.caller id (by rw [hmode, KernelContext.schedule.inj heq])
        · trivial
      · simpa [switched, switchedPcb, e] using h.plain p
    · cases hno

theorem resume (h : Steady k s) (hmode : k.mode = .resumed)
    (hstep : (trapMachine hw).step k .resume = some k') :
    k' = { k with
      mem := { k.mem with ptbr1 := k'.mem.ptbr1 }
      uctxt := k'.uctxt
      kbufFreed := k'.kbufFreed
      userStores := k'.userStores
      kstatusAllocated := k'.kstatusAllocated
      mode := .user } ∧ Steady k' s := by
  have heq := resume_plain (h.plain _) (h.running hmode) hstep
  refine ⟨heq, h.coherent.congr (by rw [heq]) (by rw [heq]) fun p => by rw [heq], fun _ => ?_, fun hno => ?_,
    fun p => ?_, fun id hno => ?_⟩
  · rw [heq]
    exact h.off (Or.inr hmode)
  · rw [heq] at hno
    cases hno
  · rw [heq]
    exact h.plain p
  · rw [heq] at hno
    cases hno

end Steady

/-! ## The small machine -/

/-- The init process is dispatched. -/
def dispatchEvents : List TrapEvent :=
  let u := Boot.small.uctxt
  [.clock u, .clock u, .schedule, .resume]

def initKernel : Kernel :=
  ((trapMachine .small).exec Boot.smallKernel dispatchEvents).get (by decide +kernel)

theorem initKernel_run {P : Kernel → TrapEvent → Prop} (h : ∀ k, ∀ e ∈ dispatchEvents, P k e) :
    Run (trapMachine .small) P Boot.smallKernel
      ((trapMachine .small).trace Boot.smallKernel dispatchEvents) initKernel := by
  have hen : ∀ x ∈ (trapMachine .small).trace Boot.smallKernel dispatchEvents,
      (trapMachine .small).enabled x.1 x.2 := by
    decide +kernel
  exact Run.ofExec (Option.some_get _).symm fun x hx => ⟨hen x hx, h x.1 x.2 (System.mem_trace hx)⟩

end Yalnix
