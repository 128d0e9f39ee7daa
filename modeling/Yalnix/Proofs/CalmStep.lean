import Yalnix.Proofs.Calm

/-!
# Every step of a run in which no call has to wait

The cases of a step, and what each keeps.
-/

namespace Yalnix

open Intrusive Transition

variable {hw : Hardware} {k k' k₁ : Kernel} {s s' : QueueId → List PcbPtr} {p : PcbPtr} {i : Nat}
  {u : UserContext} {e : TrapEvent}

/-! ## Handlers that move processes -/

/-- The handler goes back to its caller, or gives up the processor after it has put the caller elsewhere
than on the ready queue, or freed it. -/
inductive Outcome (k k' : Kernel) (s' : QueueId → List PcbPtr) : Prop where
  | returns (hmode : k'.mode = k.mode)
      (hstate : (k'.pcb k.current_process).state = (k.pcb k.current_process).state)
      (hoff : ∀ l, k.current_process ∉ s' l)
  | leaves {caller : ScheduleCaller} (hmode : k'.mode = .atSchedule caller)
      (hcaller : caller.onObject = false)
      (hplaced : k'.allocated k.current_process = false ∨
        ∃ l, l ≠ .ready ∧ k.current_process ∈ s' l)

theorem CallCase.outcome {c : ProcessCall} (hcase : CallCase hw k s (.handler k.current_process u c) k' s')
    (hoff : ∀ l, k.current_process ∉ s l) (hfork : ∀ child, c = .fork child → child ≠ k.current_process) :
    Outcome k k' s' := by
  generalize hq : k.current_process = q at hcase
  cases hcase with
  | quiet v hc => exact .returns rfl rfl hoff
  | refork =>
    refine .returns rfl ?_ hoff
    simp [Kernel.returnValue, Kernel.modifyPcb, Kernel.enter, hq]
  | @fork _ child _ m pt stack family q hfree hfresh hc =>
    have hne := hfork child rfl
    refine .returns rfl ?_ fun l hl => ?_
    · simp [forked, Kernel.enter, hne.symm]
    · rcases mem_update_append.1 hl with hl | ⟨-, e⟩
      · exact hoff l hl
      · exact hne e.symm
  | delays hc => exact .leaves rfl rfl (Or.inr ⟨.delay, by simp, by simp [hq]⟩)
  | waits hc => exact .leaves rfl rfl (Or.inr ⟨.blocked, by simp, by simp [hq]⟩)
  | @reaps _ z u kstatus_ptr q hzombie hfind hc =>
    have hne : k.current_process ≠ z := fun e => hoff .zombie (e ▸ hzombie)
    refine .returns rfl ?_ fun l hl => ?_
    · simp [reaped, Kernel.enter, hne]
    · rw [Function.update_apply] at hl
      split at hl
      · exact hoff _ (List.mem_of_mem_erase hl)
      · exact hoff _ hl
  | dies hrel hparent hc => exact .leaves rfl rfl (Or.inr ⟨.zombie, by simp, by simp [hq]⟩)
  | notifies hrel hne hnidle hparent hwaiting hnotify hc =>
    exact .leaves rfl rfl (Or.inl (by simp [Kernel.callSchedule, notified, hq]))

/-- What every handler leaves alone. -/
structure Handled (k k' : Kernel) : Prop where
  current : k'.current_process = k.current_process
  idle : k'.idle_process = k.idle_process
  objects : k'.sync_table = k.sync_table
  contexts : ∀ n, (k'.pcb n).kernel_context = (k.pcb n).kernel_context ∨
    ∃ u, (k'.pcb n).kernel_context = .sysFork n u

/-- A handler that changes one PCB, and not its context. -/
theorem Handled.update {q : PcbPtr} (hcurrent : k'.current_process = k.current_process)
    (hidle : k'.idle_process = k.idle_process) (hobjects : k'.sync_table = k.sync_table)
    (hother : ∀ n, n ≠ q → (k'.pcb n).kernel_context = (k.pcb n).kernel_context)
    (hq : (k'.pcb q).kernel_context = (k.pcb q).kernel_context) : Handled k k' := by
  refine ⟨hcurrent, hidle, hobjects, fun n => Or.inl ?_⟩
  by_cases e : n = q
  · rw [e, hq]
  · exact hother n e

theorem CallCase.handled {c : ProcessCall}
    (hcase : CallCase hw k s (.handler k.current_process u c) k' s') : Handled k k' := by
  generalize hq : k.current_process = q at hcase
  cases hcase with
  | quiet v hc => exact ⟨hq.symm, rfl, rfl, fun n => Or.inl rfl⟩
  | refork =>
    refine .update (q := q) hq.symm rfl rfl (fun n hn => ?_) ?_
    · simp [Kernel.returnValue, Kernel.modifyPcb, Kernel.enter, hn]
    · simp [Kernel.returnValue, Kernel.modifyPcb, Kernel.enter]
  | @fork _ child =>
    refine ⟨hq.symm, rfl, rfl, fun n => ?_⟩
    by_cases e : n = child
    · subst e
      exact Or.inr ⟨u, by simp [forked, Kernel.enter]⟩
    · exact Or.inl (by simp [forked, Kernel.enter, e])
  | delays hc =>
    refine .update (q := q) hq.symm rfl rfl (fun n hn => ?_) ?_
    · simp [delaying, Kernel.enter, hn]
    · simp [delaying, Kernel.enter]
  | waits hc =>
    refine .update (q := q) hq.symm rfl rfl (fun n hn => ?_) ?_
    · simp [waitingForChild, Kernel.enter, hn]
    · simp [waitingForChild, Kernel.enter]
  | @reaps _ z =>
    refine .update (q := z) hq.symm rfl rfl (fun n hn => ?_) ?_
    · simp [reaped, Kernel.enter, hn]
    · simp [reaped, Kernel.enter]
  | @dies _ _ k₁ _ hrel =>
    have hcontext : ∀ n, (k₁.pcb n).kernel_context = (k.pcb n).kernel_context := hrel.context
    refine .update (q := q) (by rw [hrel.frame]; exact hq.symm) (by rw [hrel.frame]; rfl)
      hrel.rest.1 (fun n hn => ?_) ?_
    · simpa [Kernel.callSchedule, Kernel.setState, Kernel.modifyPcb, hn] using hcontext n
    · simpa [Kernel.callSchedule, Kernel.setState, Kernel.modifyPcb] using hcontext q
  | @notifies _ parent _ k₁ _ _ _ hrel =>
    have hcontext : ∀ n, (k₁.pcb n).kernel_context = (k.pcb n).kernel_context := hrel.context
    refine .update (q := parent) (by rw [hrel.frame]; exact hq.symm) (by rw [hrel.frame]; rfl)
      hrel.rest.1 (fun n hn => ?_) ?_
    · simpa [Kernel.callSchedule, notified, hn] using hcontext n
    · simpa [Kernel.callSchedule, notified] using hcontext parent

/-! ## Every step is one of the cases -/

/-- What a step can do. -/
inductive CalmCase (hw : Hardware) (k : Kernel) (s : QueueId → List PcbPtr) :
    TrapEvent → Kernel → (QueueId → List PcbPtr) → Prop where
  | quiet {u : UserContext} {c : Syscall} {k' : Kernel} (hmode : k.mode = .user)
      (hquiet : Quiet hw { k with uctxt := u } s c k') : CalmCase hw k s (.kernel u c) k' s
  | handler {u : UserContext} {c : Syscall} {d : ProcessCall} {k' : Kernel} {s' : QueueId → List PcbPtr}
      (hmode : k.mode = .user) (hcall : MayEnter k k.current_process d)
      (hcase : CallCase hw k s (.handler k.current_process u d) k' s') :
      CalmCase hw k s (.kernel u c) k' s'
  | clock {u : UserContext} {k' : Kernel} (hmode : k.mode = .user)
      (hcase : ClockCase { k with uctxt := u } s k') :
      CalmCase hw k s (.clock u) k' (tickedLists k s (s .delay) [])
  | schedule {caller : ScheduleCaller} {next : PcbPtr} {q : Heap QueueId PcbPtr}
      {s' : QueueId → List PcbPtr} (hmode : k.mode = .atSchedule caller) (hnext : Next k s next s') :
      CalmCase hw k s .schedule (switched hw k caller next q) s'
  | resume {k' : Kernel} (hmode : k.mode = .resumed)
      (heq : k' = { k with
        mem := { k.mem with ptbr1 := k'.mem.ptbr1 }
        uctxt := k'.uctxt
        kbufFreed := k'.kbufFreed
        userStores := k'.userStores
        kstatusAllocated := k'.kstatusAllocated
        mode := .user }) : CalmCase hw k s .resume k' s

namespace Calm

/-- A parent that is blocked waits for a child. -/
theorem exitFits (h : Calm hw k s) : ExitFits k p := fun _ _ _ hst =>
  h.steady.coherent.onList_iff.2 (h.steady.coherent.mem_blocked h.noWaiter hst)

theorem handler (h : Calm hw k s) (hmode : k.mode = .user) {c : ProcessCall}
    (hcall : MayEnter k k.current_process c) (hkeep : KeepsQueues k (.handler k.current_process u c))
    (hcase : CallCase hw k s (.handler k.current_process u c) k' s') : Calm hw k' s' := by
  have hinv : CallInv k' s' := by
    refine hcase.keeps h.call ?_ hkeep
    rintro p v d ⟨⟩
    exact hcall
  have hd := hcase.handled
  have hplain : ∀ n, (k'.pcb n).kernel_context.Plain n := fun n => by
    rcases hd.contexts n with e | ⟨v, e⟩ <;> rw [e]
    · exact h.steady.plain n
    · rfl
  have hout := hcase.outcome (h.off hmode) hcall.other
  refine ⟨?_, hinv, fun w => ?_, fun i pipe hp => ?_, fun hmode' => ?_, fun n caller hn => ?_,
    fun caller hno => ?_⟩
  · cases hout with
    | returns hmode' hstate hoff => exact .returns hmode hinv.coherent hmode' hd.current hoff hplain
    | leaves hmode' hcaller hplaced =>
      refine .calls hinv.coherent hmode' ?_ hplain
      rintro id rfl
      cases hcaller
  · rw [hcase.waitLists h.call hkeep (by simp) w, h.noWaiter w]
  · refine h.sound i pipe ?_
    rwa [Kernel.pipe, hd.objects] at hp
  · cases hout with
    | returns _ hstate =>
      rw [hd.current, hstate]
      exact h.running hmode
    | leaves hno =>
      rw [hmode'] at hno
      cases hno
  · rcases hd.contexts n with e | ⟨v, e⟩ <;> rw [e] at hn
    · exact h.suspended n caller hn
    · cases hn
  · cases hout with
    | returns hmode' =>
      rw [hmode', hmode] at hno
      cases hno
    | leaves hmode' hcaller =>
      rw [hmode'] at hno
      obtain rfl := Mode.atSchedule.inj hno
      exact hcaller

theorem clock (h : Calm hw k s) (hmode : k.mode = .user)
    (hstep : (trapMachine hw).step k (.clock u) = some k') :
    ClockCase { k with uctxt := u } s k' ∧ Calm hw k' (tickedLists k s (s .delay) []) := by
  have hcase := h.steady.clockCase hmode hstep
  have hinv : CallInv k' (tickedLists k s (s .delay) []) :=
    (.clock hcase : CallCase hw k s _ _ _).keeps h.call (by simp) trivial
  refine ⟨hcase, h.steady.clock hmode hstep, hinv, fun w => ?_, fun i pipe hp => ?_, fun hmode' => ?_,
    fun n caller hn => ?_, fun caller hno => ?_⟩
  · simpa [tickedLists] using h.noWaiter w
  · refine h.sound i pipe ?_
    rwa [hcase.frame] at hp
  · cases hcase with
    | goesOn heq =>
      rw [heq]
      simpa [timed, ticked, Kernel.modifyPcb, h.off hmode .delay] using h.running hmode
    | preempts heq =>
      rw [heq] at hmode'
      cases hmode'
  · obtain ⟨ticks, st, time, hpcb⟩ := hcase.pcb n
    rw [hpcb] at hn
    exact h.suspended n caller hn
  · cases hcase with
    | goesOn heq =>
      rw [heq] at hno
      have hno : k.mode = .atSchedule caller := hno
      rw [hmode] at hno
      cases hno
    | preempts heq =>
      rw [heq] at hno
      obtain rfl := Mode.atSchedule.inj hno
      rfl

theorem schedule (h : Calm hw k s) (hstep : (trapMachine hw).step k .schedule = some k') :
    ∃ s', CalmCase hw k s .schedule k' s' ∧ Calm hw k' s' := by
  obtain ⟨caller, next, q, s', hmode, rfl, hnext, hsteady⟩ := h.steady.schedule hstep
  have hinv : CallInv (switched hw k caller next q) s' :=
    (.schedule hnext hsteady.coherent : CallCase hw k s (.schedule caller) _ _).keeps h.call (by simp) trivial
  refine ⟨s', .schedule hmode hnext, hsteady, hinv, fun w => ?_, h.sound, fun hno => ?_, fun n c hn => ?_,
    fun c hno => ?_⟩
  · rw [hnext.other (by simp), h.noWaiter w]
  · cases hno
  · by_cases e : n = k.current_process
    · simp only [switched, switchedPcb, if_pos e] at hn
      obtain rfl := KernelContext.schedule.inj hn
      exact h.caller caller hmode
    · simp only [switched, switchedPcb, if_neg e] at hn
      exact h.suspended n c hn
  · cases hno

theorem resume (h : Calm hw k s) (hmode : k.mode = .resumed)
    (hstep : (trapMachine hw).step k .resume = some k') :
    CalmCase hw k s .resume k' s ∧ Calm hw k' s := by
  obtain ⟨heq, hsteady⟩ := h.steady.resume hmode hstep
  have hinv : CallInv k' s := by
    refine ⟨hsteady.coherent, h.call.table.congr (by rw [heq]) (by rw [heq]) fun _ _ => Or.inl, ?_, ?_, fun p => ?_⟩
    · rw [heq]
      exact h.call.idle_allocated
    · rw [heq]
      exact h.call.idle_flag
    · rw [heq]
      exact h.call.parents p
  refine ⟨.resume hmode heq, hsteady, hinv, h.noWaiter, fun i pipe hp => ?_, fun _ => ?_, fun n caller hn => ?_,
    fun caller hno => ?_⟩
  · rw [heq] at hp
    exact h.sound i pipe hp
  · rw [heq]
    exact h.steady.running hmode
  · rw [heq] at hn
    exact h.suspended n caller hn
  · rw [heq] at hno
    cases hno

/-- Every step in which no call has to wait is one of the cases, and keeps the invariant. -/
theorem step (h : Calm hw k s) (hen : (trapMachine hw).enabled k e) (hok : NeverWaits hw k e)
    (hstep : (trapMachine hw).step k e = some k') : ∃ s', CalmCase hw k s e k' s' ∧ Calm hw k' s' := by
  cases e with
  | kernel u c =>
    obtain ⟨hmode, hidle, hfresh⟩ := hen
    have hu : Calm hw { k with uctxt := u } s := h.congr rfl
    have hquiet : Quiet hw { k with uctxt := u } s c k' → ∃ s', CalmCase hw k s (.kernel u c) k' s' ∧
        Calm hw k' s' := fun hq => ⟨s, .quiet hmode hq, hu.quiet hmode hq⟩
    have hhandler : ∀ d : ProcessCall, MayEnter k k.current_process d →
        KeepsQueues k (.handler k.current_process u d) → d.run hw (k.enter k.current_process u) = some k' →
        ∃ s', CalmCase hw k s (.kernel u c) k' s' ∧ Calm hw k' s' := fun d hcall hkeep hrun => by
      obtain ⟨s', hcase⟩ := handler_cases h.call (h.off hmode) hcall hkeep hrun
      exact ⟨s', .handler hmode hcall hcase, h.handler hmode hcall hkeep hcase⟩
    cases c with
    | fork child =>
      refine hhandler (.fork child) ⟨hidle, hfresh, ?_⟩ hok.1 hstep
      rintro n ⟨⟩
      exact hok.2
    | wait kstatus_ptr => exact hhandler (.wait kstatus_ptr) ⟨hidle, hfresh, by simp⟩ trivial hstep
    | exit => exact hhandler .exit ⟨hidle, trivial, by simp⟩ h.exitFits hstep
    | delay => exact hhandler .delay ⟨hidle, trivial, by simp⟩ trivial hstep
    | exec req => exact hquiet (hu.exec hstep)
    | brk => exact hquiet (hu.brk hstep)
    | getPid =>
      obtain rfl := Option.some.inj hstep
      exact hquiet ((Quiet.refl hu _).returnValue _)
    | unimplemented =>
      obtain rfl := Option.some.inj hstep
      exact hquiet ((Quiet.refl hu _).returnValue _)
    | pipeInit allocated buffer =>
      exact hquiet (hu.init hmode hidle (.initPipe (u.regs 0) allocated buffer) rfl rfl
        (fun i w hw => by rcases List.mem_pair.1 hw with rfl | rfl <;> rfl) hstep)
    | pipeRead kbuf => exact hquiet (hu.pipeRead hmode hidle hok hstep)
    | pipeWrite kbuf data => exact hquiet (hu.pipeWrite hmode hidle hok hstep)
    | lockInit allocated =>
      exact hquiet (hu.init hmode hidle (.initLock (u.regs 0) allocated) rfl rfl
        (fun i w hw => by obtain rfl := List.mem_singleton.1 hw; rfl) hstep)
    | lockAcquire => exact hquiet (hu.lockAcquire hmode hidle hok hstep).1
    | lockRelease => exact hquiet (hu.lockRelease hmode hidle hstep)
    | cvarInit allocated =>
      exact hquiet (hu.init hmode hidle (.initCvar (u.regs 0) allocated) rfl rfl
        (fun i w hw => by obtain rfl := List.mem_singleton.1 hw; rfl) hstep)
    | signal => exact hquiet (hu.signal hstep)
    | broadcast rc => exact hquiet (hu.broadcast hstep)
    | cvarWait =>
      obtain rfl := sysCvarWait_error hstep
      exact hquiet ((Quiet.refl hu _).returnValue _)
  | clock u =>
    obtain ⟨hcase, hcalm⟩ := h.clock hen hstep
    exact ⟨_, .clock hen hcase, hcalm⟩
  | schedule => exact h.schedule hstep
  | resume => exact ⟨s, h.resume hen hstep⟩

end Calm

end Yalnix
