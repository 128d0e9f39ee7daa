import Yalnix.WaitOrder
import Yalnix.Proofs.ReapRun

/-!
# A child that was waited for stays on the children list

Neither order takes the child from the children list of its parent: only the exit of the parent itself
changes that list.
-/

namespace Yalnix

open Intrusive Transition

variable {hw : Hardware} {k k' k₀ : Kernel} {f : PcbPtr → List PcbPtr} {p c : PcbPtr} {e : TrapEvent}
  {l : QueueId} {st : ProcessState} {n : Nat} {status status_ptr : Int} {es es' : List TrapEvent}

/-! ## What leaves the families alone -/

theorem insertTail_family (h : k.insertTail l p = some k') : k'.family = k.family := by
  obtain ⟨q, -, rfl⟩ := Option.map_eq_some_iff.1 h
  rfl

theorem addToQueue_family (h : addToQueue l st k p = some k') : k'.family = k.family := by
  unfold addToQueue at h
  split at h
  · obtain rfl := Option.some.inj h
    rfl
  · exact (insertTail_family h).trans rfl

theorem addToDelayQueue_family {ticks : Int} (h : addToDelayQueue k p ticks = some k') :
    k'.family = k.family := by
  unfold addToDelayQueue at h
  split at h
  · obtain rfl := Option.some.inj h
    rfl
  · exact (insertTail_family h).trans rfl

theorem removeFromQueue_family : (removeFromQueue l st k p).family = k.family := by
  unfold removeFromQueue
  split
  · rfl
  · rfl

theorem tickProcess_family (h : tickProcess k p = some k') : k'.family = k.family := by
  unfold tickProcess at h
  simp only at h
  split at h
  · exact (addToQueue_family h).trans removeFromQueue_family
  · obtain rfl := Option.some.inj h
    rfl

theorem updateDelayedLoop_family {r : Option (Ref QueueId PcbPtr)}
    (h : updateDelayedLoop n r k = some k') : k'.family = k.family := by
  induction n generalizing k r with
  | zero =>
    unfold updateDelayedLoop at h
    split at h
    · obtain rfl := Option.some.inj h
      rfl
    · rename_i hzero
      cases hzero
    · cases h
  | succ n ih =>
    match r with
    | some (.node p) =>
      rw [updateDelayedLoop_node] at h
      obtain ⟨k₁, htick, hloop⟩ := Option.bind_eq_some_iff.1 h
      exact (ih hloop).trans (tickProcess_family htick)
    | some (.head l) =>
      unfold updateDelayedLoop at h
      split at h
      · obtain rfl := Option.some.inj h
        rfl
      · rename_i hnode
        cases hnode
      · cases h
    | none =>
      unfold updateDelayedLoop at h
      cases h

theorem clockHandler_family (h : clockHandler k = some k') : k'.family = k.family := by
  simp only [clockHandler, Option.bind_eq_bind, Option.bind_eq_some_iff] at h
  obtain ⟨k₁, hticks, h⟩ := h
  have hloop : k₁.family = k.family := by
    unfold updateDelayedProcesses at hticks
    split at hticks
    · obtain rfl := Option.some.inj hticks
      rfl
    · exact updateDelayedLoop_family hticks
  split at h
  · obtain rfl := Option.some.inj h
    exact hloop
  · obtain rfl := Option.some.inj h
    exact hloop

theorem schedule_family {caller : ScheduleCaller} (h : schedule hw k caller = some k') :
    k'.family = k.family := by
  simp only [schedule, Option.bind_eq_bind, Option.bind_eq_some_iff, Prod.exists] at h
  obtain ⟨next, k₁, hnext, h⟩ := h
  have hpop : k₁.family = k.family := by
    unfold nextProcess at hnext
    split at hnext
    · obtain ⟨-, rfl⟩ := Prod.mk.inj (Option.some.inj hnext)
      rfl
    · simp only [Kernel.pop, Option.bind_eq_bind, Option.bind_eq_some_iff, Option.pure_def,
        Option.some.injEq, Prod.mk.injEq, Prod.exists] at hnext
      obtain ⟨node, k₂, ⟨r, q, -, x, -, -, rfl⟩, next', -, -, rfl⟩ := hnext
      rfl
  split at h
  · obtain rfl := Option.some.inj h
    exact hpop
  · obtain rfl := Option.some.inj h
    exact hpop

theorem syncLockAcquire_family {id rc : Int} (h : syncLockAcquire k id = some (rc, k')) :
    k'.family = k.family := by
  unfold syncLockAcquire at h
  split at h
  · obtain ⟨-, rfl⟩ := Prod.mk.inj (Option.some.inj h)
    rfl
  · simp only [Option.bind_eq_bind, Option.bind_eq_some_iff] at h
    obtain ⟨lock, -, h⟩ := h
    split at h
    · obtain ⟨-, rfl⟩ := Prod.mk.inj (Option.some.inj h)
      rfl
    · simp only [Option.bind_eq_some_iff, Option.pure_def, Option.some.injEq, Prod.mk.injEq] at h
      obtain ⟨k₁, hins, -, rfl⟩ := h
      have hk₁ : k₁.family = k.family := insertTail_family hins
      exact hk₁

theorem afterSchedule_family {caller : ScheduleCaller} (h : afterSchedule k caller = some k') :
    k'.family = k.family := by
  cases caller with
  | sysWait status_ptr kstatus_ptr =>
    simp only [afterSchedule] at h
    split at h
    · cases h
    · obtain rfl := Option.some.inj h
      rfl
  | sysPipeRead buf kbuf len =>
    simp only [afterSchedule, Kernel.finishRead, Kernel.copyToUser] at h
    split at h
    · cases h
    · obtain rfl := Option.some.inj h
      rfl
  | sysCvarWait lock_id =>
    simp only [afterSchedule, Option.bind_eq_bind, Option.bind_eq_some_iff, Option.pure_def,
      Option.some.injEq, Prod.exists] at h
    obtain ⟨rc, k₁, hlock, rfl⟩ := h
    have hk₁ : k₁.family = k.family := syncLockAcquire_family hlock
    exact hk₁
  | _ =>
    obtain rfl := Option.some.inj h
    rfl

theorem resume_family (h : resume k = some k') : k'.family = k.family := by
  unfold resume at h
  cases hcontext : (k.pcb k.current_process).kernel_context with
  | uninitialized =>
    rw [hcontext] at h
    cases h
  | kernelStart =>
    rw [hcontext] at h
    obtain rfl := Option.some.inj h
    rfl
  | sysFork child u =>
    simp only [hcontext, forkReturn, Option.bind_eq_bind, Option.bind_eq_some_iff, Option.pure_def,
      Option.some.injEq] at h
    obtain ⟨k₁, ⟨k₂, hready, rfl⟩, rfl⟩ := h
    have hk₂ : k₂.family = k.family := (addToQueue_family hready).trans rfl
    exact hk₂
  | schedule caller =>
    simp only [hcontext, Option.bind_eq_bind, Option.bind_eq_some_iff, Option.pure_def,
      Option.some.injEq] at h
    obtain ⟨k₁, hafter, rfl⟩ := h
    have hk₁ : k₁.family = k.family := afterSchedule_family hafter
    exact hk₁

theorem sysDelay_family (h : sysDelay k = some k') : k'.family = k.family := by
  unfold sysDelay at h
  simp only at h
  split at h
  · obtain rfl := Option.some.inj h
    rfl
  · split at h
    · obtain rfl := Option.some.inj h
      rfl
    · simp only [Option.bind_eq_bind, Option.bind_eq_some_iff, Option.pure_def, Option.some.injEq] at h
      obtain ⟨k₁, hadd, rfl⟩ := h
      have hk₁ : k₁.family = k.family := (addToDelayQueue_family hadd).trans rfl
      exact hk₁

/-- Without a call no children list changes. -/
theorem Silent.family (he : Silent e) (h : (trapMachine hw).step k e = some k') :
    k'.family = k.family := by
  cases e with
  | kernel u call =>
    cases call with
    | delay => exact sysDelay_family (k := { k with uctxt := u }) h
    | _ => exact he.elim
  | clock u => exact clockHandler_family (k := { k with uctxt := u }) h
  | schedule =>
    simp only [trapMachine] at h
    split at h
    · exact schedule_family h
    · cases h
  | resume => exact resume_family h

theorem sysWait_family {kstatus_ptr : Int} (h : sysWait k kstatus_ptr = some k') :
    k'.family = k.family := by
  unfold sysWait at h
  simp only at h
  split at h
  · obtain rfl := Option.some.inj h
    rfl
  · simp only [Option.bind_eq_bind, Option.bind_eq_some_iff] at h
    obtain ⟨z_child, -, h⟩ := h
    cases z_child with
    | none =>
      simp only [Option.bind_eq_some_iff, Option.pure_def, Option.some.injEq] at h
      obtain ⟨k₁, hadd, rfl⟩ := h
      have hk₁ : k₁.family = k.family := (addToQueue_family hadd).trans rfl
      exact hk₁
    | some z =>
      obtain rfl := Option.some.inj h
      show (if k.uctxt.regs 0 ≠ 0 then _ else _ : Kernel).family = _
      split
      · exact removeFromQueue_family
      · exact removeFromQueue_family

/-! ## The exit -/

theorem leaveQueue_family : (leaveQueue k p).family = k.family := by
  unfold leaveQueue
  split
  · exact removeFromQueue_family
  · exact removeFromQueue_family
  · exact removeFromQueue_family
  · rfl

theorem notifyParent_family (h : notifyParent k c p status = some k') : k'.family = k.family := by
  simp only [notifyParent, Option.bind_eq_bind, Option.bind_eq_some_iff, Option.pure_def,
    Option.some.injEq] at h
  obtain ⟨k₁, hready, k₂, hstore, rfl⟩ := h
  have hk₁ : k₁.family = k.family := (addToQueue_family hready).trans removeFromQueue_family
  have hk₂ : k₂.family = k₁.family := by rw [storeStatus_frame hstore]
  exact hk₂.trans hk₁

/-- A process that exits gives up its own children only. -/
theorem sysExit_family (hf : k.family.Rep Set.univ f) (h : sysExit hw k = some k') :
    k'.family.Rep Set.univ (Function.update f k.current_process []) := by
  simp only [sysExit, terminateProcess, releaseProcess, Option.bind_eq_bind, Option.bind_eq_some_iff,
    Option.pure_def, Option.some.injEq] at h
  obtain ⟨k₃, ⟨k₂, ⟨k₁, horphan, rfl⟩, h⟩, rfl⟩ := h
  obtain ⟨family, heq, hrep⟩ := orphanChildren_eq
    (k := k.modifyPcb k.current_process fun pcb =>
      { pcb with exit_code := k.uctxt.regs 0, state := .processDefault }) hf
  obtain rfl := Option.some.inj (horphan.symm.trans heq)
  have hfamily : k₃.family = family := by
    split at h
    · split at h
      · exact (notifyParent_family h).trans leaveQueue_family
      · exact (addToQueue_family h).trans leaveQueue_family
    · exact (addToQueue_family h).trans leaveQueue_family
  show k₃.family.Rep Set.univ _
  rw [hfamily]
  exact hrep

/-! ## Both orders -/

/-- The calls of a parent that waits and of a child that exits. -/
def ReapingCall (p c : PcbPtr) (k : Kernel) (e : TrapEvent) : Prop :=
  Silent e ∨ (∃ status, ExitCall c status (k, e)) ∨ ∃ status_ptr, WaitCall p status_ptr (k, e)

theorem ReapingCall.keepsChild (hcall : ReapingCall p c k e) (hne : p ≠ c)
    (hf : k.family.Rep Set.univ f) (hc : c ∈ f p) (h : (trapMachine hw).step k e = some k') :
    ∃ f', k'.family.Rep Set.univ f' ∧ c ∈ f' p := by
  rcases hcall with hsilent | ⟨status, hcurrent, u, he, -⟩ | ⟨status_ptr, -, u, kstatus_ptr, he, -⟩
  · refine ⟨f, ?_, hc⟩
    rw [hsilent.family h]
    exact hf
  · obtain rfl : e = .kernel u .exit := he
    obtain rfl : k.current_process = c := hcurrent
    refine ⟨_, sysExit_family (k := { k with uctxt := u }) hf h, ?_⟩
    rw [Function.update_of_ne hne]
    exact hc
  · obtain rfl : e = .kernel u (.wait kstatus_ptr) := he
    refine ⟨f, ?_, hc⟩
    have hsame : k'.family = k.family := sysWait_family (k := { k with uctxt := u }) h
    rw [hsame]
    exact hf

/-- At the end of the events the child is still on the list. -/
theorem child_stays (hf : k₀.family.WellFormed Set.univ) (hc : k₀.family.OnList p c) (hne : p ≠ c)
    (hen : ∀ z ∈ (trapMachine hw).trace k₀ es, (trapMachine hw).enabled z.1 z.2)
    (hcalls : ∀ z ∈ (trapMachine hw).trace k₀ es, ReapingCall p c z.1 z.2)
    (hexec : (trapMachine hw).exec k₀ es = some k) : k.family.OnList p c := by
  obtain ⟨f₀, hf₀⟩ := hf
  have hrun : Run (trapMachine hw) (ReapingCall p c) k₀ ((trapMachine hw).trace k₀ es) k :=
    Run.ofExec hexec fun x hx => ⟨hen x hx, hcalls x hx⟩
  have hend : ∃ f, k.family.Rep Set.univ f ∧ c ∈ f p := by
    refine hrun.invariant (I := fun k => ∃ f, k.family.Rep Set.univ f ∧ c ∈ f p) ?_ ?_
    · exact ⟨f₀, hf₀, (hf₀.onList_iff (Set.mem_univ p)).1 hc⟩
    · rintro k e k' ⟨f, hf, hc⟩ - hcall hstep
      exact hcall.keepsChild hne hf hc hstep
  obtain ⟨f, hf, hc⟩ := hend
  exact (hf.onList_iff (Set.mem_univ p)).2 hc

theorem CallsInOrder.calls {x y : Kernel × TrapEvent} (h : CallsInOrder hw k₀ es x y)
    (hx : ReapingCall p c x.1 x.2) (hy : ReapingCall p c y.1 y.2) :
    ∀ z ∈ (trapMachine hw).trace k₀ es, ReapingCall p c z.1 z.2 := by
  obtain ⟨t₁, t₂, t₃, htrace, hsilent⟩ := h.split
  intro z hz
  rw [htrace] at hz
  simp only [List.mem_append, List.mem_cons] at hz hsilent
  rcases hz with hz | rfl | hz | rfl | hz
  · exact Or.inl (hsilent z (Or.inl (Or.inl hz)))
  · exact hx
  · exact Or.inl (hsilent z (Or.inl (Or.inr hz)))
  · exact hy
  · exact Or.inl (hsilent z (Or.inr hz))

/-- The two orders never end alike: neither takes the child from the list of its parent. -/
theorem wait_order_matters (hf : k₀.family.WellFormed Set.univ) (hc : k₀.family.OnList p c) (hne : p ≠ c)
    (hfirst : ExitFirst hw k₀ p c status status_ptr es)
    (hlater : WaitFirst hw k₀ p c status status_ptr es') :
    ¬ SameEnd hw k₀ p c status_ptr es es' ∧
      (∀ k, (trapMachine hw).exec k₀ es = some k → ¬ k.Gone c) ∧
      ∀ k, (trapMachine hw).exec k₀ es' = some k → ¬ k.Gone c := by
  have hstays : ∀ k, (trapMachine hw).exec k₀ es = some k → ¬ k.Gone c := by
    intro k hexec hgone
    obtain ⟨x, y, horder, hexit, hwait⟩ := hfirst
    have hcalls := horder.calls (Or.inr (Or.inl ⟨_, hexit⟩)) (Or.inr (Or.inr ⟨_, hwait⟩))
    exact hgone.2.2 p (child_stays hf hc hne horder.enabled hcalls hexec)
  have hstays' : ∀ k, (trapMachine hw).exec k₀ es' = some k → ¬ k.Gone c := by
    intro k hexec hgone
    obtain ⟨x, y, horder, hwait, hexit, -⟩ := hlater
    have hcalls := horder.calls (Or.inr (Or.inr ⟨_, hwait⟩)) (Or.inr (Or.inl ⟨_, hexit⟩))
    exact hgone.2.2 p (child_stays hf hc hne horder.enabled hcalls hexec)
  refine ⟨?_, hstays, hstays'⟩
  rintro ⟨k, k', hexec, -, hsame⟩
  exact hstays k hexec hsame.gone.1

/-! ## The small machine -/

theorem CallsInOrder.ofExec (es₁ es₂ es₃ : List TrapEvent) {e₁ e₂ : TrapEvent}
    (hes : es = es₁ ++ e₁ :: (es₂ ++ e₂ :: es₃))
    (hen : ∀ z ∈ (trapMachine hw).trace k₀ es, (trapMachine hw).enabled z.1 z.2)
    (hfirst : (trapMachine hw).exec k₀ es₁ = some k)
    (hlater : (trapMachine hw).exec k (e₁ :: es₂) = some k')
    (hsilent : ∀ e ∈ es₁ ++ es₂ ++ es₃, Silent e) : CallsInOrder hw k₀ es (k, e₁) (k', e₂) := by
  refine ⟨hen, (trapMachine hw).trace k₀ es₁, ((trapMachine hw).trace k (e₁ :: es₂)).tail,
    ((trapMachine hw).trace k' (e₂ :: es₃)).tail, ?_, ?_⟩
  · rw [hes, System.trace_append hfirst, ← List.cons_append, System.trace_append hlater]
    rfl
  · intro z hz
    apply hsilent z.2
    simp only [List.mem_append] at hz ⊢
    exact hz.imp (Or.imp System.mem_trace System.mem_tail_trace) System.mem_tail_trace

theorem forkedKernel_family : forkedKernel.family.WellFormed Set.univ := by
  have hdispatch : ∀ k, ∀ e ∈ dispatchEvents, FamilyEvent e ∧ FreesNobody k e := by
    simp [dispatchEvents, FamilyEvent, FreesNobody]
  have hen : (trapMachine .small).enabled initKernel (.kernel Boot.small.uctxt (.fork 102)) := by
    decide +kernel
  have hstep : (trapMachine .small).step initKernel (.kernel Boot.small.uctxt (.fork 102)) =
      some forkedKernel := (Option.some_get _).symm
  have hrun := (initKernel_run hdispatch).snoc hen ⟨trivial, trivial⟩ hstep
  obtain ⟨s, f, hwhole⟩ := wholeRun Boot.smallKernel_booted.familyStart hrun
  exact ⟨f, hwhole.family.family⟩

/-- The parent gives up the processor. -/
def standAsideEvents : List TrapEvent :=
  [.kernel (Boot.small.uctxt.setReg0 1) .delay, .schedule, .resume]

def exitEvent : TrapEvent := .kernel (Boot.small.uctxt.setReg0 7) .exit

/-- The child is gone, and the parent comes back. -/
def comeBackEvents : List TrapEvent :=
  let u := Boot.small.uctxt
  [.schedule, .resume, .clock u, .clock u, .schedule, .resume]

def collectEvent : TrapEvent := .kernel (Boot.small.uctxt.setReg0 8) (.wait 500)

def exitFirstEvents : List TrapEvent :=
  standAsideEvents ++ exitEvent :: (comeBackEvents ++ [collectEvent])

def waitFirstEvents : List TrapEvent :=
  collectEvent :: ([.schedule, .resume] ++ [exitEvent, .schedule, .resume])

/-- The child is about to exit. -/
def exitingKernel : Kernel := ((trapMachine .small).exec forkedKernel standAsideEvents).get (by decide +kernel)

/-- The parent is about to wait for the child that has exited. -/
def collectingKernel : Kernel :=
  ((trapMachine .small).exec exitingKernel (exitEvent :: comeBackEvents)).get (by decide +kernel)

/-- The child is about to exit while its parent waits. -/
def awaitedExitKernel : Kernel :=
  ((trapMachine .small).exec forkedKernel (collectEvent :: [.schedule, .resume])).get (by decide +kernel)

theorem exitFirst_small : ExitFirst .small forkedKernel 101 102 7 8 exitFirstEvents := by
  have hfirst : (trapMachine .small).exec forkedKernel standAsideEvents = some exitingKernel :=
    (Option.some_get _).symm
  have hlater : (trapMachine .small).exec exitingKernel (exitEvent :: comeBackEvents) =
      some collectingKernel := (Option.some_get _).symm
  refine ⟨(exitingKernel, exitEvent), (collectingKernel, collectEvent), ?_, ?_, ?_⟩
  · refine CallsInOrder.ofExec standAsideEvents comeBackEvents [] rfl ?_ hfirst hlater ?_
    · decide +kernel
    · simp [standAsideEvents, comeBackEvents, Silent]
  · exact ⟨by decide +kernel, _, rfl, rfl⟩
  · exact ⟨by decide +kernel, _, _, rfl, rfl, by decide⟩

/-- The call of `schedule` that the context was saved in. -/
def KernelContext.caller : KernelContext → Option ScheduleCaller
  | .schedule caller => some caller
  | _ => none

theorem KernelContext.caller_eq_some {c : KernelContext} {caller : ScheduleCaller} :
    c.caller = some caller ↔ c = .schedule caller := by
  cases c <;> simp [KernelContext.caller]

theorem awaitedExitKernel_blocked : awaitedExitKernel.BlockedInWait 101 := by
  refine ⟨.single (by decide +kernel), 8, 500, ?_⟩
  apply KernelContext.caller_eq_some.1
  decide +kernel

theorem waitFirst_small : WaitFirst .small forkedKernel 101 102 7 8 waitFirstEvents := by
  have hlater : (trapMachine .small).exec forkedKernel (collectEvent :: [.schedule, .resume]) =
      some awaitedExitKernel := (Option.some_get _).symm
  refine ⟨(forkedKernel, collectEvent), (awaitedExitKernel, exitEvent), ?_, ?_, ?_,
    awaitedExitKernel_blocked⟩
  · refine CallsInOrder.ofExec [] [.schedule, .resume] [.schedule, .resume] rfl ?_ rfl hlater ?_
    · decide +kernel
    · simp [Silent]
  · exact ⟨by decide +kernel, _, _, rfl, rfl, by decide⟩
  · exact ⟨by decide +kernel, _, rfl, rfl⟩

theorem wait_order_matters_small : ¬ SameEnd .small forkedKernel 101 102 8 exitFirstEvents waitFirstEvents := by
  have hchild : forkedKernel.family.OnList 101 102 := .single (by decide +kernel)
  exact (wait_order_matters forkedKernel_family hchild (by decide) exitFirst_small waitFirst_small).1

/-- After the one order the parent may not exit before its children again, after the other it may: only
one has set `waiting_for_children`. -/
theorem wait_order_matters_fails : ¬ ∀ es es', ExitFirst .small forkedKernel 101 102 7 8 es →
    WaitFirst .small forkedKernel 101 102 7 8 es' → SameEnd .small forkedKernel 101 102 8 es es' := by
  intro hall
  obtain ⟨k, k', hexec, hexec', hsame⟩ := hall _ _ exitFirst_small waitFirst_small
  have hflag : ((trapMachine .small).exec forkedKernel exitFirstEvents).map
      (fun k => (k.pcb 101).waiting_for_children) = some 0 := by decide +kernel
  have hflag' : ((trapMachine .small).exec forkedKernel waitFirstEvents).map
      (fun k => (k.pcb 101).waiting_for_children) = some 1 := by decide +kernel
  rw [hexec] at hflag
  rw [hexec'] at hflag'
  have heq := (Option.some.inj hflag).symm.trans (hsame.flag.trans (Option.some.inj hflag'))
  cases heq

end Yalnix
