import Yalnix.Proofs.Identity
import Yalnix.Proofs.ReadyRun
import Yalnix.Transition.Serving

/-!
# Nobody waits for the processor for ever

While somebody is ready, the clock takes the processor from a process when it has used up its time slice, and
no slice is longer than `DEFAULT_TIMESLICE`. So the ready queue is served in turns of bounded length, in the
runs in which no call has to wait.
-/

namespace Yalnix

open Intrusive Transition

variable {hw : Hardware} {k k' k₀ : Kernel} {s s' : QueueId → List PcbPtr} {p : PcbPtr} {e : TrapEvent}
  {u : UserContext} {t t₁ t₂ : List (Kernel × TrapEvent)} {j : Nat}

/-! ## Time slices -/

/-- No time slice is longer than that of a new process. -/
def SlicesBounded (k : Kernel) : Prop := ∀ p, (k.pcb p).time_slice ≤ DEFAULT_TIMESLICE

theorem SlicesBounded.samePcbs {new : PcbPtr → Prop} (h : SlicesBounded k) (hk : SamePcbs new k k') :
    SlicesBounded k' := by
  intro p
  rw [(hk.pcb p).time_slice]
  exact h p

theorem SlicesBounded.step (h : SlicesBounded k) (hstep : (trapMachine hw).step k e = some k') :
    SlicesBounded k' := by
  rcases (SamePcbs.allows hw fun _ => True).trapStep (fun _ _ _ => trivial) hstep with
    hk | ⟨u, child, -, hk⟩ | ⟨caller, -, -, hswitch⟩
  · exact h.samePcbs hk
  · refine SlicesBounded.samePcbs (fun p => ?_) hk
    by_cases e : p = child
    · simp [createPcb, e]
    · simpa [createPcb, e] using h p
  · obtain ⟨-, -, hpcb⟩ := switched_pcb hswitch
    intro p
    rw [(hpcb p).time_slice]
    exact h p

/-! ## Turns -/

/-- How much of its turn the running process has used up; all of it when `schedule` is called. -/
def Kernel.usedTurn (k : Kernel) : Nat :=
  match k.mode with
  | .atSchedule _ => DEFAULT_TIMESLICE.toNat + 1
  | _ => (min (k.pcb k.current_process).run_time DEFAULT_TIMESLICE).toNat

theorem usedTurn_eq (hmode : ∀ caller, k.mode ≠ .atSchedule caller) :
    k.usedTurn = (min (k.pcb k.current_process).run_time DEFAULT_TIMESLICE).toNat := by
  unfold Kernel.usedTurn
  split
  · rename_i caller heq
    exact absurd heq (hmode caller)
  · rfl

theorem usedTurn_le_slice (hmode : ∀ caller, k.mode ≠ .atSchedule caller) :
    k.usedTurn ≤ DEFAULT_TIMESLICE.toNat := by
  rw [usedTurn_eq hmode]
  exact Int.toNat_le_toNat (min_le_right _ _)

theorem usedTurn_le : k.usedTurn ≤ DEFAULT_TIMESLICE.toNat + 1 := by
  by_cases hmode : ∃ caller, k.mode = .atSchedule caller
  · obtain ⟨caller, hmode⟩ := hmode
    simp [Kernel.usedTurn, hmode]
  · exact (usedTurn_le_slice fun caller hno => hmode ⟨caller, hno⟩).trans (Nat.le_succ _)

theorem ticksSinceSwitch_nonneg : 0 ≤ ticksSinceSwitch t := by
  induction t using List.reverseRecOn with
  | nil => simp [ticksSinceSwitch]
  | append_singleton t x ih =>
    obtain ⟨k, e⟩ := x
    cases e with
    | kernel u c => simpa using ih
    | clock u =>
      rw [ticksSinceSwitch_clock]
      omega
    | schedule => simp
    | resume => simpa using ih

/-- A tick lets a process go on only within its time slice, or when nobody is ready. -/
theorem clockHandler_goesOn (h : clockHandler k = some k') (hmode : ∀ caller, k'.mode ≠ .atSchedule caller)
    (hready : k'.count .ready ≠ 0) :
    (k'.pcb k'.current_process).run_time ≤ (k'.pcb k'.current_process).time_slice := by
  simp only [clockHandler, Option.bind_eq_bind, Option.bind_eq_some_iff] at h
  obtain ⟨k₁, -, h⟩ := h
  split at h
  · obtain rfl := Option.some.inj h
    exact absurd rfl (hmode .clockHandler)
  · rename_i hstay
    obtain rfl := Option.some.inj h
    by_contra hlong
    exact hstay ⟨lt_of_not_ge hlong, hready⟩

/-- The invariant of the run. -/
structure Turning (hw : Hardware) (k : Kernel) : Prop where
  calm : Calm hw k k.queue
  switched : ∃ t, SwitchInv hw t k
  slices : SlicesBounded k

theorem Turning.runTime_nonneg (h : Turning hw k) : 0 ≤ (k.pcb k.current_process).run_time := by
  obtain ⟨t, hinv⟩ := h.switched
  rw [hinv.runTime]
  exact ticksSinceSwitch_nonneg

theorem NeverWaits.forkElsewhere (h : NeverWaits hw k e) : ForkElsewhere k e := by
  cases e with
  | kernel u c =>
    cases c with
    | fork child => exact h.2
    | _ => trivial
  | _ => trivial

theorem Turning.step (h : Turning hw k) (hen : (trapMachine hw).enabled k e) (hok : NeverWaits hw k e)
    (hstep : (trapMachine hw).step k e = some k') :
    Turning hw k' ∧ CalmCase hw k k.queue e k' k'.queue := by
  obtain ⟨s', hcase, hcalm⟩ := h.calm.step hen hok hstep
  obtain ⟨t, hinv⟩ := h.switched
  obtain rfl : k'.queue = s' := hcalm.steady.coherent.queue_eq
  exact ⟨⟨hcalm, ⟨_, hinv.step hok.forkElsewhere hstep⟩, h.slices.step hstep⟩, hcase⟩

/-- A step that leaves the run time alone gives nothing back. -/
theorem usedTurn_mono (hmode : ∀ caller, k.mode ≠ .atSchedule caller) (hk : Unswitched hw k k') :
    k.usedTurn ≤ k'.usedTurn := by
  by_cases hmode' : ∃ caller, k'.mode = .atSchedule caller
  · obtain ⟨caller, hmode'⟩ := hmode'
    refine usedTurn_le.trans ?_
    simp [Kernel.usedTurn, hmode']
  · rw [usedTurn_eq hmode, usedTurn_eq fun caller hno => hmode' ⟨caller, hno⟩, hk.current, hk.runTime]

/-- A tick uses up a part of the turn, as long as somebody is ready. -/
theorem Turning.clock_uses (h : Turning hw k) (h' : Turning hw k') (hmode : k.mode = .user)
    (hstep : (trapMachine hw).step k (.clock u) = some k') (hready : k'.queue .ready ≠ []) :
    k.usedTurn + 1 ≤ k'.usedTurn := by
  have hno : ∀ caller, k.mode ≠ .atSchedule caller := by
    intro caller heq
    rw [hmode] at heq
    cases heq
  by_cases hmode' : ∃ caller, k'.mode = .atSchedule caller
  · obtain ⟨caller, hmode'⟩ := hmode'
    have hle := usedTurn_le_slice hno
    simp only [Kernel.usedTurn, hmode']
    omega
  · have hno' : ∀ caller, k'.mode ≠ .atSchedule caller := fun caller heq => hmode' ⟨caller, heq⟩
    obtain ⟨t, hinv⟩ := h.switched
    have hinv' := hinv.clock hstep
    have hcount : k'.count .ready ≠ 0 := fun hzero =>
      hready (h'.calm.steady.coherent.count_eq_zero.1 hzero)
    have hwithin := clockHandler_goesOn hstep hno' hcount
    have hslice := h'.slices k'.current_process
    have hnonneg := h.runTime_nonneg
    -- the run time is the number of the ticks
    have htime : (k'.pcb k'.current_process).run_time = (k.pcb k.current_process).run_time + 1 := by
      rw [hinv'.runTime, hinv.runTime, ticksSinceSwitch_clock]
    rw [usedTurn_eq hno, usedTurn_eq hno']
    omega

/-- The ready queue is served in turns. -/
theorem turning_serving : Serving (trapMachine hw) (NeverWaits hw) (Turning hw) (fun k => k.queue .ready)
    (·.2.isSchedule) (·.2.isClock) Kernel.usedTurn (DEFAULT_TIMESLICE.toNat + 1) where
  inv _ _ _ h hen hok hstep := (h.step hen hok hstep).1
  line _ _ _ h hen hok hstep := Calm.ready_drop (h.step hen hok hstep).2
  bound _ := usedTurn_le
  disjoint := by
    rintro ⟨k, e⟩ hturn
    cases e with
    | schedule => rfl
    | _ => cases hturn
  uses := by
    intro k e k' h hen hok hstep hturn hready
    obtain ⟨h', hcase⟩ := h.step hen hok hstep
    obtain ⟨t, hinv⟩ := h.switched
    cases e with
    | kernel u c =>
      have hmode : ∀ caller, k.mode ≠ .atSchedule caller := by
        intro caller heq
        rw [hen.1] at heq
        cases heq
      have hfork : ∀ child, c = .fork child → child ≠ k.current_process := by
        rintro child rfl
        exact hok.forkElsewhere
      have henter : Unswitched hw k { k with uctxt := u } := .of_eq rfl rfl rfl
      exact usedTurn_mono hmode (henter.trans (Unswitched.syscall hfork hstep))
    | clock u =>
      refine h.clock_uses h' hen hstep fun hnil => hready ?_
      -- a tick takes nobody from the ready queue
      have hprefix : k.queue .ready <+: k'.queue .ready := Calm.ready_drop hcase
      rw [hnil] at hprefix
      exact List.prefix_nil.1 hprefix
    | schedule => cases hturn
    | resume =>
      have hmode : ∀ caller, k.mode ≠ .atSchedule caller := by
        intro caller heq
        have hen : k.mode = .resumed := hen
        rw [hen] at heq
        cases heq
      have hk : Unswitched hw k k' := Unswitched.resume hinv.table hstep
      exact usedTurn_mono hmode hk

/-! ## The theorem -/

theorem kernelStart_turning {b : Boot hw} (h₀ : kernelStart b = some k₀) : Turning hw k₀ where
  calm := (kernelStart_booted h₀).dispatchStart.calm
  switched := ⟨[], kernelStart_inv h₀⟩
  slices p := ((kernelStart_pids h₀).slice p).2

/-- In every run from boot in which no call has to wait, who is at place `j` of the ready queue is switched to
with the call of `schedule` after `j` more, and this call is made with tick number
`(j + 1) * (DEFAULT_TIMESLICE + 1)` of the clock at the latest. -/
theorem ready_gets_processor {b : Boot hw} (h₀ : kernelStart b = some k₀)
    (hrun : Run (trapMachine hw) (NeverWaits hw) k₀ (t₁ ++ t₂) k)
    (hp : ((firstState t₂ k).queue .ready)[j]? = some p) (hmode : k.mode = .user)
    (hticks : ((j : Int) + 1) * (DEFAULT_TIMESLICE + 1) ≤ clockTicks t₂) :
    ∃ t₃ k₁ t₄, t₂ = t₃ ++ (k₁, .schedule) :: t₄ ∧ switches t₃ = j ∧
      (firstState t₄ k).current_process = p := by
  obtain ⟨a, hfirst, hrest⟩ := hrun.parts
  rw [firstState_eq hrest] at hp
  have ha : Turning hw a := hfirst.invariant (kernelStart_turning h₀) turning_serving.inv
  -- in user mode a part of the last turn is left
  have hused : k.usedTurn ≤ DEFAULT_TIMESLICE.toNat := by
    refine usedTurn_le_slice fun caller heq => ?_
    rw [hmode] at heq
    cases heq
  have hlong : j * (DEFAULT_TIMESLICE.toNat + 1) + k.usedTurn < t₂.countP (·.2.isClock) := by
    have hlimit : DEFAULT_TIMESLICE.toNat = 4 := rfl
    have hslice : DEFAULT_TIMESLICE = 4 := rfl
    unfold clockTicks at hticks
    rw [hlimit] at hused ⊢
    rw [hslice] at hticks
    omega
  obtain ⟨t₃, ⟨k₁, e⟩, t₄, rfl, hturn, hcount, hhead⟩ := turning_serving.served hrest ha hp hlong
  cases e with
  | kernel u c => cases hturn
  | clock u => cases hturn
  | resume => cases hturn
  | schedule =>
    refine ⟨t₃, k₁, t₄, rfl, hcount, ?_⟩
    obtain ⟨c, hbefore, hen, hok, hstep, hafter⟩ := hrest.split
    rw [firstState_eq hafter]
    obtain ⟨-, hcase⟩ := (hbefore.invariant ha turning_serving.inv).step hen hok hstep
    generalize k₁.queue = s₁ at hhead hcase
    generalize c.queue = s₂ at hcase
    cases hcase with
    | schedule hmode hnext =>
      cases hnext with
      | idle hs => simp [hs] at hhead
      | ready hs =>
        rw [hs] at hhead
        exact Option.some.inj hhead

/-- The init process is switched to, and the clock ticks on. -/
def tickingEvents : List TrapEvent := dispatchEvents ++ List.replicate 3 (.clock Boot.small.uctxt)

def tickingKernel : Kernel :=
  ((trapMachine .small).exec Boot.smallKernel tickingEvents).get (by decide +kernel)

def tickingTrace : List (Kernel × TrapEvent) := (trapMachine .small).trace Boot.smallKernel tickingEvents

theorem ready_gets_processor_small : ∃ t₃ k₁ t₄, tickingTrace = t₃ ++ (k₁, .schedule) :: t₄ ∧
    switches t₃ = 0 ∧ (firstState t₄ tickingKernel).current_process = 101 := by
  have hen : ∀ x ∈ tickingTrace, (trapMachine .small).enabled x.1 x.2 ∧ neverWaits .small x.1 x.2 = true := by
    decide +kernel
  have hrun : Run (trapMachine .small) (NeverWaits .small) Boot.smallKernel ([] ++ tickingTrace) tickingKernel :=
    Run.ofExec (Option.some_get _).symm fun x hx => (hen x hx).imp_right neverWaits_imp
  exact ready_gets_processor (Option.some_get _).symm hrun (by decide +kernel) (by decide +kernel) (by decide +kernel)

end Yalnix
