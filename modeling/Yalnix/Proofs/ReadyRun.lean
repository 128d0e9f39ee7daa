import Yalnix.Proofs.CalmRun
import Yalnix.Proofs.ForkRun

/-!
# Nobody is lost

In the runs in which no call has to wait and no tick takes the processor from a process, everybody has the
processor or is on a list, and the ready queue moves on by one with each call of `schedule`.
-/

namespace Yalnix

open Intrusive Transition

variable {hw : Hardware} {k k' k₀ : Kernel} {s s' : QueueId → List PcbPtr} {p : PcbPtr} {l : QueueId}
  {u : UserContext} {e : TrapEvent} {t t₁ t₂ : List (Kernel × TrapEvent)}

/-- Whoever is allocated has the processor, is the idle process, or is on a list. Who gives up the processor is
the idle process, or has been freed, or is on another list than the ready queue. -/
structure Placed (k : Kernel) (s : QueueId → List PcbPtr) : Prop where
  listed : ∀ p, k.allocated p = true → p ≠ k.idle_process → p ≠ k.current_process → ∃ l, p ∈ s l
  leaving : ∀ caller, k.mode = .atSchedule caller → k.current_process = k.idle_process ∨
    k.allocated k.current_process = false ∨ ∃ l, l ≠ .ready ∧ k.current_process ∈ s l

/-! ## Lists that grow -/

theorem mem_update_of_subset {xs : List PcbPtr} (hsub : s l ⊆ xs) {m : QueueId} (hp : p ∈ s m) :
    ∃ m', p ∈ Function.update s l xs m' := by
  by_cases e : m = l
  · subst e
    exact ⟨m, by simpa using hsub hp⟩
  · exact ⟨m, by simpa [e] using hp⟩

theorem NotifyCase.kept {parent : PcbPtr} {st : ProcessState} (h : NotifyCase k s parent st s')
    (hp : p ∈ s l) : ∃ l', p ∈ s' l' := by
  cases h with
  | nowhere => exact mem_update_of_subset (List.subset_append_left _ _) hp
  | elsewhere => exact ⟨l, hp⟩
  | waits hs =>
    by_cases e : p = parent
    · exact ⟨.ready, by simp [e]⟩
    · -- the others stay blocked
      obtain ⟨m, hm⟩ : ∃ m, p ∈ Function.update s .blocked ((s .blocked).erase parent) m := by
        by_cases hl : l = .blocked
        · subst hl
          exact ⟨.blocked, by simpa using (List.mem_erase_of_ne e).2 hp⟩
        · exact ⟨l, by simpa [hl] using hp⟩
      refine mem_update_of_subset ?_ hm
      rw [Function.update_of_ne (by decide)]
      exact List.subset_append_left _ _

/-- A tick keeps everybody who was on a list on one. -/
theorem mem_tickedLists_of_mem (hp : p ∈ s l) : ∃ l', p ∈ tickedLists k s (s .delay) [] l' := by
  unfold tickedLists
  by_cases hd : l = .delay
  · subst hd
    by_cases he : expires k p = true
    · exact ⟨.ready, by simp [hp, he]⟩
    · exact ⟨.delay, by simp [hp, he]⟩
  · by_cases hr : l = .ready
    · subst hr
      exact ⟨.ready, by simp [hp]⟩
    · exact ⟨l, by simp [hd, hr, hp]⟩

/-- What exits frees only who was allocated. -/
theorem Released.allocated_of {status : Int} {k₁ : Kernel} (h : Released hw k status k₁)
    (hp : k₁.allocated p = true) : k.allocated p = true := by
  rcases h.allocated p with heq | ⟨-, -, hfree⟩
  · rwa [← heq]
  · rw [hfree] at hp
    cases hp

/-! ## Steps -/

/-- Whom a handler does not free it leaves on a list. -/
theorem CallCase.listed {c : ProcessCall} (hcase : CallCase hw k s (.handler k.current_process u c) k' s')
    (h : Placed k s) (hp : k'.allocated p = true) (hidle : p ≠ k.idle_process)
    (hcurrent : p ≠ k.current_process) : ∃ l, p ∈ s' l := by
  generalize hq : k.current_process = q at hcase
  cases hcase with
  | quiet v hc => exact h.listed p hp hidle hcurrent
  | refork => exact h.listed p hp hidle hcurrent
  | @fork _ child =>
    by_cases e : p = child
    · exact ⟨.ready, by simp [e]⟩
    · have hp : k.allocated p = true := by simpa [forked, createPcb, Kernel.enter, e] using hp
      obtain ⟨l, hl⟩ := h.listed p hp hidle hcurrent
      exact mem_update_of_subset (List.subset_append_left _ _) hl
  | delays hc =>
    obtain ⟨l, hl⟩ := h.listed p hp hidle hcurrent
    exact mem_update_of_subset (List.subset_append_left _ _) hl
  | waits hc =>
    obtain ⟨l, hl⟩ := h.listed p hp hidle hcurrent
    exact mem_update_of_subset (List.subset_append_left _ _) hl
  | @reaps _ z u kstatus_ptr q hzombie hfind hc =>
    have hne : p ≠ z := by
      rintro rfl
      simp [reaped] at hp
    have hp : k.allocated p = true := by simpa [reaped, Kernel.enter, hne] using hp
    obtain ⟨l, hl⟩ := h.listed p hp hidle hcurrent
    by_cases e : l = .zombie
    · subst e
      exact ⟨.zombie, by simpa using (List.mem_erase_of_ne hne).2 hl⟩
    · exact ⟨l, by simpa [e] using hl⟩
  | dies hrel hparent hc =>
    obtain ⟨l, hl⟩ := h.listed p (hrel.allocated_of hp) hidle hcurrent
    exact mem_update_of_subset (List.subset_append_left _ _) hl
  | @notifies _ _ _ k₁ _ _ _ hrel hne hnidle hparent hwaiting hnotify hc =>
    have hp : k₁.allocated p = true := by
      simpa [notified, Kernel.callSchedule, ← hq, hcurrent] using hp
    obtain ⟨l, hl⟩ := h.listed p (hrel.allocated_of hp) hidle hcurrent
    exact hnotify.kept hl

/-- Nobody is taken from the ready queue but by `schedule`. -/
theorem CallCase.ready_prefix {c : ProcessCall}
    (hcase : CallCase hw k s (.handler k.current_process u c) k' s') : s .ready <+: s' .ready := by
  generalize hq : k.current_process = q at hcase
  cases hcase with
  | quiet => exact List.prefix_refl _
  | refork => exact List.prefix_refl _
  | fork => simp
  | delays => simp
  | waits => simp
  | reaps => simp
  | dies => simp
  | notifies _ _ _ _ _ hnotify _ =>
    cases hnotify with
    | waits => simp
    | nowhere => simp
    | elsewhere => exact List.prefix_refl _

/-- After a tick that does not take the processor from a process, a process goes on. -/
theorem ClockCase.keepsProcessor (hcase : ClockCase { k with uctxt := u } s k') (hc : Coherent k s)
    (hkeeps : ¬ TakesProcessor k) : k'.mode = k.mode ∨ k.current_process = k.idle_process := by
  cases hcase with
  | goesOn heq => exact Or.inl (by rw [heq]; rfl)
  | preempts heq _ htime hready =>
    refine Or.inr ?_
    by_contra hne
    refine hkeeps ⟨hne, htime, ?_⟩
    rw [hc.queue_eq]
    by_contra hnone
    simp only [not_or, not_not, not_exists, not_and] at hnone
    refine hready ?_
    -- nobody is ready, and nobody becomes so
    have hexpires : ∀ p ∈ s .delay, ¬ expires { k with uctxt := u } p = true := fun p hp => by
      simpa [expires] using hnone.2 p hp
    rw [tickedLists, Function.update_self, hnone.1, List.nil_append, List.filter_eq_nil_iff]
    exact hexpires

/-- A tick that does not take the processor from a process. -/
theorem ClockCase.placed (hcase : ClockCase { k with uctxt := u } s k') (hmode : k.mode = .user)
    (hc : Coherent k s) (h : Placed k s) (hkeeps : ¬ TakesProcessor k) :
    Placed k' (tickedLists k s (s .delay) []) := by
  have hprocessor := hcase.keepsProcessor hc hkeeps
  have hframe := hcase.frame
  refine ⟨fun p hp hidle hcurrent => ?_, fun caller hno => ?_⟩
  · rw [hframe] at hp hidle hcurrent
    obtain ⟨l, hl⟩ := h.listed p hp hidle hcurrent
    exact mem_tickedLists_of_mem hl
  · rcases hprocessor with hmode' | hidle
    · rw [hmode', hmode] at hno
      cases hno
    · refine Or.inl ?_
      rw [hframe]
      exact hidle

namespace Calm

/-- A step that loses nobody. -/
theorem placed (hcalm : Calm hw k s) (h : Placed k s) (hcase : CalmCase hw k s e k' s')
    (hclock : ∀ u, e = .clock u → ¬ TakesProcessor k) : Placed k' s' := by
  cases hcase with
  | quiet hmode hquiet =>
    have hno : ∀ caller, k'.mode ≠ .atSchedule caller := fun caller hno => by
      rw [hquiet.mode] at hno
      have hno : k.mode = .atSchedule caller := hno
      rw [hmode] at hno
      cases hno
    refine ⟨fun p hp hidle hcurrent => ?_, fun caller hno' => absurd hno' (hno caller)⟩
    rw [hquiet.allocated] at hp
    rw [hquiet.idle] at hidle
    rw [hquiet.current] at hcurrent
    exact h.listed p hp hidle hcurrent
  | handler hmode hcall hcase =>
    have hcurrent := hcase.handled.current
    have hidle := hcase.handled.idle
    refine ⟨fun p hp hpidle hpcurrent => ?_, fun caller hno => ?_⟩
    · rw [hidle] at hpidle
      rw [hcurrent] at hpcurrent
      exact hcase.listed h hp hpidle hpcurrent
    · rw [hcurrent]
      cases hcase.outcome (hcalm.off hmode) hcall.other with
      | returns hmode' =>
        rw [hmode', hmode] at hno
        cases hno
      | leaves _ _ hplaced => exact Or.inr hplaced
  | clock hmode hcase => exact hcase.placed hmode hcalm.steady.coherent h (hclock _ rfl)
  | @schedule caller next q s' hmode hnext =>
    refine ⟨fun p hp hidle hne => ?_, fun caller hno => by cases hno⟩
    -- it was on a list, and it is not the one that is taken from its list
    have hon : ∃ l, p ∈ s l := by
      by_cases e : p = k.current_process
      · subst e
        rcases h.leaving caller hmode with heq | hfree | ⟨l, -, hl⟩
        · exact absurd heq hidle
        · have hp : k.allocated k.current_process = true := hp
          rw [hfree] at hp
          cases hp
        · exact ⟨l, hl⟩
      · exact h.listed p hp hidle e
    obtain ⟨l, hl⟩ := hon
    by_cases e : l = .ready
    · subst e
      cases hnext with
      | idle => exact ⟨.ready, hl⟩
      | ready hs =>
        rw [hs] at hl
        have hl := (List.mem_cons.1 hl).resolve_left hne
        exact ⟨.ready, by simpa using hl⟩
    · exact ⟨l, by rwa [hnext.other e]⟩
  | resume hmode heq =>
    rw [heq]
    exact ⟨h.listed, fun caller hno => by cases hno⟩

/-- The ready queue loses at most its head, to a call of `schedule`, and grows only at its end. -/
theorem ready_drop (hcase : CalmCase hw k s e k' s') : (s .ready).drop e.isSchedule.toNat <+: s' .ready := by
  cases hcase with
  | quiet => exact List.prefix_refl _
  | handler hmode hcall hcase => exact hcase.ready_prefix
  | clock => exact List.prefix_append _ _
  | schedule hmode hnext =>
    cases hnext with
    | idle hs => simp [hs]
    | ready hs => simp [hs, TrapEvent.isSchedule]
  | resume => exact List.prefix_refl _

end Calm

/-! ## Runs -/

/-- The invariant of the run. -/
def Settled (hw : Hardware) (k : Kernel) : Prop := Calm hw k k.queue ∧ Placed k k.queue

theorem Settled.step (h : Settled hw k) (hen : (trapMachine hw).enabled k e) (hok : LosesNobody hw k e)
    (hstep : (trapMachine hw).step k e = some k') :
    Settled hw k' ∧ ∃ s', CalmCase hw k k.queue e k' s' ∧ k'.queue = s' := by
  obtain ⟨hcalm, hplaced⟩ := h
  obtain ⟨s', hcase, hcalm'⟩ := hcalm.step hen hok.1 hstep
  have hs : k'.queue = s' := hcalm'.steady.coherent.queue_eq
  subst hs
  exact ⟨⟨hcalm', hcalm.placed hplaced hcase hok.2⟩, _, hcase, rfl⟩

theorem Settled.run (h : Settled hw k₀) (hrun : Run (trapMachine hw) (LosesNobody hw) k₀ t k) : Settled hw k :=
  hrun.invariant h fun _ _ _ hs hen hok hstep => (hs.step hen hok hstep).1

theorem DispatchStart.settled (h₀ : DispatchStart k₀) (hplaced : k₀.EverybodyPlaced) : Settled hw k₀ := by
  refine ⟨h₀.calm, fun p hp hidle hcurrent => ?_, fun caller hno => ?_⟩
  · obtain ⟨l, hl⟩ := hplaced p hp hidle hcurrent
    exact ⟨l, h₀.delay.coherent.onList_iff.1 hl⟩
  · rw [h₀.delay.mode] at hno
    cases hno

/-- Who neither waits nor has exited has the processor or is ready. -/
theorem Settled.ready (h : Settled hw k) (hlives : k.Lives p) (hidle : p ≠ k.idle_process)
    (hdelayed : (k.pcb p).state ≠ .processDelayed) (hblocked : (k.pcb p).state ≠ .processBlocked) :
    p = k.current_process ∧ p ∉ k.queue .ready ∨ p ≠ k.current_process ∧ (k.queue .ready).count p = 1 := by
  obtain ⟨hcalm, hplaced⟩ := h
  -- its state says that it is on no list but the ready queue
  have honly : ∀ l, p ∈ k.queue l → l = .ready := by
    intro l hl
    have hstate := hcalm.steady.coherent.listed l p hl
    cases l with
    | ready => rfl
    | delay => exact absurd hstate hdelayed
    | blocked => exact absurd hstate hblocked
    | zombie => exact absurd hstate hlives.2
    | wait w => exact absurd hstate hblocked
  by_cases e : p = k.current_process
  · refine Or.inl ⟨e, fun hready => ?_⟩
    subst e
    cases hmode : k.mode with
    | user => exact hcalm.off hmode .ready hready
    | resumed => exact hcalm.steady.off (Or.inr hmode) .ready hready
    | atSchedule caller =>
      rcases hplaced.leaving caller hmode with heq | hfree | ⟨l, hne, hl⟩
      · exact hidle heq
      · rw [hlives.1] at hfree
        cases hfree
      · exact hne (honly l hl)
  · obtain ⟨l, hl⟩ := hplaced.listed p hlives.1 hidle e
    obtain rfl := honly l hl
    exact Or.inr ⟨e, List.count_eq_one_of_mem (hcalm.steady.coherent.rep.nodup _) hl⟩

/-- In every run in which no call has to wait and no tick takes the processor from a process, nobody is lost. -/
theorem nobody_lost (h₀ : DispatchStart k₀) (hplaced : k₀.EverybodyPlaced)
    (hrun : Run (trapMachine hw) (LosesNobody hw) k₀ t k) : NobodyLost t k where
  placed p hlives hidle hdelayed hblocked :=
    ((h₀.settled hplaced).run hrun).ready hlives hidle hdelayed hblocked
  preempted := by
    rintro t₁ k₁ u k₂ rfl hne
    have hrun : Run (trapMachine hw) (LosesNobody hw) k₀ ((t₁ ++ [(k₁, .clock u)]) ++ [(k₂, .schedule)]) k := by
      simpa using hrun
    obtain ⟨hbefore, hen₂, hok₂, hstep₂⟩ := hrun.last
    obtain ⟨hfirst, hen₁, hok₁, hstep₁⟩ := hbefore.last
    have h₁ : Settled hw k₁ := (h₀.settled hplaced).run hfirst
    obtain ⟨h₂, s₁, hcase₁, -⟩ := h₁.step hen₁ hok₁ hstep₁
    obtain ⟨-, s₂, hcase₂, -⟩ := h₂.step hen₂ hok₂ hstep₂
    -- the tick cannot have taken the processor
    cases hcase₁ with
    | clock hmode hclock =>
      cases hcase₂ with
      | schedule hmode₂ =>
        rcases hclock.keepsProcessor h₁.1.steady.coherent (hok₁.2 u rfl) with hmode' | hidle
        · have hmode₂ := hmode'.symm.trans hmode₂
          rw [hmode] at hmode₂
          cases hmode₂
        · exact absurd hidle hne
  dispatched := by
    rintro t₁ t₂ k₂ p rfl hp
    obtain ⟨hbefore, hen, hok, hstep⟩ := hrun.last
    obtain ⟨b, hfirst, hrest⟩ := hbefore.parts
    rw [firstState_eq hrest] at hp
    have hb : Settled hw b := (h₀.settled hplaced).run hfirst
    have hline : (b.queue .ready).drop (switches t₂) <+: k₂.queue .ready :=
      hrest.drop (I := Settled hw) (q := fun k => k.queue .ready) hb fun k e k' hs hen hok hstep => by
        obtain ⟨hs', s', hcase, hq⟩ := hs.step hen hok hstep
        refine ⟨hs', ?_⟩
        rw [hq]
        exact Calm.ready_drop hcase
    -- its turn has come
    obtain ⟨xs, hxs⟩ : ∃ xs, k₂.queue .ready = p :: xs := by
      obtain ⟨ys, hys⟩ := hline
      rw [List.drop_eq_getElem?_toList_append, hp] at hys
      exact ⟨_, hys.symm⟩
    obtain ⟨-, s', hcase, -⟩ := (hb.run hrest).step hen hok hstep
    cases hcase with
    | schedule hmode hnext =>
      cases hnext with
      | idle hs => simp [hxs] at hs
      | ready hs =>
        obtain ⟨rfl, -⟩ := List.cons.inj (hs.symm.trans hxs)
        rfl

/-- After boot nobody but the init process waits to run. -/
theorem Booted.everybodyPlaced {b : Boot hw} (h : Booted b k) : k.EverybodyPlaced := by
  intro p hp hidle _
  rcases (h.allocated p).1 hp with rfl | rfl
  · exact absurd h.idle.symm hidle
  · exact ⟨.ready, (h.queues.onList_iff (Set.mem_univ .ready)).2 (by simp)⟩

theorem nobody_lost_small : delayKernel.queue .ready = [101] ∧
    NobodyLost ((trapMachine .small).trace Boot.smallKernel delayEvents) delayKernel := by
  have hen : ∀ x ∈ (trapMachine .small).trace Boot.smallKernel delayEvents,
      (trapMachine .small).enabled x.1 x.2 ∧ neverWaits .small x.1 x.2 = true ∧
        (x.2.isClock = true → ¬ TakesProcessor x.1) := by
    decide +kernel
  refine ⟨by decide +kernel, ?_⟩
  refine nobody_lost Boot.smallKernel_booted.dispatchStart Boot.smallKernel_booted.everybodyPlaced <|
    Run.ofExec (Option.some_get _).symm fun x hx => ?_
  obtain ⟨hen, hgo, hclock⟩ := hen x hx
  exact ⟨hen, neverWaits_imp hgo, fun u hu => hclock (by rw [hu]; rfl)⟩

/-- The init process forks, and uses up its time while its child is ready. -/
def preemptedEvents : List TrapEvent :=
  let u := Boot.small.uctxt
  List.replicate 5 (.clock u) ++ [.schedule, .resume]

def preemptedKernel : Kernel :=
  ((trapMachine .small).exec forkedKernel preemptedEvents).get (by decide +kernel)

/-- It is on no list, though no call had to wait. -/
theorem nobody_lost_fails : ¬ ∀ (hw : Hardware) (k₀ k : Kernel) (t : List (Kernel × TrapEvent)),
    DispatchStart k₀ → k₀.EverybodyPlaced → Run (trapMachine hw) (NeverWaits hw) k₀ t k →
      NobodyLost t k := by
  intro h
  have hgo : ∀ k, ∀ e ∈ dispatchEvents, NeverWaits .small k e := by simp [dispatchEvents, NeverWaits]
  have hinit : Run (trapMachine .small) (NeverWaits .small) Boot.smallKernel _ initKernel := initKernel_run hgo
  obtain ⟨s, hcalm⟩ := Boot.smallKernel_booted.dispatchStart.calm.run hinit
  -- the address of the child is on no list
  have hoff : initKernel.OffQueues 102 :=
    hcalm.steady.coherent.offQueues_iff_state.2 (Or.inl (by decide +kernel))
  have hfork : NeverWaits .small initKernel (.kernel Boot.small.uctxt (.fork 102)) :=
    ⟨hoff, by decide +kernel⟩
  have hforked : Run (trapMachine .small) (NeverWaits .small) Boot.smallKernel _ forkedKernel :=
    hinit.snoc (by decide +kernel) hfork (Option.some_get _).symm
  have hen : ∀ x ∈ (trapMachine .small).trace forkedKernel preemptedEvents,
      (trapMachine .small).enabled x.1 x.2 ∧ neverWaits .small x.1 x.2 = true := by
    decide +kernel
  have hpreempted : Run (trapMachine .small) (NeverWaits .small) forkedKernel _ preemptedKernel :=
    Run.ofExec (Option.some_get _).symm fun x hx => (hen x hx).imp_right neverWaits_imp
  have hplaced := (h .small _ _ _ Boot.smallKernel_booted.dispatchStart
    Boot.smallKernel_booted.everybodyPlaced (hforked.trans hpreempted)).placed 101 ⟨by decide +kernel, by decide +kernel⟩
      (by decide +kernel) (by decide +kernel) (by decide +kernel)
  exact absurd hplaced (by decide +kernel)

end Yalnix
