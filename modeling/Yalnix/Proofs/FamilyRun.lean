import Yalnix.Proofs.FamilyStep
import Yalnix.Proofs.Unswitched

/-!
# Dangling PCBs

As long as no PCB is freed, everything that is linked is allocated; and whatever frees a PCB leaves it
linked.
-/

namespace Yalnix

open Intrusive Transition

variable {hw : Hardware} {k k' k₀ : Kernel} {s s' : QueueId → List PcbPtr} {f f' : PcbPtr → List PcbPtr}
  {e : TrapEvent} {p : PcbPtr} {t : List (Kernel × TrapEvent)}

/-- Nothing that is linked has been freed. -/
structure Whole (k : Kernel) (s : QueueId → List PcbPtr) (f : PcbPtr → List PcbPtr) : Prop where
  family : FamilyInv k s f
  current : k.allocated k.current_process = true
  terminated : ∀ p ∈ s .zombie, k.allocated p = true
  children : ∀ p c, c ∈ f p → k.allocated c = true

theorem FamilyInv.onList_iff (h : FamilyInv k s f) {c : PcbPtr} : k.family.OnList p c ↔ c ∈ f p :=
  h.family.onList_iff (Set.mem_univ p)

theorem FamilyInv.noZombieChild (h : FamilyInv k s f) :
    (∀ z, findZombieChild k k.current_process ≠ some (some z)) ↔
      ∀ c ∈ f k.current_process, (k.pcb c).state ≠ .processZombie := by
  rw [findZombieChild_eq h.family]
  constructor
  · intro hno c hc hz
    cases hfind : (f k.current_process).find? (fun c => (k.pcb c).state = .processZombie) with
    | none => exact absurd (by simpa using hz) (List.find?_eq_none.1 hfind c hc)
    | some z => exact hno z (by rw [hfind])
  · intro hno z hz
    have hfind := Option.some.inj hz
    have hst := List.find?_some hfind
    exact hno z (List.mem_of_find?_eq_some hfind) (by simpa using hst)

namespace Whole

theorem start (h₀ : FamilyStart k) : ∃ f, Whole k k.queue f := by
  obtain ⟨f, hinv⟩ := FamilyInv.start h₀
  refine ⟨f, hinv, h₀.fork.current, fun p hp => h₀.fork.listed .zombie p ?_, fun p c hc => ?_⟩
  · exact hinv.steady.coherent.onList_iff.2 hp
  · exact (h₀.fork.children p c (hinv.onList_iff.2 hc)).2

theorem listed (h : Whole k s f) {l : QueueId} (hp : p ∈ s l) : k.allocated p = true := by
  by_cases e : l = .zombie
  · exact h.terminated p (e ▸ hp)
  · exact h.family.listed l p e hp

theorem noDangling (h : Whole k s f) : NoDangling k where
  current _ _ := h.current
  queues l p hp := h.listed (h.family.steady.coherent.onList_iff.1 hp)
  children p c _ hc := h.children p c (h.family.onList_iff.1 hc)
  parents c p ha hp := (h.family.living p c ((h.family.kin c p ha).1 hp)).2.1
  kin p c _ hc := by rw [h.family.onList_iff, h.family.kin c p hc]

/-- Where everything linked is allocated, `malloc` answers with nothing that is linked. -/
theorem orderly (h : Whole k s f) (hen : (trapMachine hw).enabled k e) (hfree : FreesNobody k e) :
    Orderly k e := by
  cases e with
  | kernel u c =>
    cases c with
    | fork child =>
      have hno : ∀ b : Prop, k.allocated child = true → b := fun b ha => by
        have hfresh : k.allocated child = false := hen.2.2
        rw [hfresh] at ha
        cases ha
      refine ⟨h.family.steady.coherent.offQueues_iff.2 fun l hl => hno _ (h.listed hl), fun p hp => ?_⟩
      exact hno _ (h.children p child (h.family.onList_iff.1 hp))
    | exit => exact fun parent hpar hwait => absurd (hfree.2 parent hpar) hwait
    | _ => trivial
  | _ => trivial

/-- A step that frees nobody keeps everything linked allocated. -/
theorem step (h : Whole k s f) (hfree : FreesNobody k e) (hcase : FamilyCase hw k s f e k' s' f')
    (hinv : FamilyInv k' s' f') : Whole k' s' f' := by
  have hkeeps : k'.allocated = k.allocated → k'.current_process = k.current_process →
      f' = f → (∀ p ∈ s' .zombie, p ∈ s .zombie) → Whole k' s' f' := by
    intro halloc hcurrent hf hz
    refine ⟨hinv, by rw [halloc, hcurrent]; exact h.current, fun p hp => ?_, fun p c hc => ?_⟩
    · rw [halloc]
      exact h.terminated p (hz p hp)
    · rw [halloc]
      exact h.children p c (hf ▸ hc)
  cases hcase with
  | again => exact hkeeps rfl rfl rfl fun p => id
  | quick => exact hkeeps rfl rfl rfl fun p => id
  | refused => exact hkeeps rfl rfl rfl fun p => id
  | delays => exact hkeeps rfl rfl rfl fun p hp => by simpa using hp
  | waits => exact hkeeps rfl rfl rfl fun p hp => by simpa using hp
  | clock hmode hcase =>
    have hframe := hcase.frame
    exact hkeeps (by rw [hframe]) (by rw [hframe]) rfl fun p hp => by simpa [tickedLists] using hp
  | resume hmode hstep heq => exact hkeeps (by rw [heq]) (by rw [heq]) rfl fun p => id
  | @born u child m pt stack family q hmode hfresh =>
    have hstill : ∀ p, k.allocated p = true → Function.update k.allocated child true p = true := by
      intro p hp
      rw [Function.update_of_ne (ne_of_free hfresh hp).symm]
      exact hp
    refine ⟨hinv, hstill _ h.current, fun p hp => hstill p (h.terminated p (by simpa using hp)),
      fun p c hc => ?_⟩
    rcases mem_update_append.1 hc with hc | ⟨-, rfl⟩
    · exact hstill c (h.children p c hc)
    · exact Function.update_self ..
  | schedule hmode hnext =>
    have hmode' := hinv.current fun caller hno => by cases hno
    refine ⟨hinv, hmode', fun p hp => ?_, h.children⟩
    cases hnext with
    | idle => exact h.terminated p hp
    | ready => exact h.terminated p (by simpa using hp)
  | reaps hmode hz hzombie =>
    exact absurd (h.family.steady.coherent.listed _ _ hzombie) (h.family.noZombieChild.1 hfree _ hz)
  | @dies u k₁ q hmode hrel hgives =>
    have halloc : ∀ p, k.allocated p = true → k₁.allocated p = true := fun p ha =>
      (hgives.allocated p).2 ⟨ha, fun hn => h.family.noZombieChild.1 hfree.1 p hn.1 hn.2⟩
    refine ⟨hinv, ?_, fun p hp => ?_, fun p c hc => ?_⟩
    · have hsame : k₁.current_process = k.current_process := by rw [hrel.frame]
      show k₁.allocated k₁.current_process = true
      rw [hsame]
      exact halloc _ h.current
    · rcases mem_update_append.1 hp with hp | ⟨-, rfl⟩
      · exact halloc p (h.terminated p hp)
      · exact halloc _ h.current
    · rw [Function.update_apply] at hc
      split at hc
      · cases hc
      · exact halloc c (h.children p c hc)
  | notifies hmode hrel hgives hne hparent hwaiting => exact absurd (hfree.2 _ hparent) hwaiting

/-- An exit whose parent has waited frees the process that is about to call `schedule`. -/
theorem sysExit_frees (hf : k.family.Rep Set.univ f) (hself : k.current_process ∉ f k.current_process)
    {parent : PcbPtr} (hparent : (k.pcb k.current_process).parent = some parent)
    (hwait : (k.pcb parent).waiting_for_children ≠ 0) (h : sysExit hw k = some k') :
    k'.mode = .atSchedule .sysExit ∧ k'.allocated k'.current_process = false := by
  have hsame : Unswitched hw k k' := .sysExit h
  rw [hsame.current]
  unfold sysExit terminateProcess at h
  simp only [Option.bind_eq_bind, Option.bind_eq_some_iff, Option.pure_def, Option.some.injEq] at h
  obtain ⟨k₂, ⟨k₁, hrun, hterm⟩, rfl⟩ := h
  have hrel := releaseProcess_released hrun
  have hgives := releaseProcess_givesUp hf hself hrun
  have hst : (k₁.pcb k.current_process).state = .processDefault := by
    obtain ⟨_, -, hpcb⟩ := hrel.current
    rw [hpcb]
  have hleave : leaveQueue k₁ k.current_process = k₁ := by
    unfold leaveQueue
    rw [hst]
  have hpar : (k₁.pcb k.current_process).parent = some parent := by
    rw [hgives.parent, if_neg fun hn => hself hn.1, hparent]
  have hflag : (k₁.pcb parent).waiting_for_children ≠ 0 := fun e => hwait ((hrel.waiting parent).symm.trans e)
  rw [hleave, hpar] at hterm
  simp only [ne_eq, hflag, not_false_eq_true, ↓reduceIte, notifyParent, Option.bind_eq_bind,
    Option.bind_eq_some_iff, Option.pure_def, Option.some.injEq] at hterm
  obtain ⟨k₃, -, k₄, -, rfl⟩ := hterm
  exact ⟨rfl, by simp [Kernel.callSchedule, Kernel.free]⟩

/-- A step that frees a PCB leaves a dangling pointer. -/
theorem dangles (h : Whole k s f) (hen : (trapMachine hw).enabled k e) (hevent : FamilyEvent e)
    (hfrees : ¬ FreesNobody k e) (hstep : (trapMachine hw).step k e = some k') : ¬ NoDangling k' := by
  intro hno
  cases e with
  | kernel u c =>
    have hmode := hen.1
    cases c with
    | wait kstatus_ptr =>
      obtain ⟨s', f', hcase, hsteady⟩ := h.family.waitCase hen hstep
      have hinv := h.family.step hcase hsteady fun _ _ _ => hen.2.1
      -- the child that was reaped is still on the list of the caller's children
      cases hcase with
      | refused hmode hnone => exact hfrees (h.family.noZombieChild.2 fun c hc => by simp [hnone] at hc)
      | waits hmode hnidle hfresh hsome hnone => exact hfrees (h.family.noZombieChild.2 hnone)
      | reaps hmode hz hzombie =>
        have hcurrent := hinv.allocated_current hmode
        have hthere := hno.children _ _ hcurrent (hinv.onList_iff.2 hz)
        simp [reaped] at hthere
    | exit =>
      by_cases hwait : ∀ parent, (k.pcb k.current_process).parent = some parent →
          (k.pcb parent).waiting_for_children = 0
      · have hok : Orderly k (.kernel u .exit) := fun parent hpar hw => absurd (hwait parent hpar) hw
        obtain ⟨s', f', hcase, hsteady⟩ := h.family.exitCase hen hok hstep
        -- a terminated child that was freed is still on the list of the terminated processes
        refine hfrees ⟨h.family.noZombieChild.2 fun c hc hz => ?_, hwait⟩
        have hlist : c ∈ s .zombie := h.family.steady.coherent.mem_of_state (Or.inr (Or.inr rfl)) hz
        cases hcase with
        | dies hmode hrel hgives =>
          have hthere := hno.queues .zombie c (hsteady.coherent.onList_iff.2
            (mem_update_append.2 (Or.inl hlist)))
          exact ((hgives.allocated c).1 hthere).2 ⟨hc, hz⟩
        | notifies hmode hrel hgives hne hparent hwaiting => exact hwaiting (hwait _ hparent)
      · push Not at hwait
        obtain ⟨parent, hpar, hflag⟩ := hwait
        obtain ⟨hsched, hgone⟩ := sysExit_frees (k := { k with uctxt := u }) h.family.family
          h.family.self_notMem hpar hflag hstep
        have hthere := hno.current _ hsched
        rw [hgone] at hthere
        cases hthere
    | _ => exact hfrees trivial
  | _ => exact hfrees trivial

end Whole

theorem wholeRun (h₀ : FamilyStart k₀)
    (hrun : Run (trapMachine hw) (fun k e => FamilyEvent e ∧ FreesNobody k e) k₀ t k) : ∃ s f, Whole k s f := by
  refine hrun.invariant (I := fun k => ∃ s f, Whole k s f) ⟨_, Whole.start h₀⟩ ?_
  rintro k e k' ⟨s, f, hinv⟩ hen ⟨hevent, hfree⟩ hstep
  obtain ⟨s', f', hcase, hsteady⟩ := hinv.family.cases hen hevent (hinv.orderly hen hfree) hstep
  refine ⟨s', f', hinv.step hfree hcase (hinv.family.step hcase hsteady ?_)⟩
  rintro u c rfl
  exact hen.2.1

/-- In every run of families every linked PCB is allocated, and parents and children agree, as long as no
step frees a PCB, and no longer. -/
theorem no_dangling (h₀ : FamilyStart k₀) (hrun : Run (trapMachine hw) (fun _ e => FamilyEvent e) k₀ t k) :
    ((∀ x ∈ t, NoDangling x.1) ∧ NoDangling k) ↔ ∀ x ∈ t, FreesNobody x.1 x.2 := by
  constructor
  · rintro ⟨hbefore, hlast⟩
    induction hrun with
    | nil => simp
    | @snoc t b c e hrun hen hevent hstep ih =>
      have hfree := ih (fun x hx => hbefore x (List.mem_append_left _ hx)) (hbefore (b, e) (by simp))
      obtain ⟨s, f, hinv⟩ := wholeRun h₀ (hrun.restrict hfree)
      intro x hx
      rcases List.mem_append.1 hx with hx | hx
      · exact hfree x hx
      · obtain rfl := List.mem_singleton.1 hx
        by_contra hfrees
        exact hinv.dangles hen hevent hfrees hstep hlast
  · intro hfree
    have hwhole : ∀ t₁ k₁, Run (trapMachine hw) (fun k e => FamilyEvent e ∧ FreesNobody k e) k₀ t₁ k₁ →
        NoDangling k₁ := by
      intro t₁ k₁ hrun₁
      obtain ⟨s, f, hinv⟩ := wholeRun h₀ hrun₁
      exact hinv.noDangling
    have hrun := hrun.restrict hfree
    refine ⟨fun x hx => ?_, hwhole t k hrun⟩
    obtain ⟨t₁, t₂, rfl⟩ := List.append_of_mem hx
    obtain ⟨b, hbefore, -⟩ := hrun.split
    exact hwhole t₁ x.1 hbefore

/-! ## The start -/

/-- The kernel is booted into such a state. -/
theorem Booted.familyStart {b : Boot hw} (h : Booted b k) : FamilyStart k where
  fork := h.forkStart
  noWaiter w := h.syncStart.noWaiter w
  idle_flag := h.waiting _
  kin c p _ := by
    rw [h.family.onList_iff (Set.mem_univ p), h.parent c]
    simp
  living p c hc := by cases (h.family.onList_iff (Set.mem_univ p)).1 hc

/-- The init process forks, and waits for its child, which enters user mode. -/
def awaitedEvents : List TrapEvent :=
  let u := Boot.small.uctxt
  dispatchEvents ++ [.kernel u (.fork 102), .kernel u (.wait 500), .schedule, .resume]

def awaitedKernel : Kernel :=
  ((trapMachine .small).exec Boot.smallKernel awaitedEvents).get (by decide +kernel)

theorem awaitedKernel_run : Run (trapMachine .small) (fun _ e => FamilyEvent e) Boot.smallKernel
    ((trapMachine .small).trace Boot.smallKernel awaitedEvents) awaitedKernel := by
  have hen : ∀ x ∈ (trapMachine .small).trace Boot.smallKernel awaitedEvents,
      (trapMachine .small).enabled x.1 x.2 := by
    decide +kernel
  have hevents : ∀ e ∈ awaitedEvents, FamilyEvent e := by
    simp [awaitedEvents, dispatchEvents, FamilyEvent]
  exact Run.ofExec (Option.some_get _).symm fun x hx => ⟨hen x hx, hevents x.2 (System.mem_trace hx)⟩

theorem no_dangling_small : NoDangling awaitedKernel ∧ awaitedKernel.children 101 = [102] := by
  have hfree : ∀ x ∈ (trapMachine .small).trace Boot.smallKernel awaitedEvents, FreesNobody x.1 x.2 := by
    decide +kernel
  have hall := (no_dangling Boot.smallKernel_booted.familyStart awaitedKernel_run).2 hfree
  exact ⟨hall.2, by decide +kernel⟩

/-- The child exits. -/
def widowedKernel : Kernel :=
  ((trapMachine .small).step awaitedKernel (.kernel Boot.small.uctxt .exit)).get (by decide +kernel)

/-- The exit of a child whose parent waits frees the process that calls `schedule`. -/
theorem no_dangling_fails : ∃ t, Run (trapMachine .small) (fun _ e => FamilyEvent e) Boot.smallKernel t
    widowedKernel ∧ ¬ NoDangling widowedKernel := by
  have hen : (trapMachine .small).enabled awaitedKernel (.kernel Boot.small.uctxt .exit) := by
    decide +kernel
  refine ⟨_, awaitedKernel_run.snoc hen trivial (Option.some_get _).symm, fun hno => ?_⟩
  have hgone : widowedKernel.allocated widowedKernel.current_process = false := by decide +kernel
  have hsched : widowedKernel.mode = .atSchedule .sysExit := by decide +kernel
  have hthere := hno.current _ hsched
  rw [hgone] at hthere
  cases hthere

end Yalnix
