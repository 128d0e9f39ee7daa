import Yalnix.Orphans
import Yalnix.Proofs.CrashRun

/-!
# Nobody frees an orphan

What a step does to parents, children and terminated processes, what every step keeps of them, and what
becomes of the PCB of a process whose parent has exited.
-/

namespace Yalnix

open Intrusive Transition

variable {hw : Hardware} {b : Boot hw} {k k' k₀ k₁ : Kernel} {f : PcbPtr → List PcbPtr} {p c : PcbPtr}
  {u : UserContext} {e : TrapEvent} {t : List (Kernel × TrapEvent)}

/-! ## Steps -/

/-- What a step does to parents and children, to the queue of the terminated processes, and to the PCBs that
are there. -/
inductive KinStep (k k' : Kernel) : Prop where
  | same (hchildren : k'.children = k.children) (hparent : ∀ p, (k'.pcb p).parent = (k.pcb p).parent)
      (hallocated : k'.allocated = k.allocated) (hzombie : k'.queue .zombie = k.queue .zombie)
  | born {child : PcbPtr} (hfresh : k.allocated child = false) (hno : ∀ p, child ∉ k.children p)
      (hoff : child ∉ k.queue .zombie)
      (hchildren : k'.children = Function.update k.children k.current_process
        (k.children k.current_process ++ [child]))
      (hparent : ∀ p, (k'.pcb p).parent =
        if p = child then some k.current_process else (k.pcb p).parent)
      (hallocated : k'.allocated = Function.update k.allocated child true)
      (hzombie : k'.queue .zombie = k.queue .zombie)
  | reaps {z : PcbPtr} (hchild : z ∈ k.children k.current_process) (hchildren : k'.children = k.children)
      (hparent : ∀ p, (k'.pcb p).parent = (k.pcb p).parent)
      (hallocated : k'.allocated = Function.update k.allocated z false)
      (hzombie : k'.queue .zombie = (k.queue .zombie).erase z)
  | dies {k₁ : Kernel} (hcurrent : k.allocated k.current_process = true)
      (hgives : GivesUp k k.children k₁) (hfamily : k'.family = k₁.family)
      (hparent : ∀ p, (k'.pcb p).parent = (k₁.pcb p).parent) (hallocated : k'.allocated = k₁.allocated)
      (hzombie : k'.queue .zombie = k.queue .zombie ++ [k.current_process])
  | notifies {k₁ : Kernel} {parent : PcbPtr} (hgives : GivesUp k k.children k₁) (hfamily : k'.family = k₁.family)
      (hparent : ∀ p, (k'.pcb p).parent = (k₁.pcb p).parent)
      (hhas : (k.pcb k.current_process).parent = some parent)
      (hallocated : k'.allocated = Function.update k₁.allocated k.current_process false)
      (hzombie : k'.queue .zombie = k.queue .zombie)

/-- The registers that a trap brings say nothing of this. -/
theorem KinStep.ofEntered (h : KinStep { k with uctxt := u } k') : KinStep k k' := by
  cases h with
  | same hchildren hparent hallocated hzombie => exact .same hchildren hparent hallocated hzombie
  | born hfresh hno hoff hchildren hparent hallocated hzombie =>
    exact .born hfresh hno hoff hchildren hparent hallocated hzombie
  | reaps hchild hchildren hparent hallocated hzombie =>
    exact .reaps hchild hchildren hparent hallocated hzombie
  | dies hcurrent hgives hfamily hparent hallocated hzombie =>
    exact .dies hcurrent ⟨hgives.rep, hgives.parent, hgives.allocated⟩ hfamily hparent hallocated hzombie
  | notifies hgives hfamily hparent hhas hallocated hzombie =>
    exact .notifies ⟨hgives.rep, hgives.parent, hgives.allocated⟩ hfamily hparent hhas hallocated hzombie

theorem Kernel.children_rep (h : k.family.Rep Set.univ f) : k.children = f := h.eq_toList.symm

theorem Kernel.children_congr (hfamily : k'.family = k.family) : k'.children = k.children := by
  unfold Kernel.children
  rw [hfamily]

namespace Kindred

theorem forkKin (h : Kindred k k.children) (hcalm : Calm hw k k.queue) {child : PcbPtr}
    (hfresh : k.allocated child = false) (hok : KeepsGoing hw k (.kernel u (.fork child)))
    (hstep : sysFork hw { k with uctxt := u } child = some k') : KinStep k k' := by
  rcases h.forkCase hcalm hfresh hok hstep with rfl | ⟨m, pt, stack, family, q, rfl, hrep, hc⟩
  · refine KinStep.same (k := k) rfl (fun p => ?_) rfl rfl
    by_cases e : p = k.current_process
    · subst e
      simp [Kernel.returnValue, Kernel.modifyPcb]
    · simp [Kernel.returnValue, Kernel.modifyPcb, e]
  · refine .born hfresh ?_ ?_ (Kernel.children_rep hrep) (fun p => ?_) rfl ?_
    · exact fun p hp => hok.2.2 p ((h.rep.onList_iff (Set.mem_univ p)).2 hp)
    · exact hcalm.steady.coherent.offQueues_iff.1 hok.2.1 .zombie
    · by_cases e : p = child
      · subst e
        simp [forked]
      · simp [forked, e]
    · rw [hc.queue_eq, Function.update_of_ne (by simp)]

theorem waitKin (h : Kindred k k.children) (hcalm : Calm hw k k.queue) (hmode : k.mode = .user)
    (hidle : k.current_process ≠ k.idle_process) {kstatus_ptr : Int}
    (hstep : sysWait k kstatus_ptr = some k') : KinStep k k' := by
  cases sysWait_cases hcalm.steady.coherent (hcalm.off hmode) hidle hstep with
  | childless hempty heq =>
    subst heq
    exact KinStep.same (k := k) rfl (fun _ => rfl) rfl rfl
  | waits hempty hnone heq hc =>
    refine .same (Kernel.children_congr (by rw [heq]; rfl)) (fun p => ?_) (by rw [heq]; rfl) ?_
    · rw [heq]
      by_cases e : p = k.current_process
      · subst e
        simp [waitingForChild]
      · simp [waitingForChild, e]
    · rw [hc.queue_eq, Function.update_of_ne (by simp)]
  | @reaps z q hempty hz hzombie heq hc =>
    refine .reaps (z := z) ?_ (Kernel.children_congr (by rw [heq]; rfl)) (fun p => ?_) (by rw [heq]; rfl) ?_
    · rw [findZombieChild_eq h.rep] at hz
      exact List.mem_of_find?_eq_some (Option.some.inj hz)
    · rw [heq]
      by_cases e : p = z
      · subst e
        simp [reaped]
      · simp [reaped, e]
    · rw [hc.queue_eq, Function.update_self]

theorem exitKin (h : Kindred k k.children) (hcalm : Calm hw k k.queue) (hmode : k.mode = .user)
    (hidle : k.current_process ≠ k.idle_process) (hstep : sysExit hw k = some k') : KinStep k k' := by
  obtain ⟨k₁, hgives, hcaller, hcase⟩ := h.exitParts hmode hcalm hidle hstep
  cases hcase with
  | zombie hpar heq hc =>
    have hqueue := hc.queue_eq
    subst heq
    refine .dies (h.current_user hmode) hgives rfl (fun p => ?_) rfl ?_
    · by_cases e : p = k.current_process
      · subst e
        simp [Kernel.callSchedule, Kernel.setState, Kernel.modifyPcb]
      · simp [Kernel.callSchedule, Kernel.setState, Kernel.modifyPcb, e]
    · rw [hqueue, Function.update_self]
  | @notifies q parent st s' hpar hwait hcase heq hc =>
    have hqueue := hc.queue_eq
    subst heq
    refine .notifies hgives rfl (fun p => ?_) (hcaller.symm.trans hpar) rfl ?_
    · by_cases e : p = parent
      · subst e
        simp [Kernel.callSchedule, notified]
      · simp [Kernel.callSchedule, notified, e]
    · rw [hqueue, hcase.zombie]

end Kindred

/-- The caller goes to the tail of the delay queue, if anywhere. -/
theorem delayKin (hcalm : Calm hw k k.queue) (hmode : k.mode = .user)
    (hidle : k.current_process ≠ k.idle_process) (hstep : sysDelay k = some k') : KinStep k k' := by
  rcases sysDelay_cases hcalm.steady.coherent (hcalm.off hmode) hidle hstep with
    ⟨-, v, rfl⟩ | ⟨-, q, heq, hc⟩
  · exact KinStep.same (k := k) rfl (fun _ => rfl) rfl rfl
  · refine .same (Kernel.children_congr (by rw [heq]; rfl)) (fun p => ?_) (by rw [heq]; rfl) ?_
    · rw [heq]
      by_cases e : p = k.current_process
      · subst e
        simp [delaying]
      · simp [delaying, e]
    · rw [hc.queue_eq, Function.update_of_ne (by simp)]

namespace Sturdy

theorem kindred_children (h : Sturdy hw k) : Kindred k k.children := by
  obtain ⟨f, hkindred⟩ := h.kindred
  rw [Kernel.children_rep hkindred.rep]
  exact hkindred

theorem kinStep (h : Sturdy hw k) (hen : (trapMachine hw).enabled k e) (hok : KeepsGoing hw k e)
    (hstep : (trapMachine hw).step k e = some k') : KinStep k k' := by
  have hkin := h.kindred_children
  cases e with
  | kernel u c =>
    obtain ⟨hmode, hidle, hfresh⟩ := hen
    have hkinu := hkin.enter u
    have hcalmu : Calm hw { k with uctxt := u } k.queue := h.calm.congr rfl
    have hquiet : GoesOn hw { k with uctxt := u } u c → ¬ FamilyEvent (.kernel u c) → KinStep k k' := by
      intro hgo hno
      obtain ⟨hq, hfamily⟩ := hcalmu.quietCall hmode hidle hgo hno hstep
      refine .same (Kernel.children_congr hfamily) (fun p => (hq.pcb p).parent) hq.allocated ?_
      rw [hq.coherent.queue_eq]
    cases c with
    | fork child => exact hkin.forkKin h.calm hfresh hok hstep
    | wait kstatus_ptr => exact (hkinu.waitKin hcalmu hmode hidle hstep).ofEntered
    | exit => exact (hkinu.exitKin hcalmu hmode hidle hstep).ofEntered
    | delay => exact (delayKin hcalmu hmode hidle hstep).ofEntered
    | _ => exact hquiet hok.1 not_false
  | clock u =>
    obtain ⟨hcase, hcalm'⟩ := h.calm.clock hen hstep
    have hfamily : k'.family = k.family := clockHandler_family (k := { k with uctxt := u }) hstep
    refine .same (Kernel.children_congr hfamily) (fun p => ?_) (by rw [hcase.frame]) ?_
    · obtain ⟨ticks, st, time, hpcb⟩ := hcase.pcb p
      rw [hpcb]
    · rw [hcalm'.steady.coherent.queue_eq]
      simp [tickedLists]
  | schedule =>
    obtain ⟨caller, next, q, s', hmode, rfl, hnext, hsteady⟩ := h.calm.steady.schedule hstep
    refine KinStep.same (k := k) rfl (fun _ => rfl) rfl ?_
    rw [hsteady.coherent.queue_eq, hnext.other (by simp)]
  | resume =>
    obtain ⟨heq, hsteady⟩ := h.calm.steady.resume hen hstep
    refine .same (Kernel.children_congr (resume_family hstep)) (fun p => by rw [heq]) (by rw [heq]) ?_
    rw [hsteady.coherent.queue_eq]

end Sturdy

/-! ## What every step keeps -/

namespace Acknowledged

/-- An exit spares whoever is there and has another parent than the caller, or none. -/
theorem spared (hk : Acknowledged k) (hgives : GivesUp k k.children k₁) (ha : k.allocated p = true)
    (hother : (k.pcb p).parent ≠ some k.current_process) :
    (k₁.pcb p).parent = (k.pcb p).parent ∧ k₁.allocated p = true := by
  have hno : p ∉ k.children k.current_process := fun hp => hother (hk.kin _ p hp ha)
  constructor
  · rw [hgives.parent, if_neg fun hn => hno hn.1]
  · exact (hgives.allocated p).2 ⟨ha, fun hn => hno hn.1⟩

theorem exitKin (hk : Acknowledged k) (hgives : GivesUp k k.children k₁) (hfamily : k'.family = k₁.family)
    (hparent : ∀ p, (k'.pcb p).parent = (k₁.pcb p).parent)
    (hgone : ∀ p, k'.allocated p = true → k₁.allocated p = true) :
    ∀ p, ∀ c ∈ k'.children p, k'.allocated c = true → (k'.pcb c).parent = some p := by
  intro p c hc ha
  have hchildren : k'.children = Function.update k.children k.current_process [] :=
    Kernel.children_rep (hfamily ▸ hgives.rep)
  rw [hchildren, Function.update_apply] at hc
  split at hc
  · cases hc
  · rename_i hne
    have hbefore := ((hgives.allocated c).1 (hgone c ha)).1
    have hkin := hk.kin p c hc hbefore
    have hother : (k.pcb c).parent ≠ some k.current_process := by
      rw [hkin]
      exact fun e => hne (Option.some.inj e)
    rw [hparent c, (hk.spared hgives hbefore hother).1, hkin]

/-- An exit takes no terminated process its parent, and frees none that has no parent. -/
theorem exitOrphan (hk : Acknowledged k) (hc : Coherent k k.queue) (hgives : GivesUp k k.children k₁)
    (hp : p ∈ k.queue .zombie) (hnone : (k₁.pcb p).parent = none) :
    (k.pcb p).parent = none ∧ k₁.allocated p = true := by
  have hst : (k.pcb p).state = .processZombie := hc.listed .zombie p hp
  have hbefore : (k.pcb p).parent = none := by
    rw [hgives.parent, if_neg fun hn => hn.2 hst] at hnone
    exact hnone
  refine ⟨hbefore, (hk.spared hgives (hk.orphans p hp hbefore) ?_).2⟩
  rw [hbefore]
  simp

theorem kinStep (hk : Acknowledged k) (hkin : Kindred k k.children) (hc : Coherent k k.queue)
    (hstep : KinStep k k') : Acknowledged k' := by
  cases hstep with
  | same hchildren hparent hallocated hzombie =>
    refine ⟨fun p c hp ha => ?_, fun p hp hnone => ?_⟩
    · rw [hchildren] at hp
      rw [hallocated] at ha
      rw [hparent]
      exact hk.kin p c hp ha
    · rw [hzombie] at hp
      rw [hparent] at hnone
      rw [hallocated]
      exact hk.orphans p hp hnone
  | @born child hfresh hno hoff hchildren hparent hallocated hzombie =>
    refine ⟨fun p c hp ha => ?_, fun p hp hnone => ?_⟩
    · rw [hchildren, mem_update_append] at hp
      rw [hparent]
      rcases hp with hp | ⟨rfl, rfl⟩
      · have hne : c ≠ child := fun e => hno p (e ▸ hp)
        rw [hallocated, Function.update_of_ne hne] at ha
        rw [if_neg hne]
        exact hk.kin p c hp ha
      · rw [if_pos rfl]
    · rw [hzombie] at hp
      have hne : p ≠ child := fun e => hoff (e ▸ hp)
      rw [hparent, if_neg hne] at hnone
      rw [hallocated, Function.update_of_ne hne]
      exact hk.orphans p hp hnone
  | @reaps z hchild hchildren hparent hallocated hzombie =>
    refine ⟨fun p c hp ha => ?_, fun p hp hnone => ?_⟩
    · rw [hchildren] at hp
      rw [hallocated, Function.update_apply] at ha
      split at ha
      · cases ha
      · rw [hparent]
        exact hk.kin p c hp ha
    · rw [hzombie, (hc.rep.nodup _).mem_erase_iff] at hp
      rw [hparent] at hnone
      rw [hallocated, Function.update_of_ne hp.1]
      exact hk.orphans p hp.2 hnone
  | dies hcurrent hgives hfamily hparent hallocated hzombie =>
    refine ⟨hk.exitKin hgives hfamily hparent fun p hp => hallocated ▸ hp, fun p hp hnone => ?_⟩
    rw [hzombie, List.mem_append, List.mem_singleton] at hp
    rw [hparent] at hnone
    rw [hallocated]
    rcases hp with hp | rfl
    · exact (hk.exitOrphan hc hgives hp hnone).2
    · exact (hgives.allocated _).2 ⟨hcurrent, fun hn => (hkin.living _ _ hn.1).1 rfl⟩
  | @notifies k₁ parent hgives hfamily hparent hhas hallocated hzombie =>
    have hgone : ∀ p, k'.allocated p = true → k₁.allocated p = true := by
      intro p hp
      rw [hallocated, Function.update_apply] at hp
      split at hp
      · cases hp
      · exact hp
    refine ⟨hk.exitKin hgives hfamily hparent hgone, fun p hp hnone => ?_⟩
    rw [hzombie] at hp
    rw [hparent] at hnone
    obtain ⟨hbefore, ha⟩ := hk.exitOrphan hc hgives hp hnone
    have hne : p ≠ k.current_process := by
      rintro rfl
      rw [hbefore] at hhas
      cases hhas
    rw [hallocated, Function.update_of_ne hne]
    exact ha

/-- Nobody frees an orphan. -/
theorem orphanStep (hk : Acknowledged k) (hp : k.Orphan p) (hstep : KinStep k k') :
    k'.Orphan p ∧ (p ∈ k.queue .zombie → p ∈ k'.queue .zombie) := by
  obtain ⟨ha, hnone⟩ := hp
  have hother : ∀ q, (k.pcb p).parent ≠ some q := by
    intro q
    rw [hnone]
    simp
  cases hstep with
  | same hchildren hparent hallocated hzombie =>
    refine ⟨⟨by rw [hallocated, ha], by rw [hparent, hnone]⟩, fun hz => ?_⟩
    rwa [hzombie]
  | @born child hfresh hno hoff hchildren hparent hallocated hzombie =>
    have hne := (ne_of_free hfresh ha).symm
    refine ⟨⟨?_, ?_⟩, fun hz => ?_⟩
    · rw [hallocated, Function.update_of_ne hne, ha]
    · rw [hparent, if_neg hne, hnone]
    · rwa [hzombie]
  | @reaps z hchild hchildren hparent hallocated hzombie =>
    have hne : p ≠ z := by
      rintro rfl
      exact hother _ (hk.kin _ p hchild ha)
    refine ⟨⟨?_, by rw [hparent, hnone]⟩, fun hz => ?_⟩
    · rw [hallocated, Function.update_of_ne hne, ha]
    · rw [hzombie]
      exact (List.mem_erase_of_ne hne).2 hz
  | dies hcurrent hgives hfamily hparent hallocated hzombie =>
    obtain ⟨hsame, hthere⟩ := hk.spared hgives ha (hother _)
    refine ⟨⟨by rw [hallocated, hthere], by rw [hparent, hsame, hnone]⟩, fun hz => ?_⟩
    rw [hzombie]
    exact List.mem_append_left _ hz
  | @notifies k₁ parent hgives hfamily hparent hhas hallocated hzombie =>
    obtain ⟨hsame, hthere⟩ := hk.spared hgives ha (hother _)
    have hne : p ≠ k.current_process := by
      rintro rfl
      exact hother _ hhas
    refine ⟨⟨?_, by rw [hparent, hsame, hnone]⟩, fun hz => ?_⟩
    · rw [hallocated, Function.update_of_ne hne, hthere]
    · rwa [hzombie]

end Acknowledged

/-! ## Functions that nothing calls -/

/-- What a function that nothing calls may do to the lists and the PCBs: it takes processes from lists, frees
terminated ones, and takes parents away. -/
structure Tended (k k' : Kernel) : Prop where
  coherent : Coherent k' k'.queue
  queue : ∀ l p, p ∈ k'.queue l → p ∈ k.queue l
  waiters : ∀ w, k'.queue (.wait w) = k.queue (.wait w)
  running : (∀ l, k.current_process ∉ k.queue l) →
    (k'.pcb k.current_process).state = (k.pcb k.current_process).state
  context : ∀ p, (k'.pcb p).kernel_context = (k.pcb p).kernel_context
  waiting : ∀ p, (k'.pcb p).waiting_for_children = (k.pcb p).waiting_for_children
  parent : ∀ p q, (k'.pcb p).parent = some q → (k.pcb p).parent = some q
  freed : ∀ p, k'.allocated p = true → k.allocated p = true
  spared : ∀ p, p ∉ k.queue .zombie → k.allocated p = true → k'.allocated p = true
  others : k' = { k with
    pcb := k'.pcb
    allocated := k'.allocated
    queues := k'.queues
    family := k'.family }

/-- Runs go on from there, if parents and children agree as before. -/
theorem Sturdy.tended (h : Sturdy hw k) (htended : Tended k k') (hrep : k'.family.Rep Set.univ f)
    (hmem : ∀ p, ∀ c ∈ f p, c ∈ k.children p)
    (hkin : ∀ c p, k'.allocated c = true → (k'.pcb c).parent = some p → c ∈ f p) : Sturdy hw k' := by
  have hkindred := h.kindred_children
  have hcalm := h.calm
  have hmode : k'.mode = k.mode := by rw [htended.others]
  have hcurrent : k'.current_process = k.current_process := by rw [htended.others]
  have hidle : k'.idle_process = k.idle_process := by rw [htended.others]
  have hmem' : k'.mem = k.mem := by rw [htended.others]
  have htable : k'.sync_table = k.sync_table := by rw [htended.others]
  have hused : k'.id_used = k.id_used := by rw [htended.others]
  have hoff : k.mode = .user ∨ k.mode = .resumed → ∀ l, k.current_process ∉ k.queue l := hcalm.steady.off
  constructor
  case calm =>
    constructor
    case steady =>
      refine ⟨htended.coherent, fun hm l hl => ?_, fun hm => ?_, fun p => ?_, fun id => ?_⟩
      · rw [hmode] at hm
        rw [hcurrent] at hl
        exact hoff hm l (htended.queue l _ hl)
      · rw [hmode] at hm
        rw [hcurrent, htended.running (hoff (Or.inr hm))]
        exact hcalm.steady.running hm
      · rw [htended.context]
        exact hcalm.steady.plain p
      · rw [hmode]
        exact hcalm.steady.caller id
    case call =>
      refine ⟨htended.coherent, hcalm.call.table.other htable hused htended.waiters, ?_, ?_, fun p hp => ?_⟩
      · rw [hidle]
        exact htended.spared _ (hcalm.steady.coherent.idle .zombie) hcalm.call.idle_allocated
      · rw [hidle, htended.waiting]
        exact hcalm.call.idle_flag
      · exact hcalm.call.parents p (htended.parent p p hp)
    case noWaiter => exact fun w => (htended.waiters w).trans (hcalm.noWaiter w)
    case sound =>
      rw [htended.others]
      exact hcalm.sound
    case running =>
      intro hm
      rw [hmode] at hm
      rw [hcurrent, htended.running (hoff (Or.inl hm))]
      exact hcalm.running hm
    case suspended =>
      intro p caller hp
      rw [htended.context] at hp
      exact hcalm.suspended p caller hp
    case caller =>
      rw [htended.others]
      exact hcalm.caller
  case table => exact h.table.congr htable hused (by rw [htended.others])
  case vm_enabled =>
    rw [hmem']
    exact h.vm_enabled
  case resumable =>
    intro p hp hstart
    rw [htended.context] at hstart
    rw [hmode, hcurrent, hidle]
    exact h.resumable p (htended.freed p hp) hstart
  case kindred =>
    refine ⟨f, hrep, fun hm => ?_, fun l hl p hp => ?_, hkin, fun p c hc => ?_⟩
    · rw [hmode] at hm
      rw [hcurrent]
      refine htended.spared _ (hoff ?_ .zombie) (hkindred.current hm)
      cases hk : k.mode with
      | user => exact Or.inl rfl
      | resumed => exact Or.inr rfl
      | atSchedule caller => exact absurd hk (hm caller)
    · have hp' := htended.queue l p hp
      refine htended.spared p (fun hz => ?_) (hkindred.listed l hl p hp')
      exact hl (hcalm.steady.coherent.unique hp' hz)
    · obtain ⟨hne, ha, hno⟩ := hkindred.living p c (hmem p c hc)
      exact ⟨hne, htended.spared p hno ha, fun hz => hno (htended.queue .zombie p hz)⟩

/-! ## Runs -/

theorem kernelStart_acknowledged (h₀ : kernelStart b = some k₀) : Acknowledged k₀ := by
  have hbooted := kernelStart_booted h₀
  refine ⟨fun p c hc => ?_, fun p hp => ?_⟩
  · rw [Kernel.children_rep hbooted.family] at hc
    cases hc
  · have hqueue : k₀.queue .zombie = Function.update (fun _ => []) QueueId.ready [b.init_pcb] QueueId.zombie :=
      (congrFun hbooted.queues.eq_toList _).symm
    rw [hqueue] at hp
    simp at hp

/-- What holds in every run in which no call has to wait. -/
theorem acknowledgedRun (h₀ : kernelStart b = some k₀) (hrun : Run (trapMachine hw) (KeepsGoing hw) k₀ t k) :
    Sturdy hw k ∧ Acknowledged k := by
  refine hrun.invariant (I := fun k => Sturdy hw k ∧ Acknowledged k)
    ⟨kernelStart_sturdy h₀, kernelStart_acknowledged h₀⟩ ?_
  rintro k e k' ⟨hsturdy, hk⟩ hen hok hstep
  refine ⟨hsturdy.step hen hok hstep, ?_⟩
  exact hk.kinStep hsturdy.kindred_children hsturdy.calm.steady.coherent (hsturdy.kinStep hen hok hstep)

theorem orphanRun (hsturdy : Sturdy hw k) (hk : Acknowledged k)
    (hrun : Run (trapMachine hw) (KeepsGoing hw) k t k') (hp : k.Orphan p) :
    k'.Orphan p ∧ (p ∈ k.queue .zombie → p ∈ k'.queue .zombie) := by
  have hall : Sturdy hw k' ∧ Acknowledged k' ∧ k'.Orphan p ∧
      (p ∈ k.queue .zombie → p ∈ k'.queue .zombie) := by
    refine hrun.invariant (I := fun k' => Sturdy hw k' ∧ Acknowledged k' ∧ k'.Orphan p ∧
      (p ∈ k.queue .zombie → p ∈ k'.queue .zombie)) ⟨hsturdy, hk, hp, id⟩ ?_
    rintro k₁ e k₂ ⟨hsturdy, hk, hp, hz⟩ hen hok hstep
    have hkin := hsturdy.kinStep hen hok hstep
    obtain ⟨hp', hz'⟩ := hk.orphanStep hp hkin
    refine ⟨hsturdy.step hen hok hstep, ?_, hp', fun h => hz' (hz h)⟩
    exact hk.kinStep hsturdy.kindred_children hsturdy.calm.steady.coherent hkin
  exact hall.2.2

/-- The living children of whoever exits are orphans. -/
theorem exit_orphans (hsturdy : Sturdy hw k) (hen : (trapMachine hw).enabled k (.kernel u .exit))
    (hstep : (trapMachine hw).step k (.kernel u .exit) = some k') (ha : k.allocated c = true)
    (hp : (k.pcb c).parent = some k.current_process) (hlive : c ∉ k.queue .zombie) : k'.Orphan c := by
  obtain ⟨hmode, hidle, -⟩ := hen
  have hkin := hsturdy.kindred_children
  have hcalm : Calm hw { k with uctxt := u } k.queue := hsturdy.calm.congr rfl
  have hchild := hkin.kin c _ ha hp
  have hne : c ≠ k.current_process := (hkin.living _ c hchild).1.symm
  have hst : (k.pcb c).state ≠ .processZombie := fun hst =>
    hlive (hsturdy.calm.steady.coherent.mem_of_state (Or.inr (Or.inr rfl)) hst)
  obtain ⟨k₁, hgives, -, hcase⟩ := (hkin.enter u).exitParts hmode hcalm hidle hstep
  have hthere : k₁.allocated c = true := (hgives.allocated c).2 ⟨ha, fun hn => hst hn.2⟩
  have hnone : (k₁.pcb c).parent = none := by
    rw [hgives.parent]
    exact if_pos ⟨hchild, hst⟩
  cases hcase with
  | zombie _ heq _ =>
    subst heq
    constructor
    · exact hthere
    · simpa [Kernel.callSchedule, Kernel.setState, Kernel.modifyPcb, hne] using hnone
  | @notifies q parent st s' _ _ _ heq _ =>
    subst heq
    constructor
    · simpa [Kernel.callSchedule, notified, hne] using hthere
    · by_cases e : c = parent
      · subst e
        simpa [Kernel.callSchedule, notified] using hnone
      · simpa [Kernel.callSchedule, notified, e] using hnone

/-- What becomes an orphan stays one for ever, with its PCB, and a terminated one stays on its queue. -/
theorem orphans_leak (h₀ : kernelStart b = some k₀) (hrun : Run (trapMachine hw) (KeepsGoing hw) k₀ t k) :
    (∀ x ∈ t, ∀ p, x.1.Orphan p → k.Orphan p ∧ (p ∈ x.1.queue .zombie → p ∈ k.queue .zombie)) ∧
    ∀ k₁ u, (k₁, .kernel u .exit) ∈ t → ∀ c, k₁.allocated c = true →
      (k₁.pcb c).parent = some k₁.current_process → c ∉ k₁.queue .zombie → k.Orphan c := by
  constructor
  · intro x hx p hp
    obtain ⟨t₁, t₂, rfl⟩ := List.append_of_mem hx
    obtain ⟨k₂, hbefore, hen, hok, hstep, hafter⟩ := hrun.split
    obtain ⟨hsturdy, hk⟩ := acknowledgedRun h₀ hbefore
    have hlater : Run (trapMachine hw) (KeepsGoing hw) x.1 ([x] ++ t₂) k :=
      (Run.nil.snoc (t := []) hen hok hstep).trans hafter
    exact orphanRun hsturdy hk hlater hp
  · intro k₁ u hx c ha hp hlive
    obtain ⟨t₁, t₂, rfl⟩ := List.append_of_mem hx
    obtain ⟨k₂, hbefore, hen, hok, hstep, hafter⟩ := hrun.split
    have hsturdy := (acknowledgedRun h₀ hbefore).1
    obtain ⟨hsturdy', hk'⟩ := acknowledgedRun h₀ (hbefore.snoc hen hok hstep)
    exact (orphanRun hsturdy' hk' hafter (exit_orphans hsturdy hen hstep ha hp hlive)).1

/-- The init process forks. -/
theorem forkedKernel_goes : Run (trapMachine .small) (KeepsInside .small) Boot.smallKernel
    ((trapMachine .small).trace Boot.smallKernel dispatchEvents ++
      [(initKernel, .kernel Boot.small.uctxt (.fork 102))]) forkedKernel := by
  have hdispatch : ∀ k, ∀ e ∈ dispatchEvents, FamilyEvent e ∧ FreesNobody k e := by
    simp [dispatchEvents, FamilyEvent, FreesNobody]
  have hgoes : ∀ k, ∀ e ∈ dispatchEvents, KeepsInside .small k e := by
    simp [dispatchEvents, KeepsInside, KeepsGoing, NeverWaits, ForkUnlinked, TrapEvent.PassesOwn]
  have hen : (trapMachine .small).enabled initKernel (.kernel Boot.small.uctxt (.fork 102)) := by
    decide +kernel
  have hne : (102 : PcbPtr) ≠ initKernel.current_process := by
    decide +kernel
  obtain ⟨s, f, hwhole⟩ := wholeRun Boot.smallKernel_booted.familyStart (initKernel_run hdispatch)
  have hfree : Orderly initKernel (.kernel Boot.small.uctxt (.fork 102)) := hwhole.orderly hen trivial
  exact (initKernel_run hgoes).snoc hen ⟨⟨⟨hfree.1, hne⟩, hfree⟩, trivial⟩ (Option.some_get _).symm

/-- The init process has a child; it exits, and then the child does. -/
def leakEvents : List TrapEvent :=
  let u := Boot.small.uctxt
  [.kernel u .exit, .schedule, .resume, .kernel u .exit]

def leakKernel : Kernel := ((trapMachine .small).exec forkedKernel leakEvents).get (by decide +kernel)

def leakTrace : List (Kernel × TrapEvent) :=
  (trapMachine .small).trace Boot.smallKernel dispatchEvents ++
    [(initKernel, .kernel Boot.small.uctxt (.fork 102))] ++ (trapMachine .small).trace forkedKernel leakEvents

theorem leakKernel_run :
    Run (trapMachine .small) (KeepsInside .small) Boot.smallKernel leakTrace leakKernel := by
  have hen : ∀ x ∈ (trapMachine .small).trace forkedKernel leakEvents,
      (trapMachine .small).enabled x.1 x.2 := by
    decide +kernel
  have hok : ∀ k, ∀ e ∈ leakEvents, KeepsInside .small k e := by
    simp [leakEvents, KeepsInside, KeepsGoing, NeverWaits, GoesOn, ForkUnlinked, TrapEvent.PassesOwn,
      Syscall.PassesOwn]
  refine forkedKernel_goes.trans (Run.ofExec (Option.some_get _).symm fun x hx => ?_)
  exact ⟨hen x hx, hok x.1 x.2 (System.mem_trace hx)⟩

theorem orphans_leak_small : leakKernel.Orphan 102 ∧ leakKernel.queue .zombie = [101, 102] := by
  have hexit : (forkedKernel, .kernel Boot.small.uctxt .exit) ∈ leakTrace := by
    have hhead : (trapMachine .small).trace forkedKernel leakEvents =
        (forkedKernel, .kernel Boot.small.uctxt .exit) ::
          ((trapMachine .small).trace forkedKernel leakEvents).tail := rfl
    rw [leakTrace, hhead]
    exact List.mem_append_right _ List.mem_cons_self
  have hleak := (orphans_leak (Option.some_get _).symm (leakKernel_run.mono fun _ _ h => h.1)).2 _ _ hexit 102
  exact ⟨hleak (by decide +kernel) (by decide +kernel) (by decide +kernel), by decide +kernel⟩

end Yalnix
