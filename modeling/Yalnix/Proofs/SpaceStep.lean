import Yalnix.FrameOwners
import Yalnix.Proofs.FamilyStep
import Yalnix.Proofs.UserBrk
import Yalnix.Proofs.Exec

/-!
# Which tables a step changes

A step changes the tables of nobody but the caller and its child, and nobody but these two begins or ceases to
live.
-/

namespace Yalnix

open Intrusive Transition

variable {hw : Hardware} {k k' k₁ : Kernel} {s s' : QueueId → List PcbPtr} {f f' : PcbPtr → List PcbPtr}
  {e : TrapEvent} {p : PcbPtr} {u : UserContext}

/-! ## Who lives -/

/-- Whoever lives is allocated and not on the list of the terminated processes. -/
theorem Coherent.lives_iff (hc : Coherent k s) : k.Lives p ↔ k.allocated p = true ∧ p ∉ s .zombie := by
  unfold Kernel.Lives
  refine and_congr_right fun _ => not_congr ⟨fun hst => ?_, hc.listed .zombie p⟩
  exact hc.mem_of_state (Or.inr (Or.inr rfl)) hst

/-- The process `p` is the same to the outside: its tables are, and it lives if it did. -/
structure SameSpace (k k' : Kernel) (p : PcbPtr) : Prop where
  lives : k'.Lives p ↔ k.Lives p
  region1_pt : (k'.pcb p).region1_pt = (k.pcb p).region1_pt
  kernel_stack : (k'.pcb p).kernel_stack = (k.pcb p).kernel_stack

theorem mapped_congr {x : TableEntry} (hlives : k'.Lives x.process ↔ k.Lives x.process)
    (hentry : k'.entry x = k.entry x) : k'.mapped hw x = k.mapped hw x := by
  unfold Kernel.mapped
  rw [hentry]
  exact if_congr (and_congr_left fun _ => hlives) rfl rfl

theorem SameSpace.mapped {x : TableEntry} (h : SameSpace k k' x.process) : k'.mapped hw x = k.mapped hw x := by
  refine mapped_congr h.lives ?_
  cases x with
  | page p i => exact congrFun h.region1_pt i
  | stack p i => exact congrFun h.kernel_stack i

/-- A step that moves processes between lists only. -/
theorem SameSpace.ofLists (hc : Coherent k s) (hc' : Coherent k' s')
    (halloc : p ∉ s .zombie → k'.allocated p = k.allocated p)
    (hzombie : k'.allocated p = true → (p ∈ s' .zombie ↔ p ∈ s .zombie))
    (htables : (k'.pcb p).region1_pt = (k.pcb p).region1_pt ∧
      (k'.pcb p).kernel_stack = (k.pcb p).kernel_stack) : SameSpace k k' p := by
  refine ⟨?_, htables.1, htables.2⟩
  rw [hc.lives_iff, hc'.lives_iff]
  constructor
  · rintro ⟨ha, hz⟩
    have hz : p ∉ s .zombie := fun hp => hz ((hzombie ha).2 hp)
    exact ⟨(halloc hz).symm.trans ha, hz⟩
  · rintro ⟨ha, hz⟩
    have ha := (halloc hz).trans ha
    exact ⟨ha, fun hp => hz ((hzombie ha).1 hp)⟩

/-! ## The cases -/

/-- The flags and the bits are the same. -/
structure SameBits (m m' : Memory) : Prop where
  bits : m'.frame_bitMap = m.frame_bitMap
  vm : m'.vm_enabled = m.vm_enabled
  exhausted : m'.exhausted = m.exhausted

theorem SameBits.refl (m : Memory) : SameBits m m := ⟨rfl, rfl, rfl⟩

/-- What a step can do to frames and tables. -/
inductive SpaceCase (hw : Hardware) (k : Kernel) : TrapEvent → Kernel → Prop where
  | same {e : TrapEvent} {k' : Kernel} (hbits : SameBits k.mem k'.mem) (hsame : ∀ p, SameSpace k k' p) :
      SpaceCase hw k e k'
  | forks {u : UserContext} {child : PcbPtr} {m : Memory} {pt stack : Nat → Pte}
      {family : Heap PcbPtr PcbPtr} {q : Heap QueueId PcbPtr} (hmode : k.mode = .user)
      (hfresh : k.allocated child = false) (hmem : ForkMemory hw k m pt stack) :
      SpaceCase hw k (.kernel u (.fork child)) (forked hw { k with uctxt := u } child m pt stack family q)
  | loads {u : UserContext} {req : LoadRequest} {rc : LoadResult} {m : Memory} {proc : Pcb}
      (hmode : k.mode = .user)
      (hload : loadProgram hw k.mem (k.pcb k.current_process) req = some (rc, m, proc)) :
      SpaceCase hw k (.kernel u (.exec req)) (execed { k with uctxt := u } m proc)
  | grows {u : UserContext} {lo n : Nat} {ok : Bool} {m : Memory} {pt : Nat → Pte} {v : Int}
      (hmode : k.mode = .user) (hgrow : growUserHeap hw k.mem k.table lo n = some (ok, m, pt)) :
      SpaceCase hw k (.kernel u .brk) ((grown { k with uctxt := u } m pt).returnValue v)
  | exits {u : UserContext} {k' : Kernel} (hmode : k.mode = .user)
      (hmem : k'.mem = freeProcessMemory hw k.mem (k.pcb k.current_process))
      (hgone : ¬ k'.Lives k.current_process)
      (hsame : ∀ p, p ≠ k.current_process → SameSpace k k' p) : SpaceCase hw k (.kernel u .exit) k'

namespace FamilyInv

/-! ## Exits -/

/-- An exit, after which the list of the terminated processes has at most the caller in addition. -/
theorem exitSpace (h : FamilyInv k s f) (hmode : k.mode = .user)
    (hrel : Released hw { k with uctxt := u } (u.regs 0) k₁) (hgives : GivesUp k f k₁)
    (hinv : FamilyInv k' s' f') (hmem : k'.mem = k₁.mem)
    (halloc : ∀ p, p ≠ k.current_process → k'.allocated p = k₁.allocated p)
    (hzombie : ∀ p, p ≠ k.current_process → (p ∈ s' .zombie ↔ p ∈ s .zombie))
    (hpcb : ∀ p, (k'.pcb p).region1_pt = (k₁.pcb p).region1_pt ∧
      (k'.pcb p).kernel_stack = (k₁.pcb p).kernel_stack)
    (hgone : ¬ k'.Lives k.current_process) : SpaceCase hw k (.kernel u .exit) k' := by
  refine .exits hmode ?_ hgone fun p hp => ?_
  · rw [hmem, hrel.frame]
  have hother : k₁.pcb p = k.pcb p ∨ k₁.pcb p = { k.pcb p with parent := none } := hrel.other p hp
  refine .ofLists h.steady.coherent hinv.steady.coherent (fun hz => ?_) (fun _ => hzombie p hp) ?_
  · -- only terminated children are freed
    have hst : (k.pcb p).state ≠ .processZombie := fun hst =>
      hz (h.steady.coherent.mem_of_state (Or.inr (Or.inr rfl)) hst)
    rw [halloc p hp, Bool.eq_iff_iff, hgives.allocated p]
    exact ⟨And.left, fun ha => ⟨ha, fun hn => hst hn.2⟩⟩
  · rw [(hpcb p).1, (hpcb p).2]
    rcases hother with heq | heq
    · rw [heq]
      exact ⟨rfl, rfl⟩
    · rw [heq]
      exact ⟨rfl, rfl⟩

theorem exitStep (h : FamilyInv k s f) (hen : (trapMachine hw).enabled k (.kernel u .exit))
    (hstep : (trapMachine hw).step k (.kernel u .exit) = some k') :
    ∃ s' f', FamilyInv k' s' f' ∧ SpaceCase hw k (.kernel u .exit) k' := by
  have hmode := hen.1
  have hnidle := hen.2.1
  obtain ⟨k₁, hrel, hgives, hcaller, hcase⟩ := h.exitParts hen hstep
  cases hcase with
  | @zombie q hpar heq hc' =>
    have hsteady := h.exit_steady hrel (.zombie hpar heq hc') hc'
    subst heq
    have hcase : FamilyCase hw k s f (.kernel u .exit) _ _ _ :=
      .dies (q := q) hmode hrel hgives fun parent hp =>
        (hrel.waiting parent).symm.trans (hpar parent (hcaller.trans hp))
    have hinv := h.step hcase hsteady fun _ _ _ => hnidle
    refine ⟨_, _, hinv, h.exitSpace hmode hrel hgives hinv rfl (fun _ _ => rfl) (fun p hp => ?_) (fun p => ?_) ?_⟩
    · simp [hp]
    · by_cases e : p = k.current_process
      · subst e
        simp [Kernel.callSchedule, Kernel.setState, Kernel.modifyPcb]
      · simp [Kernel.callSchedule, Kernel.setState, Kernel.modifyPcb, e]
    · intro hlives
      exact hlives.2 (by simp [Kernel.callSchedule, Kernel.setState, Kernel.modifyPcb])
  | @notifies q parent st s' hpar hwait hcase heq hc' =>
    have hsteady := h.exit_steady hrel (.notifies hpar hwait hcase heq hc') hc'
    have hinv := h.notifies hmode hnidle hrel hgives (hcaller.symm.trans hpar) hcase heq hsteady
    subst heq
    refine ⟨_, _, hinv, h.exitSpace hmode hrel hgives hinv rfl (fun p hp => ?_) (fun p hp => ?_) (fun p => ?_) ?_⟩
    · simp [Kernel.callSchedule, notified, hp]
    · cases hcase <;> simp
    · by_cases e : p = parent
      · subst e
        simp [Kernel.callSchedule, notified]
      · simp [Kernel.callSchedule, notified, e]
    · intro hlives
      have halloc := hlives.1
      simp [Kernel.callSchedule, notified] at halloc

/-! ## Steps that change no table -/

/-- What the other calls of families, the clock and the switches do. -/
theorem sameStep (h : FamilyInv k s f) (hcase : FamilyCase hw k s f e k' s' f') (hinv : FamilyInv k' s' f')
    (hfork : ∀ u child, e = .kernel u (.fork child) → k'.allocated = k.allocated)
    (hexit : ∀ u, e ≠ .kernel u .exit) : SpaceCase hw k e k' := by
  have hc := h.steady.coherent
  have hc' := hinv.steady.coherent
  cases hcase with
  | again =>
    refine .same (.refl _) fun p => .ofLists hc hc' (fun _ => rfl) (fun _ => Iff.rfl) ?_
    by_cases e : p = k.current_process
    · subst e
      simp [Kernel.returnValue, Kernel.modifyPcb]
    · simp [Kernel.returnValue, Kernel.modifyPcb, e]
  | @born u child _ _ _ _ _ _ hfresh =>
    have hthere := congrFun (hfork u child rfl) child
    rw [hfresh] at hthere
    simp [forked, createPcb] at hthere
  | quick => exact .same (.refl _) fun p => .ofLists hc hc' (fun _ => rfl) (fun _ => Iff.rfl) ⟨rfl, rfl⟩
  | refused => exact .same (.refl _) fun p => .ofLists hc hc' (fun _ => rfl) (fun _ => Iff.rfl) ⟨rfl, rfl⟩
  | delays =>
    refine .same (.refl _) fun p => .ofLists hc hc' (fun _ => rfl) (fun _ => by simp) ?_
    by_cases e : p = k.current_process
    · subst e
      simp [delaying]
    · simp [delaying, e]
  | waits =>
    refine .same (.refl _) fun p => .ofLists hc hc' (fun _ => rfl) (fun _ => by simp) ?_
    by_cases e : p = k.current_process
    · subst e
      simp [waitingForChild]
    · simp [waitingForChild, e]
  | @reaps u _ z q hmode hz hzombie =>
    refine .same (.refl _) fun p => .ofLists hc hc' (fun hp => ?_) (fun ha => ?_) ?_
    · have hne : p ≠ z := fun e => hp (e ▸ hzombie)
      simp [reaped, hne]
    · have hne : p ≠ z := by
        rintro rfl
        simp [reaped] at ha
      simpa using List.mem_erase_of_ne hne
    · by_cases e : p = z
      · subst e
        simp [reaped]
      · simp [reaped, e]
  | dies => exact absurd rfl (hexit _)
  | notifies => exact absurd rfl (hexit _)
  | clock hmode hcase =>
    have hframe := hcase.frame
    have hmem : k'.mem = k.mem := by rw [hframe]
    refine .same (hmem ▸ .refl _) fun p => .ofLists hc hc' (fun _ => by rw [hframe]) (fun _ => ?_) ?_
    · simp [tickedLists]
    · obtain ⟨ticks, st, time, hpcb⟩ := hcase.pcb p
      rw [hpcb]
      exact ⟨rfl, rfl⟩
  | schedule hmode hnext =>
    refine .same ⟨rfl, rfl, rfl⟩ fun p => .ofLists hc hc' (fun _ => rfl) (fun _ => ?_) ⟨rfl, rfl⟩
    rw [hnext.other (by simp)]
  | resume hmode hstep heq =>
    rw [heq] at hc' ⊢
    exact .same ⟨rfl, rfl, rfl⟩ fun p => .ofLists hc hc' (fun _ => rfl) (fun _ => Iff.rfl) ⟨rfl, rfl⟩

/-- A call that goes back with a result, and changes nothing else. -/
theorem returns (h : FamilyInv k s f) (hmode : k.mode = .user) (v : Int) :
    FamilyInv (({ k with uctxt := u } : Kernel).returnValue v) s f := by
  have hc : Coherent (({ k with uctxt := u } : Kernel).returnValue v) s :=
    h.steady.coherent.congr rfl rfl fun _ => rfl
  exact h.keeps (.returns hmode hc rfl rfl (h.off hmode) h.steady.plain) rfl rfl rfl
    (fun p => ⟨rfl, Or.inl rfl⟩) (fun p => id) (fun _ => h.allocated_current hmode) fun l p hp => Or.inl hp

theorem sameReturns (u : UserContext) (v : Int) (e : TrapEvent) :
    SpaceCase hw k e (({ k with uctxt := u } : Kernel).returnValue v) :=
  .same (.refl _) fun _ => ⟨Iff.rfl, rfl, rfl⟩

/-! ## Calls on the memory of the caller -/

/-- A call that changes the table, the break and the saved context of the caller. -/
theorem changesTable (h : FamilyInv k s f) (hmode : k.mode = .user) {m : Memory} {v : UserContext} {proc : Pcb}
    (hproc : ∃ pt brk uc, proc = { k.pcb k.current_process with
      region1_pt := pt, brk := brk, user_context := uc }) :
    FamilyInv { k with
      pcb := Function.update k.pcb k.current_process proc
      mem := m
      uctxt := v } s f := by
  obtain ⟨pt, brk, uc, rfl⟩ := hproc
  generalize hk : ({ k with
    pcb := Function.update k.pcb k.current_process { k.pcb k.current_process with
      region1_pt := pt, brk := brk, user_context := uc }
    mem := m
    uctxt := v } : Kernel) = k'
  have hpcb : ∀ p, (k'.pcb p).state = (k.pcb p).state ∧ (k'.pcb p).kernel_context = (k.pcb p).kernel_context ∧
      (k'.pcb p).parent = (k.pcb p).parent ∧
      (k'.pcb p).waiting_for_children = (k.pcb p).waiting_for_children := fun p => by
    rw [← hk]
    by_cases e : p = k.current_process
    · subst e
      simp
    · simp [e]
  have hc : Coherent k' s :=
    h.steady.coherent.congr (by rw [← hk]) (by rw [← hk]) fun p => (hpcb p).1
  have hsteady : Steady k' s := by
    refine .returns hmode hc (by rw [← hk]) (by rw [← hk]) (h.off hmode) fun p => ?_
    rw [(hpcb p).2.1]
    exact h.steady.plain p
  refine h.keeps hsteady (by rw [← hk]) (by rw [← hk]) (by rw [← hk]) (fun p => ?_) (fun p hz => ?_) (fun _ => ?_)
    fun l p hp => Or.inl hp
  · obtain ⟨-, -, hparent, hwaiting⟩ := hpcb p
    exact ⟨hparent, Or.inl hwaiting⟩
  · rwa [(hpcb p).1] at hz
  · rw [← hk]
    exact h.allocated_current hmode

theorem execStep (h : FamilyInv k s f) {req : LoadRequest} (hmode : k.mode = .user)
    (hstep : sysExec hw { k with uctxt := u } req = some k') :
    FamilyInv k' s f ∧ SpaceCase hw k (.kernel u (.exec req)) k' := by
  obtain ⟨rc, m, proc, hload⟩ := sysExec_loads hstep
  obtain rfl := Option.some.inj (hstep.symm.trans (sysExec_eq hload))
  exact ⟨h.changesTable hmode (loadProgram_frame hload), .loads hmode hload⟩

theorem brkStep (h : FamilyInv k s f) (hmode : k.mode = .user)
    (hstep : sysBrk hw { k with uctxt := u } = some k') :
    FamilyInv k' s f ∧ SpaceCase hw k (.kernel u .brk) k' := by
  by_cases href : Kernel.BrkRefused hw { k with uctxt := u }
  · obtain rfl := Option.some.inj (hstep.symm.trans (sysBrk_refused href))
    exact ⟨h.returns hmode _, sameReturns _ _ _⟩
  · by_cases hlt : Kernel.cbrk hw { k with uctxt := u } < Kernel.nbrk hw { k with uctxt := u }
    · rw [sysBrk_grows href hlt] at hstep
      obtain ⟨⟨ok, m, pt⟩, hgrow, hk'⟩ := Option.bind_eq_some_iff.1 hstep
      obtain rfl := Option.some.inj hk'
      exact ⟨h.changesTable hmode ⟨pt, _, _, rfl⟩, .grows hmode hgrow⟩
    · obtain rfl := Option.some.inj (hstep.symm.trans (sysBrk_kept href (Nat.le_of_not_lt hlt)))
      exact ⟨h.returns hmode _, sameReturns _ _ _⟩

/-! ## Every step -/

theorem forkStep (h : FamilyInv k s f) {child : PcbPtr}
    (hen : (trapMachine hw).enabled k (.kernel u (.fork child))) (hok : ForkUnlinked k (.kernel u (.fork child)))
    (hstep : (trapMachine hw).step k (.kernel u (.fork child)) = some k') :
    ∃ s' f', FamilyInv k' s' f' ∧ SpaceCase hw k (.kernel u (.fork child)) k' := by
  have hmode := hen.1
  have hfresh : k.allocated child = false := hen.2.2
  have hc : Coherent { k with uctxt := u } s := h.steady.coherent.congr rfl rfl fun _ => rfl
  obtain ⟨s', f', hcase, hsteady⟩ := h.cases hen trivial hok hstep
  have hinv := h.step hcase hsteady fun _ _ _ => hen.2.1
  refine ⟨s', f', hinv, ?_⟩
  cases sysFork_cases hc (h.steady.coherent.offQueues_iff.1 hok.1) (ne_of_free hfresh (h.allocated_current hmode))
    (ne_of_free hfresh h.idle) hstep with
  | child _ heq =>
    refine h.sameStep hcase hinv (fun _ _ _ => ?_) fun _ => by simp
    rw [heq]
    rfl
  | parent _ hmem _ heq =>
    subst heq
    exact .forks hmode hfresh ⟨hmem.run⟩

/-- Every step in which no fork gets an address that is linked keeps the families, and is one of the cases. -/
theorem spaceStep (h : FamilyInv k s f) (hen : (trapMachine hw).enabled k e) (hevent : SpaceEvent e)
    (hok : ForkUnlinked k e) (hstep : (trapMachine hw).step k e = some k') :
    ∃ s' f', FamilyInv k' s' f' ∧ SpaceCase hw k e k' := by
  have hplain : FamilyEvent e → Orderly k e → (∀ u child, e ≠ .kernel u (.fork child)) → (∀ u, e ≠ .kernel u .exit) →
      ∃ s' f', FamilyInv k' s' f' ∧ SpaceCase hw k e k' := by
    intro hfamily horderly hfork hexit
    obtain ⟨s', f', hcase, hsteady⟩ := h.cases hen hfamily horderly hstep
    have hinv := h.step hcase hsteady fun u c he => by
      subst he
      exact hen.2.1
    exact ⟨s', f', hinv, h.sameStep hcase hinv (fun u child he => absurd he (hfork u child)) hexit⟩
  cases e with
  | kernel u c =>
    cases c with
    | fork child => exact h.forkStep hen hok hstep
    | exit => exact h.exitStep hen hstep
    | wait => exact hplain trivial trivial (by simp) (by simp)
    | delay => exact hplain trivial trivial (by simp) (by simp)
    | exec req => exact ⟨s, f, h.execStep hen.1 hstep⟩
    | brk => exact ⟨s, f, h.brkStep hen.1 hstep⟩
    | getPid =>
      obtain rfl := Option.some.inj hstep
      exact ⟨s, f, h.returns hen.1 _, sameReturns _ _ _⟩
    | _ => exact hevent.elim
  | clock => exact hplain trivial trivial (by simp) (by simp)
  | schedule => exact hplain trivial trivial (by simp) (by simp)
  | resume => exact hplain trivial trivial (by simp) (by simp)

end FamilyInv

end Yalnix
