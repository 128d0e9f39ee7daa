import Yalnix.FamilyRun
import Yalnix.Proofs.ForkRun

/-!
# One step of a run of families

Every step, with the lists and the families that it leaves, and what every step keeps.
-/

namespace Yalnix

open Intrusive Transition

variable {hw : Hardware} {k k' k₁ : Kernel} {s s' : QueueId → List PcbPtr} {f f' : PcbPtr → List PcbPtr}
  {e : TrapEvent} {p : PcbPtr} {u : UserContext}

/-! ## Giving up children -/

/-- The caller has given up its children: the terminated ones are freed, the others are orphans. -/
structure GivesUp (k : Kernel) (f : PcbPtr → List PcbPtr) (k₁ : Kernel) : Prop where
  rep : k₁.family.Rep Set.univ (Function.update f k.current_process [])
  parent : ∀ p, (k₁.pcb p).parent =
    if p ∈ f k.current_process ∧ (k.pcb p).state ≠ .processZombie then none else (k.pcb p).parent
  allocated : ∀ p, k₁.allocated p = true ↔
    k.allocated p = true ∧ ¬ (p ∈ f k.current_process ∧ (k.pcb p).state = .processZombie)

theorem releaseProcess_givesUp (hf : k.family.Rep Set.univ f) (hself : k.current_process ∉ f k.current_process)
    {status : Int} (h : releaseProcess hw k k.current_process status = some k₁) : GivesUp k f k₁ := by
  unfold releaseProcess at h
  simp only [Option.bind_eq_bind, Option.bind_eq_some_iff, Option.pure_def, Option.some.injEq] at h
  obtain ⟨k₂, horphan, rfl⟩ := h
  generalize hk : (k.modifyPcb k.current_process fun pcb =>
    { pcb with exit_code := status, state := .processDefault }) = k₀ at horphan
  have hcurrent : k₀.current_process = k.current_process := by rw [← hk]; rfl
  have hpcb : ∀ p, p ≠ k.current_process → k₀.pcb p = k.pcb p := fun p hp => by
    rw [← hk]
    simp [Kernel.modifyPcb, hp]
  have hparent : ∀ p, (k₀.pcb p).parent = (k.pcb p).parent := fun p => by
    rw [← hk]
    by_cases e : p = k.current_process
    · subst e
      simp [Kernel.modifyPcb]
    · simp [Kernel.modifyPcb, e]
  have hstate : ∀ p ∈ f k.current_process, (k₀.pcb p).state = (k.pcb p).state := fun p hp => by
    rw [hpcb p fun e => hself (e ▸ hp)]
  have hf₀ : k₀.family.Rep Set.univ f := by rw [← hk]; exact hf
  obtain ⟨family, heq, hrep⟩ := orphanChildren_eq hf₀
  rw [hcurrent] at heq hrep
  obtain rfl := Option.some.inj (horphan.symm.trans heq)
  have halloc : k₀.allocated = k.allocated := by rw [← hk]; rfl
  refine ⟨hrep, fun p => ?_, fun p => ?_⟩
  · show (if p ∈ f k.current_process ∧ (k₀.pcb p).state ≠ _ then _ else k₀.pcb p : Pcb).parent = _
    by_cases hp : p ∈ f k.current_process
    · by_cases hz : (k.pcb p).state = .processZombie
      · simp [hstate p hp, hz, hparent p]
      · simp [hp, hstate p hp, hz]
    · simp [hp, hparent p]
  · show (k₀.allocated p && !decide (p ∈ f k.current_process ∧ (k₀.pcb p).state = _)) = true ↔ _
    rw [halloc]
    by_cases hp : p ∈ f k.current_process
    · simp [hp, hstate p hp]
    · simp [hp]

/-! ## The cases -/

/-- What a step can do, and the lists and families it leaves. -/
inductive FamilyCase (hw : Hardware) (k : Kernel) (s : QueueId → List PcbPtr) (f : PcbPtr → List PcbPtr) :
    TrapEvent → Kernel → (QueueId → List PcbPtr) → (PcbPtr → List PcbPtr) → Prop where
  | again {u : UserContext} {child : PcbPtr} (hmode : k.mode = .user) :
      FamilyCase hw k s f (.kernel u (.fork child))
        ((({ k with uctxt := u } : Kernel).modifyPcb k.current_process fun pcb =>
          { pcb with should_fork := true }).returnValue 0) s f
  | born {u : UserContext} {child : PcbPtr} {m : Memory} {pt stack : Nat → Pte}
      {family : Heap PcbPtr PcbPtr} {q : Heap QueueId PcbPtr} (hmode : k.mode = .user)
      (hfresh : k.allocated child = false) (hoff : ∀ l, child ∉ s l) (hno : ∀ p, child ∉ f p)
      (hrep : family.Rep Set.univ (Function.update f k.current_process (f k.current_process ++ [child]))) :
      FamilyCase hw k s f (.kernel u (.fork child))
        (forked hw { k with uctxt := u } child m pt stack family q)
        (Function.update s .ready (s .ready ++ [child]))
        (Function.update f k.current_process (f k.current_process ++ [child]))
  | quick {u : UserContext} (hmode : k.mode = .user) (v : Int) :
      FamilyCase hw k s f (.kernel u .delay) (({ k with uctxt := u } : Kernel).returnValue v) s f
  | delays {u : UserContext} {q : Heap QueueId PcbPtr} (hmode : k.mode = .user) :
      FamilyCase hw k s f (.kernel u .delay) (delaying { k with uctxt := u } q)
        (Function.update s .delay (s .delay ++ [k.current_process])) f
  | refused {u : UserContext} {kstatus_ptr : Int} (hmode : k.mode = .user)
      (hnone : f k.current_process = []) :
      FamilyCase hw k s f (.kernel u (.wait kstatus_ptr))
        (({ k with uctxt := u } : Kernel).returnValue ERROR) s f
  | waits {u : UserContext} {kstatus_ptr : Int} {q : Heap QueueId PcbPtr} (hmode : k.mode = .user)
      (hnidle : k.current_process ≠ k.idle_process) (hfresh : k.kstatusAllocated kstatus_ptr = false)
      (hsome : f k.current_process ≠ [])
      (hnone : ∀ c ∈ f k.current_process, (k.pcb c).state ≠ .processZombie) :
      FamilyCase hw k s f (.kernel u (.wait kstatus_ptr))
        (waitingForChild { k with uctxt := u } kstatus_ptr q)
        (Function.update s .blocked (s .blocked ++ [k.current_process])) f
  | reaps {u : UserContext} {kstatus_ptr : Int} {z : PcbPtr} {q : Heap QueueId PcbPtr}
      (hmode : k.mode = .user) (hz : z ∈ f k.current_process) (hzombie : z ∈ s .zombie) :
      FamilyCase hw k s f (.kernel u (.wait kstatus_ptr)) (reaped { k with uctxt := u } z q)
        (Function.update s .zombie ((s .zombie).erase z)) f
  | dies {u : UserContext} {k₁ : Kernel} {q : Heap QueueId PcbPtr} (hmode : k.mode = .user)
      (hrel : Released hw { k with uctxt := u } (u.regs 0) k₁) (hgives : GivesUp k f k₁)
      (hparent : ∀ parent, (k.pcb k.current_process).parent = some parent →
        (k.pcb parent).waiting_for_children = 0) :
      FamilyCase hw k s f (.kernel u .exit)
        (({ k₁.setState k.current_process .processZombie with queues := q } : Kernel).callSchedule
          .sysExit)
        (Function.update s .zombie (s .zombie ++ [k.current_process]))
        (Function.update f k.current_process [])
  | notifies {u : UserContext} {k₁ : Kernel} {q : Heap QueueId PcbPtr} {parent : PcbPtr}
      (hmode : k.mode = .user) (hrel : Released hw { k with uctxt := u } (u.regs 0) k₁)
      (hgives : GivesUp k f k₁) (hne : parent ≠ k.current_process)
      (hparent : (k.pcb k.current_process).parent = some parent)
      (hwaiting : (k.pcb parent).waiting_for_children ≠ 0) (hblocked : parent ∈ s .blocked) :
      FamilyCase hw k s f (.kernel u .exit)
        ((notified k₁ k.current_process parent (u.regs 0) .processReady q).callSchedule .sysExit)
        (Function.update (Function.update s .blocked ((s .blocked).erase parent)) .ready
          (s .ready ++ [parent]))
        (Function.update f k.current_process [])
  | clock {u : UserContext} {k' : Kernel} (hmode : k.mode = .user)
      (hcase : ClockCase { k with uctxt := u } s k') :
      FamilyCase hw k s f (.clock u) k' (tickedLists k s (s .delay) []) f
  | schedule {caller : ScheduleCaller} {next : PcbPtr} {q : Heap QueueId PcbPtr}
      {s' : QueueId → List PcbPtr} (hmode : k.mode = .atSchedule caller) (hnext : Next k s next s') :
      FamilyCase hw k s f .schedule (switched hw k caller next q) s' f
  | resume {k' : Kernel} (hmode : k.mode = .resumed) (hstep : Yalnix.resume k = some k')
      (heq : k' = { k with
        mem := { k.mem with ptbr1 := k'.mem.ptbr1 }
        uctxt := k'.uctxt
        kbufFreed := k'.kbufFreed
        userStores := k'.userStores
        kstatusAllocated := k'.kstatusAllocated
        mode := .user }) : FamilyCase hw k s f .resume k' s f

/-- Parents and children agree, nobody terminated has children, and who is on a list other than that of
the terminated processes is allocated. -/
structure FamilyInv (k : Kernel) (s : QueueId → List PcbPtr) (f : PcbPtr → List PcbPtr) : Prop where
  steady : Steady k s
  family : k.family.Rep Set.univ f
  idle : k.allocated k.idle_process = true
  idle_flag : (k.pcb k.idle_process).waiting_for_children = 0
  current : (∀ caller, k.mode ≠ .atSchedule caller) → k.allocated k.current_process = true
  listed : ∀ l p, l ≠ .zombie → p ∈ s l → k.allocated p = true
  noWaiter : ∀ w, s (.wait w) = []
  kin : ∀ c p, k.allocated c = true → ((k.pcb c).parent = some p ↔ c ∈ f p)
  living : ∀ p c, c ∈ f p → p ≠ c ∧ k.allocated p = true ∧ (k.pcb p).state ≠ .processZombie

namespace FamilyInv

theorem start (h₀ : FamilyStart k) : ∃ f, FamilyInv k k.queue f := by
  obtain ⟨f, hinv⟩ := ForkInv.start h₀.fork
  have hmem : ∀ p c, k.family.OnList p c ↔ c ∈ f p := fun p c => hinv.family.onList_iff (Set.mem_univ p)
  refine ⟨f, hinv.steady, hinv.family, hinv.idle, h₀.idle_flag, fun _ => hinv.current,
    fun l p _ hp => hinv.listed l p hp, h₀.noWaiter, fun c p hc => ?_, fun p c hc => ?_⟩
  · rw [← hmem]
    exact h₀.kin c p hc
  · obtain ⟨hne, hst⟩ := h₀.living p c ((hmem p c).2 hc)
    exact ⟨hne, (hinv.children p c hc).1, hst⟩

theorem children_eq (h : FamilyInv k s f) : k.children p = f p :=
  (congrFun h.family.eq_toList p).symm

/-- Whoever runs is on no list. -/
theorem off (h : FamilyInv k s f) (hmode : k.mode = .user) : ∀ l, k.current_process ∉ s l :=
  h.steady.off (Or.inl hmode)

theorem allocated_current (h : FamilyInv k s f) (hmode : k.mode = .user) :
    k.allocated k.current_process = true :=
  h.current fun caller hno => by rw [hmode] at hno; cases hno

theorem self_notMem (h : FamilyInv k s f) : p ∉ f p := fun hp => (h.living p p hp).1 rfl

/-- A blocked process waits for a child. -/
theorem mem_blocked (h : FamilyInv k s f) (hst : (k.pcb p).state = .processBlocked) : p ∈ s .blocked :=
  h.steady.coherent.mem_blocked h.noWaiter hst

/-! ## Every step is one of the cases -/

/-- The state of whoever runs says that it is on no list. -/
theorem state_current (h : FamilyInv k s f) (hmode : k.mode = .user) :
    (k.pcb k.current_process).state = .processDefault ∨ (k.pcb k.current_process).state = .processRunning :=
  h.steady.coherent.unlisted _ (h.off hmode)

theorem waitCase (h : FamilyInv k s f) {u : UserContext} {kstatus_ptr : Int}
    (hen : (trapMachine hw).enabled k (.kernel u (.wait kstatus_ptr)))
    (hstep : (trapMachine hw).step k (.kernel u (.wait kstatus_ptr)) = some k') :
    ∃ s' f', FamilyCase hw k s f (.kernel u (.wait kstatus_ptr)) k' s' f' ∧ Steady k' s' := by
  obtain ⟨hmode, hnidle, hfresh⟩ := hen
  have hoff := h.off hmode
  have hc : Coherent { k with uctxt := u } s := h.steady.coherent.congr rfl rfl fun _ => rfl
  have hfind : ∀ r, findZombieChild { k with uctxt := u } k.current_process = some r →
      (f k.current_process).find? (fun c => (k.pcb c).state = .processZombie) = r := by
    intro r hr
    exact Option.some.inj ((findZombieChild_eq (k := { k with uctxt := u }) h.family).symm.trans hr)
  have hempty : k.family.listIsEmpty k.current_process = true ↔ f k.current_process = [] :=
    h.family.listIsEmpty_iff (Set.mem_univ _)
  cases sysWait_cases hc hoff hnidle hstep with
  | childless he heq =>
    subst heq
    refine ⟨s, f, .refused hmode (hempty.1 he), ?_⟩
    exact .returns hmode (hc.congr rfl rfl fun _ => rfl) rfl rfl hoff h.steady.plain
  | @waits q he hnone heq hc' =>
    subst heq
    refine ⟨_, f, .waits hmode hnidle hfresh (fun hn => he (hempty.2 hn)) fun c hc => ?_, ?_⟩
    · simpa using List.find?_eq_none.1 (hfind none hnone) c hc
    · refine .calls hc' rfl (by simp) fun p => ?_
      by_cases e : p = k.current_process
      · subst e
        simpa [waitingForChild] using h.steady.plain k.current_process
      · simpa [waitingForChild, e] using h.steady.plain p
  | @reaps z q he hz hzombie heq hc' =>
    subst heq
    refine ⟨_, f, .reaps hmode (List.mem_of_find?_eq_some (hfind (some z) hz)) hzombie, ?_⟩
    refine .returns hmode hc' rfl rfl (fun l hl => ?_) fun p => ?_
    · rw [Function.update_apply] at hl
      split at hl
      · exact hoff _ (List.mem_of_mem_erase hl)
      · exact hoff _ hl
    · by_cases e : p = z
      · subst e
        simpa [reaped] using h.steady.plain p
      · simpa [reaped, e] using h.steady.plain p

/-- An exit changes no kernel context. -/
theorem released_plain (h : FamilyInv k s f)
    (hrel : Released hw { k with uctxt := u } (u.regs 0) k₁) : (k₁.pcb p).kernel_context.Plain p := by
  rw [hrel.context p]
  exact h.steady.plain p

/-- The parent of whoever runs is another process, and on the blocked queue if it is blocked for a child. -/
theorem parent_blocked (h : FamilyInv k s f) (hmode : k.mode = .user) {parent : PcbPtr}
    (hpar : (k.pcb k.current_process).parent = some parent) :
    parent ≠ k.current_process ∧ ((k.pcb parent).waiting_for_children ≠ 0 →
      parent ≠ k.idle_process ∧ ((k.pcb parent).state = .processBlocked → parent ∈ s .blocked)) := by
  have hchild := (h.kin _ parent (h.allocated_current hmode)).1 hpar
  refine ⟨(h.living parent _ hchild).1, fun hwait => ⟨fun e => ?_, h.mem_blocked⟩⟩
  rw [e, h.idle_flag] at hwait
  exact hwait rfl

/-- What an exit has given up, and where it leaves the caller and its parent. -/
theorem exitParts (h : FamilyInv k s f) (hen : (trapMachine hw).enabled k (.kernel u .exit))
    (hstep : (trapMachine hw).step k (.kernel u .exit) = some k') :
    ∃ k₁, Released hw { k with uctxt := u } (u.regs 0) k₁ ∧ GivesUp k f k₁ ∧
      (k₁.pcb k.current_process).parent = (k.pcb k.current_process).parent ∧
      ExitCase { k with uctxt := u } k₁ s k' := by
  obtain ⟨hmode, hnidle, -⟩ := hen
  have hc : Coherent { k with uctxt := u } s := h.steady.coherent.congr rfl rfl fun _ => rfl
  obtain ⟨k₁, hrun, hcase⟩ := sysExit_cases hc (h.off hmode) hnidle (fun _ => h.parent_blocked hmode) hstep
  have hgives : GivesUp k f k₁ := by
    have hg := releaseProcess_givesUp (k := { k with uctxt := u }) h.family h.self_notMem hrun
    exact ⟨hg.rep, hg.parent, hg.allocated⟩
  refine ⟨k₁, releaseProcess_released hrun, hgives, ?_, hcase⟩
  -- the caller is not its own child, so it keeps its parent
  rw [hgives.parent, if_neg fun hn => h.self_notMem hn.1]

/-- It changes no kernel context, and calls `schedule`. -/
theorem exit_steady (h : FamilyInv k s f) (hrel : Released hw { k with uctxt := u } (u.regs 0) k₁)
    (hcase : ExitCase { k with uctxt := u } k₁ s k') (hc : Coherent k' s') : Steady k' s' := by
  have hmode : k'.mode = .atSchedule .sysExit := by
    cases hcase with
    | zombie _ heq => rw [heq]; rfl
    | notifies _ _ _ heq => rw [heq]; rfl
  refine .calls hc hmode (by simp) fun p => ?_
  have hplain := h.released_plain (p := p) hrel
  cases hcase with
  | zombie _ heq =>
    subst heq
    by_cases e : p = k.current_process
    · subst e
      simpa [Kernel.callSchedule, Kernel.setState, Kernel.modifyPcb] using hplain
    · simpa [Kernel.callSchedule, Kernel.setState, Kernel.modifyPcb, e] using hplain
  | @notifies q parent st s' _ _ _ heq =>
    subst heq
    by_cases e : p = parent
    · subst e
      simpa [Kernel.callSchedule, notified] using hplain
    · simpa [Kernel.callSchedule, notified, e] using hplain

theorem exitCase (h : FamilyInv k s f) (hen : (trapMachine hw).enabled k (.kernel u .exit))
    (hok : Orderly k (.kernel u .exit)) (hstep : (trapMachine hw).step k (.kernel u .exit) = some k') :
    ∃ s' f', FamilyCase hw k s f (.kernel u .exit) k' s' f' ∧ Steady k' s' := by
  have hmode := hen.1
  obtain ⟨k₁, hrel, hgives, hcaller, hcase⟩ := h.exitParts hen hstep
  cases hcase with
  | @zombie q hpar heq hc' =>
    have hsteady := h.exit_steady hrel (.zombie hpar heq hc') hc'
    subst heq
    refine ⟨_, _, .dies hmode hrel hgives fun parent hp => ?_, hsteady⟩
    exact (hrel.waiting parent).symm.trans (hpar parent (hcaller.trans hp))
  | @notifies q parent st s' hpar hwait hcase heq hc' =>
    have hsteady := h.exit_steady hrel (.notifies hpar hwait hcase heq hc') hc'
    have hwait : (k.pcb parent).waiting_for_children ≠ 0 := fun e => hwait ((hrel.waiting parent).trans e)
    have hpar := hcaller.symm.trans hpar
    have hne := (h.parent_blocked hmode hpar).1
    have hblocked := h.mem_blocked (hok parent hpar hwait)
    have hst : (k₁.pcb parent).state = .processBlocked :=
      (hrel.state hne).trans (h.steady.coherent.listed _ _ hblocked)
    cases hcase with
    | waits =>
      subst heq
      exact ⟨_, _, .notifies hmode hrel hgives hne hpar hwait hblocked, hsteady⟩
    | nowhere hd =>
      rw [hst] at hd
      cases hd
    | elsewhere _ hb => exact absurd hst hb

/-- Every orderly step is one of the cases. -/
theorem cases (h : FamilyInv k s f) (hen : (trapMachine hw).enabled k e) (hevent : FamilyEvent e)
    (hok : Orderly k e) (hstep : (trapMachine hw).step k e = some k') :
    ∃ s' f', FamilyCase hw k s f e k' s' f' ∧ Steady k' s' := by
  cases e with
  | kernel u c =>
    have hmode := hen.1
    have hoff := h.off hmode
    have hc : Coherent { k with uctxt := u } s := h.steady.coherent.congr rfl rfl fun _ => rfl
    cases c with
    | fork child =>
      have hchild := h.steady.coherent.offQueues_iff.1 hok.1
      have hno : ∀ p, child ∉ f p := fun p hp => hok.2 p ((h.family.onList_iff (Set.mem_univ p)).2 hp)
      have hne := ne_of_free hen.2.2 (h.allocated_current hmode)
      cases sysFork_cases hc hchild hne (ne_of_free hen.2.2 h.idle) hstep with
      | child hflag heq =>
        subst heq
        refine ⟨s, f, .again hmode, .returns hmode ?_ rfl rfl hoff fun p => ?_⟩
        · exact (hc.modifyPcb (fun pcb => { pcb with should_fork := true }) rfl).congr rfl rfl fun _ => rfl
        · by_cases e : p = k.current_process
          · subst e
            simpa [Kernel.returnValue, Kernel.modifyPcb] using h.steady.plain k.current_process
          · simpa [Kernel.returnValue, Kernel.modifyPcb, e] using h.steady.plain p
      | @parent m pt stack family q hflag hmem hins heq hc' =>
        subst heq
        have hnil : f child = [] := List.eq_nil_iff_forall_not_mem.2 fun c hc => by
          have hlive := (h.living child c hc).2.1
          rw [hen.2.2] at hlive
          cases hlive
        obtain ⟨family', hins', hrep⟩ :=
          (h.family.listInit hnil).insertTail (Set.mem_univ k.current_process) hno
        obtain rfl := Option.some.inj (hins.symm.trans hins')
        refine ⟨_, _, .born hmode hen.2.2 hchild hno hrep, .returns hmode hc' rfl rfl ?_ fun p => ?_⟩
        · intro l hl
          rcases mem_update_append.1 hl with hl | ⟨-, e⟩
          · exact hoff l hl
          · exact hne e.symm
        · by_cases e : p = child
          · subst e
            simp [forked, KernelContext.Plain]
          · simpa [forked, e] using h.steady.plain p
    | wait kstatus_ptr => exact h.waitCase hen hstep
    | exit => exact h.exitCase hen hok hstep
    | delay =>
      rcases sysDelay_cases hc hoff hen.2.1 hstep with ⟨-, v, rfl⟩ | ⟨-, q, rfl, hc'⟩
      · exact ⟨s, f, .quick hmode v, .returns hmode (hc.congr rfl rfl fun _ => rfl) rfl rfl hoff h.steady.plain⟩
      · refine ⟨_, f, .delays hmode, .calls hc' rfl (by simp) fun p => ?_⟩
        by_cases e : p = k.current_process
        · subst e
          simpa [delaying] using h.steady.plain k.current_process
        · simpa [delaying, e] using h.steady.plain p
    | _ => exact hevent.elim
  | clock u => exact ⟨_, f, .clock hen (h.steady.clockCase hen hstep), h.steady.clock hen hstep⟩
  | schedule =>
    obtain ⟨caller, next, q, s', hmode, rfl, hnext, hsteady⟩ := h.steady.schedule hstep
    exact ⟨s', f, .schedule hmode hnext, hsteady⟩
  | resume =>
    obtain ⟨heq, hsteady⟩ := h.steady.resume hen hstep
    exact ⟨s, f, .resume hen hstep heq, hsteady⟩

/-! ## What every step keeps -/

/-- A step that leaves families and addresses alone, and lists nobody new but the caller. -/
theorem keeps (h : FamilyInv k s f) (hsteady : Steady k' s') (hfamily : k'.family = k.family)
    (halloc : k'.allocated = k.allocated) (hidle : k'.idle_process = k.idle_process)
    (hkin : ∀ p, (k'.pcb p).parent = (k.pcb p).parent ∧
      ((k'.pcb p).waiting_for_children = (k.pcb p).waiting_for_children ∨ p ≠ k.idle_process))
    (hzombie : ∀ p, (k'.pcb p).state = .processZombie → (k.pcb p).state = .processZombie)
    (hcurrent : (∀ caller, k'.mode ≠ .atSchedule caller) → k.allocated k'.current_process = true)
    (hlisted : ∀ l p, p ∈ s' l → p ∈ s l ∨ (∀ w, l ≠ .wait w) ∧ k.allocated p = true) :
    FamilyInv k' s' f where
  steady := hsteady
  family := hfamily ▸ h.family
  idle := by rw [halloc, hidle]; exact h.idle
  idle_flag := by
    rw [hidle]
    rcases (hkin k.idle_process).2 with hflag | hne
    · rw [hflag]
      exact h.idle_flag
    · exact absurd rfl hne
  current hmode := by rw [halloc]; exact hcurrent hmode
  listed l p hl hp := by
    rw [halloc]
    rcases hlisted l p hp with hp | ⟨-, ha⟩
    · exact h.listed l p hl hp
    · exact ha
  noWaiter w := by
    refine List.eq_nil_iff_forall_not_mem.2 fun p hp => ?_
    rcases hlisted _ p hp with hp | ⟨hl, -⟩
    · simp [h.noWaiter w] at hp
    · exact hl w rfl
  kin c p hc := by
    rw [halloc] at hc
    rw [(hkin c).1]
    exact h.kin c p hc
  living p c hc := by
    obtain ⟨hne, ha, hst⟩ := h.living p c hc
    exact ⟨hne, halloc ▸ ha, fun hz => hst (hzombie p hz)⟩

theorem born (h : FamilyInv k s f) {u : UserContext} {child : PcbPtr} {m : Memory} {pt stack : Nat → Pte}
    {family : Heap PcbPtr PcbPtr} {q : Heap QueueId PcbPtr} (hmode : k.mode = .user)
    (hfresh : k.allocated child = false) (hno : ∀ p, child ∉ f p)
    (hrep : family.Rep Set.univ (Function.update f k.current_process (f k.current_process ++ [child])))
    (heq : k' = forked hw { k with uctxt := u } child m pt stack family q)
    (hsteady : Steady k' (Function.update s .ready (s .ready ++ [child]))) :
    FamilyInv k' (Function.update s .ready (s .ready ++ [child]))
      (Function.update f k.current_process (f k.current_process ++ [child])) := by
  have hpcb : ∀ p, p ≠ child → k'.pcb p = k.pcb p := fun p hp => by rw [heq]; simp [forked, hp]
  have halloc : k'.allocated = Function.update k.allocated child true := by rw [heq]; rfl
  have hstill : ∀ p, k.allocated p = true → k'.allocated p = true := fun p hp => by
    rw [halloc, Function.update_of_ne (ne_of_free hfresh hp).symm]
    exact hp
  have hnew : k'.allocated child = true := by rw [halloc, Function.update_self]
  have hcurrent := h.allocated_current hmode
  have hidle : k'.idle_process = k.idle_process := by rw [heq]; rfl
  refine ⟨hsteady, by rw [heq]; exact hrep, ?_, ?_, fun _ => ?_, fun l p hl hp => ?_, fun w => ?_,
    fun c p hc => ?_, fun p c hc => ?_⟩
  · rw [hidle]
    exact hstill _ h.idle
  · rw [hidle, hpcb _ (ne_of_free hfresh h.idle).symm]
    exact h.idle_flag
  · have hsame : k'.current_process = k.current_process := by rw [heq]; rfl
    rw [hsame]
    exact hstill _ hcurrent
  · rcases mem_update_append.1 hp with hp | ⟨-, rfl⟩
    · exact hstill p (h.listed l p hl hp)
    · exact hnew
  · simp [h.noWaiter w]
  · rw [mem_update_append]
    by_cases e : c = child
    · subst e
      have hparent : (k'.pcb c).parent = some k.current_process := by rw [heq]; simp [forked]
      rw [hparent]
      constructor
      · intro hp
        exact Or.inr ⟨(Option.some.inj hp).symm, rfl⟩
      · rintro (hp | ⟨rfl, -⟩)
        · exact absurd hp (hno p)
        · rfl
    · rw [halloc, Function.update_of_ne e] at hc
      rw [hpcb c e, h.kin c p hc]
      exact ⟨Or.inl, fun hp => hp.resolve_right fun hn => e hn.2⟩
  · rcases mem_update_append.1 hc with hc | ⟨rfl, rfl⟩
    · obtain ⟨hne, ha, hst⟩ := h.living p c hc
      rw [hpcb p (ne_of_free hfresh ha).symm]
      exact ⟨hne, hstill p ha, hst⟩
    · have hne := ne_of_free hfresh hcurrent
      rw [hpcb _ hne.symm]
      refine ⟨hne.symm, hstill _ hcurrent, fun hz => ?_⟩
      rcases h.state_current hmode with hd | hr
      · rw [hd] at hz
        cases hz
      · rw [hr] at hz
        cases hz

theorem reaps (h : FamilyInv k s f) {u : UserContext} {z : PcbPtr} {q : Heap QueueId PcbPtr}
    (hmode : k.mode = .user) (hzombie : z ∈ s .zombie) (heq : k' = reaped { k with uctxt := u } z q)
    (hsteady : Steady k' (Function.update s .zombie ((s .zombie).erase z))) :
    FamilyInv k' (Function.update s .zombie ((s .zombie).erase z)) f := by
  have hc := h.steady.coherent
  have hst : (k.pcb z).state = .processZombie := hc.listed _ _ hzombie
  have halloc : k'.allocated = Function.update k.allocated z false := by rw [heq]; rfl
  have hstill : ∀ p, p ≠ z → k.allocated p = true → k'.allocated p = true := fun p hp ha => by
    rw [halloc, Function.update_of_ne hp]
    exact ha
  have hidle : k'.idle_process = k.idle_process := by rw [heq]; rfl
  have hpcb : ∀ p, (k'.pcb p).parent = (k.pcb p).parent ∧
      (k'.pcb p).waiting_for_children = (k.pcb p).waiting_for_children := fun p => by
    rw [heq]
    by_cases e : p = z
    · subst e
      simp [reaped]
    · simp [reaped, e]
  have hnidle : k.idle_process ≠ z := fun e => hc.idle _ (e ▸ hzombie)
  have hne : k.current_process ≠ z := fun e => h.off hmode _ (e ▸ hzombie)
  refine ⟨hsteady, by rw [heq]; exact h.family, ?_, ?_, fun _ => ?_, fun l p hl hp => ?_, fun w => ?_,
    fun c p hc => ?_, fun p c hc => ?_⟩
  · rw [hidle]
    exact hstill _ hnidle h.idle
  · rw [hidle, (hpcb _).2]
    exact h.idle_flag
  · have hsame : k'.current_process = k.current_process := by rw [heq]; rfl
    rw [hsame]
    exact hstill _ hne (h.allocated_current hmode)
  · rw [Function.update_of_ne hl] at hp
    exact hstill p (fun e => hl (hc.unique hp (e ▸ hzombie))) (h.listed l p hl hp)
  · simp [h.noWaiter w]
  · rw [(hpcb c).1]
    refine h.kin c p ?_
    rw [halloc, Function.update_apply] at hc
    split at hc
    · cases hc
    · exact hc
  · obtain ⟨hpc, ha, hp⟩ := h.living p c hc
    have hpz : p ≠ z := fun e => hp (e ▸ hst)
    refine ⟨hpc, hstill p hpz ha, ?_⟩
    rw [heq]
    simpa [reaped, hpz] using hp

/-- After an exit: `k'` is `k₁` but for queues, states and contexts, and the caller may be freed. -/
theorem exits (h : FamilyInv k s f) {u : UserContext}
    (hrel : Released hw { k with uctxt := u } (u.regs 0) k₁) (hgives : GivesUp k f k₁)
    (hsteady : Steady k' s') (hmode' : k'.mode = .atSchedule .sysExit) (hfamily : k'.family = k₁.family)
    (hidle : k'.idle_process = k.idle_process) (hnidle : k.current_process ≠ k.idle_process)
    (halloc : ∀ p, p ≠ k.current_process → k'.allocated p = k₁.allocated p)
    (hgone : k'.allocated k.current_process = true → k₁.allocated k.current_process = true)
    (hkin : ∀ p, (k'.pcb p).parent = (k₁.pcb p).parent ∧
      (k'.pcb p).waiting_for_children = (k₁.pcb p).waiting_for_children)
    (hzombie : ∀ p, p ≠ k.current_process → (k'.pcb p).state = .processZombie →
      (k.pcb p).state = .processZombie)
    (hlisted : ∀ l p, l ≠ .zombie → p ∈ s' l → p ≠ k.current_process ∧ k.allocated p = true ∧
      (k.pcb p).state ≠ .processZombie)
    (hwait : ∀ w, s' (.wait w) = s (.wait w)) :
    FamilyInv k' s' (Function.update f k.current_process []) := by
  have hkeep : ∀ p, p ≠ k.current_process → k.allocated p = true → (k.pcb p).state ≠ .processZombie →
      k'.allocated p = true := fun p hp ha hst => by
    rw [halloc p hp]
    exact (hgives.allocated p).2 ⟨ha, fun hn => hst hn.2⟩
  have hwas : ∀ p, k'.allocated p = true →
      k.allocated p = true ∧ ¬ (p ∈ f k.current_process ∧ (k.pcb p).state = .processZombie) := by
    intro p hp
    refine (hgives.allocated p).1 ?_
    by_cases e : p = k.current_process
    · rw [e] at hp ⊢
      exact hgone hp
    · rwa [halloc p e] at hp
  refine ⟨hsteady, by rw [hfamily]; exact hgives.rep, ?_, ?_, fun hno => ?_, fun l p hl hp => ?_,
    fun w => ?_, fun c p hc => ?_, fun p c hc => ?_⟩
  · have hst : (k.pcb k.idle_process).state ≠ .processZombie := fun hz =>
      h.steady.coherent.idle _ (h.steady.coherent.mem_of_state (Or.inr (Or.inr rfl)) hz)
    rw [hidle]
    exact hkeep _ hnidle.symm h.idle hst
  · rw [hidle, (hkin _).2, hrel.waiting]
    exact h.idle_flag
  · exact absurd hmode' (hno _)
  · obtain ⟨hne, ha, hst⟩ := hlisted l p hl hp
    exact hkeep p hne ha hst
  · rw [hwait, h.noWaiter w]
  · obtain ⟨ha, hfreed⟩ := hwas c hc
    rw [(hkin c).1, hgives.parent, Function.update_apply]
    by_cases hchild : c ∈ f k.current_process
    · have hst : (k.pcb c).state ≠ .processZombie := fun hz => hfreed ⟨hchild, hz⟩
      rw [if_pos ⟨hchild, hst⟩]
      split
      · simp
      · rename_i hne
        refine iff_of_false (by simp) fun hp => hne ?_
        have hp := (h.kin c p ha).2 hp
        rw [(h.kin c _ ha).2 hchild] at hp
        exact (Option.some.inj hp).symm
    · rw [if_neg fun hn => hchild hn.1, h.kin c p ha]
      split
      · rename_i e
        subst e
        exact iff_of_false hchild (by simp)
      · exact Iff.rfl
  · rw [Function.update_apply] at hc
    split at hc
    · cases hc
    · rename_i hne
      obtain ⟨hpc, ha, hst⟩ := h.living p c hc
      exact ⟨hpc, hkeep p hne ha hst, fun hz => hst (hzombie p hne hz)⟩

/-- Wherever the parent is that an exit notifies. -/
theorem notifies (h : FamilyInv k s f) (hmode : k.mode = .user) (hnidle : k.current_process ≠ k.idle_process)
    (hrel : Released hw { k with uctxt := u } (u.regs 0) k₁) (hgives : GivesUp k f k₁) {parent : PcbPtr}
    {st : ProcessState} {q : Heap QueueId PcbPtr} (hparent : (k.pcb k.current_process).parent = some parent)
    (hcase : NotifyCase k₁ s parent st s')
    (heq : k' = (notified k₁ k.current_process parent (u.regs 0) st q).callSchedule .sysExit)
    (hsteady : Steady k' s') : FamilyInv k' s' (Function.update f k.current_process []) := by
  have hc := h.steady.coherent
  obtain ⟨hne, hlive, hst⟩ := h.living parent _ ((h.kin _ parent (h.allocated_current hmode)).1 hparent)
  have hwas : (k₁.pcb parent).state = (k.pcb parent).state := hrel.state hne
  have hold : ∀ l p, l ≠ .zombie → p ∈ s l →
      p ≠ k.current_process ∧ k.allocated p = true ∧ (k.pcb p).state ≠ .processZombie := fun l p hl hp => by
    refine ⟨fun e => h.off hmode l (e ▸ hp), h.listed l p hl hp, fun hz => hl ?_⟩
    exact hc.unique hp (hc.mem_of_state (Or.inr (Or.inr rfl)) hz)
  subst heq
  refine h.exits hrel hgives hsteady rfl rfl (by rw [hrel.frame]; rfl) hnidle (fun p hp => ?_) (fun ha => ?_)
    (fun p => ?_) (fun p hp hz => ?_) (fun l p hl hp => ?_) fun w => ?_
  · simp [Kernel.callSchedule, notified, hp]
  · simp [Kernel.callSchedule, notified] at ha
  · by_cases e : p = parent
    · subst e
      simp [Kernel.callSchedule, notified]
    · simp [Kernel.callSchedule, notified, e]
  · by_cases e : p = parent
    · subst e
      simp only [Kernel.callSchedule, notified, Function.update_self] at hz
      cases hcase with
      | waits => cases hz
      | nowhere => cases hz
      | elsewhere => exact hwas.symm.trans hz
    · have hst := hrel.state hp
      simp only [Kernel.callSchedule, notified, Function.update_of_ne e] at hz
      exact hst.symm.trans hz
  · cases hcase with
    | waits =>
      rcases mem_update_append.1 hp with hp | ⟨-, rfl⟩
      · rw [Function.update_apply] at hp
        split at hp
        · exact hold .blocked p (by simp) (List.mem_of_mem_erase hp)
        · exact hold l p hl hp
      · exact ⟨hne, hlive, hst⟩
    | nowhere =>
      rcases mem_update_append.1 hp with hp | ⟨-, rfl⟩
      · exact hold l p hl hp
      · exact ⟨hne, hlive, hst⟩
    | elsewhere => exact hold l p hl hp
  · cases hcase <;> simp

/-- A step of the cases keeps the invariant. -/
theorem step (h : FamilyInv k s f) (hcase : FamilyCase hw k s f e k' s' f') (hsteady : Steady k' s')
    (hnidle : ∀ u c, e = .kernel u c → k.current_process ≠ k.idle_process) : FamilyInv k' s' f' := by
  have hc := h.steady.coherent
  cases hcase with
  | again hmode =>
    refine h.keeps hsteady rfl rfl rfl (fun p => ?_) (fun p hz => ?_) (fun _ => h.allocated_current hmode)
      fun l p hp => Or.inl hp
    · by_cases e : p = k.current_process
      · subst e
        simp [Kernel.returnValue, Kernel.modifyPcb]
      · simp [Kernel.returnValue, Kernel.modifyPcb, e]
    · by_cases e : p = k.current_process
      · subst e
        simpa [Kernel.returnValue, Kernel.modifyPcb] using hz
      · simpa [Kernel.returnValue, Kernel.modifyPcb, e] using hz
  | born hmode hfresh hoff hno hrep => exact h.born hmode hfresh hno hrep rfl hsteady
  | quick hmode v =>
    exact h.keeps hsteady rfl rfl rfl (fun p => ⟨rfl, Or.inl rfl⟩) (fun p => id)
      (fun _ => h.allocated_current hmode) fun l p hp => Or.inl hp
  | refused hmode hnone =>
    exact h.keeps hsteady rfl rfl rfl (fun p => ⟨rfl, Or.inl rfl⟩) (fun p => id)
      (fun _ => h.allocated_current hmode) fun l p hp => Or.inl hp
  | delays hmode =>
    refine h.keeps hsteady rfl rfl rfl (fun p => ?_) (fun p hz => ?_) (fun _ => h.allocated_current hmode)
      fun l p hp => ?_
    · by_cases e : p = k.current_process
      · subst e
        simp [delaying]
      · simp [delaying, e]
    · by_cases e : p = k.current_process
      · subst e
        simp [delaying] at hz
      · simpa [delaying, e] using hz
    · rcases mem_update_append.1 hp with hp | ⟨rfl, rfl⟩
      · exact Or.inl hp
      · exact Or.inr ⟨by simp, h.allocated_current hmode⟩
  | waits hmode =>
    have hcaller := hnidle _ _ rfl
    refine h.keeps hsteady rfl rfl rfl (fun p => ?_) (fun p hz => ?_) (fun _ => h.allocated_current hmode)
      fun l p hp => ?_
    · by_cases e : p = k.current_process
      · subst e
        exact ⟨by simp [waitingForChild], Or.inr hcaller⟩
      · simp [waitingForChild, e]
    · by_cases e : p = k.current_process
      · subst e
        simp [waitingForChild] at hz
      · simpa [waitingForChild, e] using hz
    · rcases mem_update_append.1 hp with hp | ⟨rfl, rfl⟩
      · exact Or.inl hp
      · exact Or.inr ⟨by simp, h.allocated_current hmode⟩
  | reaps hmode hz hzombie => exact h.reaps hmode hzombie rfl hsteady
  | dies hmode hrel hgives hparent =>
    refine h.exits hrel hgives hsteady rfl rfl (by rw [hrel.frame]; rfl) (hnidle _ _ rfl)
      (fun p _ => rfl) id (fun p => ?_) (fun p hne hz => ?_) (fun l p hl hp => ?_) fun w => by simp
    · by_cases e : p = k.current_process
      · subst e
        simp [Kernel.callSchedule, Kernel.setState, Kernel.modifyPcb]
      · simp [Kernel.callSchedule, Kernel.setState, Kernel.modifyPcb, e]
    · have hst := hrel.state hne
      simp only [Kernel.callSchedule, Kernel.setState, Kernel.modifyPcb, Function.update_of_ne hne] at hz
      exact hst.symm.trans hz
    · rw [Function.update_of_ne hl] at hp
      refine ⟨fun e => h.off hmode l (e ▸ hp), h.listed l p hl hp, fun hz => hl ?_⟩
      exact hc.unique hp (hc.mem_of_state (Or.inr (Or.inr rfl)) hz)
  | notifies hmode hrel hgives _ hparent _ hblocked =>
    exact h.notifies hmode (hnidle _ _ rfl) hrel hgives hparent (.waits hblocked) rfl hsteady
  | clock hmode hcase =>
    have hframe := hcase.frame
    refine h.keeps hsteady (by rw [hframe]) (by rw [hframe]) (by rw [hframe]) (fun p => ?_) (fun p hz => ?_)
      (fun _ => ?_) fun l p hp => ?_
    · obtain ⟨ticks, st, time, hpcb⟩ := hcase.pcb p
      rw [hpcb]
      exact ⟨rfl, Or.inl rfl⟩
    · have hz := hsteady.coherent.mem_of_state (Or.inr (Or.inr rfl)) hz
      simp only [tickedLists] at hz
      exact hc.listed .zombie p (by simpa using hz)
    · rw [hframe]
      exact h.allocated_current hmode
    · cases l with
      | ready =>
        simp only [tickedLists, Function.update_self, List.mem_append] at hp
        refine hp.imp id fun hp => ⟨by simp, h.listed .delay p (by simp) (List.mem_of_mem_filter hp)⟩
      | delay =>
        simp only [tickedLists, ne_eq, reduceCtorEq, not_false_eq_true, Function.update_of_ne,
          Function.update_self, List.append_nil] at hp
        exact Or.inl (List.mem_of_mem_filter hp)
      | _ => exact Or.inl (by simpa [tickedLists] using hp)
  | @schedule caller next q s' hmode hnext =>
    refine h.keeps hsteady rfl rfl rfl (fun p => ⟨rfl, Or.inl rfl⟩) (fun p hz => ?_) (fun _ => ?_)
      fun l p hp => Or.inl (hnext.subset hp)
    · have hz : (if p = next then ProcessState.processRunning else (k.pcb p).state) = _ := hz
      split at hz
      · cases hz
      · exact hz
    · rcases hnext.origin with rfl | hready
      · exact h.idle
      · exact h.listed .ready _ (by simp) hready
  | resume hmode hstep heq =>
    refine h.keeps hsteady (by rw [heq]) (by rw [heq]) (by rw [heq]) (fun p => ?_) (fun p hz => ?_)
      (fun _ => ?_) fun l p hp => Or.inl hp
    · rw [heq]
      exact ⟨rfl, Or.inl rfl⟩
    · rw [heq] at hz
      exact hz
    · rw [heq]
      exact h.current fun caller hno => by rw [hmode] at hno; cases hno

end FamilyInv

end Yalnix
