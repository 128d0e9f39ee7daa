import Yalnix.ReapRun
import Yalnix.Proofs.FamilyRun

/-!
# Cells and accounts

Who is in `SysWait` has a cell of its own for the status, and finds its address in the saved `regs[0]`
until a child has exited. What the account of a process says can be read off the list of its children.
-/

namespace Yalnix

open Intrusive Transition

variable {hw : Hardware} {k k' k₁ : Kernel} {s s' : QueueId → List PcbPtr} {f f' : PcbPtr → List PcbPtr}
  {e : TrapEvent} {p : PcbPtr}

/-- Contexts, pid and `waiting_for_children` of `b` are those of `a`. -/
structure Pcb.Kept (a b : Pcb) : Prop where
  saved : b.user_context = a.user_context
  context : b.kernel_context = a.kernel_context
  pid : b.pid = a.pid
  flag : b.waiting_for_children = a.waiting_for_children

theorem Pcb.Kept.of_eq {a b : Pcb} (h : b = a) : a.Kept b := by
  subst h
  exact ⟨rfl, rfl, rfl, rfl⟩

theorem Pcb.Kept.trans {a b c : Pcb} (h : a.Kept b) (h' : b.Kept c) : a.Kept c :=
  ⟨h'.saved.trans h.saved, h'.context.trans h.context, h'.pid.trans h.pid, h'.flag.trans h.flag⟩

/-- A change of one PCB. -/
theorem kept_of_others {q : PcbPtr} (hne : ∀ n, n ≠ q → k'.pcb n = k.pcb n) (hq : (k.pcb q).Kept (k'.pcb q))
    (n : PcbPtr) : (k.pcb n).Kept (k'.pcb n) := by
  by_cases e : n = q
  · exact e ▸ hq
  · exact .of_eq (hne n e)

theorem Released.kept {status : Int} (h : Released hw k status k₁) (p : PcbPtr) :
    (k.pcb p).Kept (k₁.pcb p) := by
  by_cases e : p = k.current_process
  · obtain ⟨parent, -, hpcb⟩ := h.current
    rw [e, hpcb]
    exact ⟨rfl, rfl, rfl, rfl⟩
  · rcases h.other p e with hpcb | hpcb
    · exact .of_eq hpcb
    · rw [hpcb]
      exact ⟨rfl, rfl, rfl, rfl⟩

/-- Back from `SysWait`. -/
theorem resume_wait {status_ptr kstatus_ptr : Int}
    (hcontext : (k.pcb k.current_process).kernel_context = .schedule (.sysWait status_ptr kstatus_ptr))
    (h : resume k = some k') : status_ptr ≠ 0 ∧ k' = { k with
      userStores := k.userStores ++ [.word k.current_process status_ptr (k.kstatus kstatus_ptr)]
      kstatusAllocated := Function.update k.kstatusAllocated kstatus_ptr false
      mode := .user } := by
  simp only [resume, hcontext, afterSchedule, Option.bind_eq_bind, Option.bind_eq_some_iff,
    Option.pure_def, Option.some.injEq] at h
  obtain ⟨k₁, hafter, rfl⟩ := h
  split at hafter
  · cases hafter
  · rename_i hnull
    obtain rfl := Option.some.inj hafter
    exact ⟨fun e => hnull (Or.inl e), rfl⟩

/-- Back from another call, or new. -/
theorem resume_other (hcontext : ∀ kstatus_ptr, ¬ ∃ status_ptr,
      (k.pcb k.current_process).kernel_context = .schedule (.sysWait status_ptr kstatus_ptr))
    (hplain : (k.pcb k.current_process).kernel_context.Plain k.current_process)
    (hrunning : (k.pcb k.current_process).state = .processRunning) (h : resume k = some k') :
    k'.kstatusAllocated = k.kstatusAllocated := by
  unfold resume at h
  cases hctx : (k.pcb k.current_process).kernel_context with
  | uninitialized => simp [hctx] at h
  | kernelStart =>
    simp only [hctx, Option.bind_eq_bind, Option.bind_some, Option.pure_def, Option.some.injEq] at h
    rw [← h]
    rfl
  | sysFork child u =>
    rw [hctx] at hplain
    obtain rfl : child = k.current_process := hplain
    simp only [hctx, forkReturn, Option.bind_eq_bind, Option.bind_eq_some_iff, Option.pure_def,
      Option.some.injEq] at h
    obtain ⟨k₁, ⟨k₂, hadd, rfl⟩, rfl⟩ := h
    obtain rfl := Option.some.inj (hadd.symm.trans (addToQueue_of_ne (by simp [hrunning])))
    rfl
  | schedule caller =>
    simp only [hctx, Option.bind_eq_bind, Option.bind_eq_some_iff, Option.pure_def,
      Option.some.injEq] at h
    obtain ⟨k₁, hafter, rfl⟩ := h
    cases caller with
    | sysWait status_ptr kstatus_ptr => exact absurd ⟨status_ptr, hctx⟩ (hcontext kstatus_ptr)
    | sysPipeRead buf kbuf len =>
      unfold afterSchedule Kernel.finishRead Kernel.copyToUser at hafter
      simp only at hafter
      split at hafter
      · cases hafter
      · rw [← Option.some.inj hafter]
        rfl
    | sysCvarWait id =>
      rw [hctx] at hplain
      exact hplain.elim
    | sysPipeWrite kbuf =>
      rw [← Option.some.inj hafter]
      rfl
    | _ => rw [← Option.some.inj hafter]

/-! ## Cells -/

/-- `p` is suspended in `SysWait`, with this cell for the status. -/
def WaitsWith (k : Kernel) (p : PcbPtr) (kstatus_ptr : Int) : Prop :=
  ∃ status_ptr, (k.pcb p).kernel_context = .schedule (.sysWait status_ptr kstatus_ptr)

/-- `p` is in `SysWait`, and will read this cell. -/
inductive HoldsCell (k : Kernel) (s : QueueId → List PcbPtr) (p : PcbPtr) (kstatus_ptr : Int) : Prop where
  | calls {status_ptr : Int} (hmode : k.mode = .atSchedule (.sysWait status_ptr kstatus_ptr))
      (hp : p = k.current_process)
  | waits (hcontext : WaitsWith k p kstatus_ptr) (hne : p ≠ k.current_process)
      (hp : p ∈ s .blocked ∨ p ∈ s .ready)
  | resumes (hcontext : WaitsWith k p kstatus_ptr) (hmode : k.mode = .resumed)
      (hp : p = k.current_process)

/-- `p` is blocked in `SysWait`, and the address of its cell is where an exiting child looks for it. -/
def Awaits (k : Kernel) (p : PcbPtr) : Prop :=
  (k.pcb p).waiting_for_children ≠ 0 ∧ ∃ kstatus_ptr, kstatus_ptr ≠ 0 ∧
    (p = k.current_process ∧ (∃ status_ptr, k.mode = .atSchedule (.sysWait status_ptr kstatus_ptr)) ∧
        k.uctxt.regs 0 = kstatus_ptr ∨
      p ≠ k.current_process ∧ WaitsWith k p kstatus_ptr ∧ (k.saved p).regs 0 = kstatus_ptr)

structure CellInv (k : Kernel) (s : QueueId → List PcbPtr) : Prop where
  ready : k.current_process ∉ s .ready
  delay : ∀ p ∈ s .delay, p ≠ k.current_process → ∀ kstatus_ptr, ¬ WaitsWith k p kstatus_ptr
  idle : ∀ kstatus_ptr, ¬ WaitsWith k k.idle_process kstatus_ptr
  caller : ∀ status_ptr kstatus_ptr, k.mode = .atSchedule (.sysWait status_ptr kstatus_ptr) →
    k.current_process ∈ s .blocked
  blocked : ∀ p ∈ s .blocked, Awaits k p
  resumed : k.mode = .resumed → ∀ caller, (k.pcb k.current_process).kernel_context = .schedule caller →
    k.uctxt = k.saved k.current_process
  cell : ∀ p kstatus_ptr, HoldsCell k s p kstatus_ptr → k.kstatusAllocated kstatus_ptr = true
  distinct : ∀ p q kstatus_ptr, HoldsCell k s p kstatus_ptr → HoldsCell k s q kstatus_ptr → p = q

theorem WaitsWith.congr {kstatus_ptr : Int} (hcontext : (k'.pcb p).kernel_context = (k.pcb p).kernel_context) :
    WaitsWith k' p kstatus_ptr ↔ WaitsWith k p kstatus_ptr := by
  rw [WaitsWith, WaitsWith, hcontext]

namespace CellInv

theorem start (h₀ : ReapStart k) : CellInv k k.queue := by
  have hmode := h₀.family.fork.delay.mode
  have hwaits : ∀ p kstatus_ptr, ¬ WaitsWith k p kstatus_ptr := by
    rintro p kstatus_ptr ⟨status_ptr, hcontext⟩
    exact h₀.noWait _ _ _ hcontext
  have hholds : ∀ p kstatus_ptr, ¬ HoldsCell k k.queue p kstatus_ptr := by
    intro p kstatus_ptr hp
    cases hp with
    | calls hno =>
      rw [hmode] at hno
      cases hno
    | waits hp => exact hwaits _ _ hp
    | resumes hp => exact hwaits _ _ hp
  refine ⟨?_, fun p _ _ => hwaits p, hwaits _, fun _ _ hno => ?_, fun p hp => ?_, fun hno => ?_,
    fun p n hp => absurd hp (hholds p n), fun p _ n hp => absurd hp (hholds p n)⟩
  · exact h₀.family.fork.delay.coherent.offQueues_iff.1 h₀.family.fork.delay.current .ready
  · rw [hmode] at hno
    cases hno
  · simp [h₀.noneBlocked] at hp
  · rw [hmode] at hno
    cases hno

/-- A step after which nobody holds a cell who held none before. -/
theorem cells (h : CellInv k s) (hready : k'.current_process ∉ s' .ready)
    (hdelay : ∀ p ∈ s' .delay, p ≠ k'.current_process → ∀ kstatus_ptr, ¬ WaitsWith k' p kstatus_ptr)
    (hidle : ∀ kstatus_ptr, ¬ WaitsWith k' k'.idle_process kstatus_ptr)
    (hcaller : ∀ status_ptr kstatus_ptr, k'.mode ≠ .atSchedule (.sysWait status_ptr kstatus_ptr))
    (hblocked : ∀ p ∈ s' .blocked, Awaits k' p)
    (hresumed : k'.mode = .resumed → ∀ caller,
      (k'.pcb k'.current_process).kernel_context = .schedule caller → k'.uctxt = k'.saved k'.current_process)
    (hholds : ∀ p kstatus_ptr, HoldsCell k' s' p kstatus_ptr → HoldsCell k s p kstatus_ptr)
    (halloc : ∀ p kstatus_ptr, HoldsCell k' s' p kstatus_ptr →
      k'.kstatusAllocated kstatus_ptr = k.kstatusAllocated kstatus_ptr) : CellInv k' s' where
  ready := hready
  delay := hdelay
  idle := hidle
  caller _ _ hmode := absurd hmode (hcaller _ _)
  blocked := hblocked
  resumed := hresumed
  cell p _ hp := (halloc p _ hp).trans (h.cell p _ (hholds p _ hp))
  distinct p q _ hp hq := h.distinct p q _ (hholds p _ hp) (hholds q _ hq)

/-- A handler leaves the kernel contexts alone; who becomes ready was blocked or does not wait. -/
theorem leaves (h : CellInv k s) (hoff : ∀ l, k.current_process ∉ s l)
    (hcurrent : k'.current_process = k.current_process) (hidle : k'.idle_process = k.idle_process)
    (hmode : k'.mode = .user ∨ ∃ caller, k'.mode = .atSchedule caller ∧
      ∀ status_ptr kstatus_ptr, caller ≠ .sysWait status_ptr kstatus_ptr)
    (halloc : k'.kstatusAllocated = k.kstatusAllocated)
    (hcontext : ∀ p n, WaitsWith k' p n → WaitsWith k p n)
    (hready : ∀ p ∈ s' .ready, p ∈ s .ready ∨ p ∈ s .blocked ∨
      p ≠ k.current_process ∧ ∀ n, ¬ WaitsWith k' p n)
    (hblocked : ∀ p ∈ s' .blocked, p ∈ s .blocked ∧ (k.pcb p).Kept (k'.pcb p))
    (hdelay : ∀ p ∈ s' .delay, p = k.current_process ∨ p ∈ s .delay) : CellInv k' s' := by
  have hnot : k'.mode ≠ .resumed := fun hno => by
    rcases hmode with hm | ⟨caller, hm, -⟩
    · rw [hm] at hno
      cases hno
    · rw [hm] at hno
      cases hno
  have hcaller : ∀ status_ptr kstatus_ptr, k'.mode ≠ .atSchedule (.sysWait status_ptr kstatus_ptr) := by
    intro status_ptr kstatus_ptr hno
    rcases hmode with hm | ⟨caller, hm, hne⟩
    · rw [hm] at hno
      cases hno
    · rw [hm] at hno
      exact hne _ _ (Mode.atSchedule.inj hno)
  refine h.cells (fun hno => ?_) (fun p hp hne n hwaits => ?_) (fun n hwaits => ?_) hcaller
    (fun p hp => ?_) (fun hno => absurd hno hnot) (fun p n hp => ?_) fun _ _ _ => by rw [halloc]
  · rw [hcurrent] at hno
    rcases hready _ hno with hr | hb | ⟨hne, -⟩
    · exact hoff _ hr
    · exact hoff _ hb
    · exact hne rfl
  · rw [hcurrent] at hne
    exact h.delay p ((hdelay p hp).resolve_left hne) hne n (hcontext p n hwaits)
  · rw [hidle] at hwaits
    exact h.idle n (hcontext _ n hwaits)
  · obtain ⟨hp, hkept⟩ := hblocked p hp
    have hne : p ≠ k.current_process := fun e => hoff _ (e ▸ hp)
    obtain ⟨hflag, n, hnull, hcase⟩ := h.blocked p hp
    obtain ⟨-, hwaits, hregs⟩ := hcase.resolve_left fun hno => hne hno.1
    rw [Awaits, hcurrent, hkept.flag, Kernel.saved, hkept.saved]
    exact ⟨hflag, n, hnull, Or.inr ⟨hne, (WaitsWith.congr hkept.context).2 hwaits, hregs⟩⟩
  · cases hp with
    | calls hm => exact absurd hm (hcaller _ _)
    | resumes _ hm => exact absurd hm hnot
    | waits hwaits hne hp =>
      rw [hcurrent] at hne
      refine .waits (hcontext _ _ hwaits) hne ?_
      rcases hp with hp | hp
      · exact Or.inl (hblocked p hp).1
      · rcases hready p hp with hp | hp | ⟨-, hno⟩
        · exact Or.inr hp
        · exact Or.inl hp
        · exact absurd hwaits (hno _)

/-- The same when all contexts are kept. -/
theorem keeps (h : CellInv k s) (hoff : ∀ l, k.current_process ∉ s l)
    (hcurrent : k'.current_process = k.current_process) (hidle : k'.idle_process = k.idle_process)
    (hmode : k'.mode = .user ∨ ∃ caller, k'.mode = .atSchedule caller ∧
      ∀ status_ptr kstatus_ptr, caller ≠ .sysWait status_ptr kstatus_ptr)
    (halloc : k'.kstatusAllocated = k.kstatusAllocated) (hkept : ∀ p, (k.pcb p).Kept (k'.pcb p))
    (hready : s' .ready = s .ready) (hblocked : s' .blocked = s .blocked)
    (hdelay : ∀ p ∈ s' .delay, p = k.current_process ∨ p ∈ s .delay) : CellInv k' s' :=
  h.leaves hoff hcurrent hidle hmode halloc (fun p _ => (WaitsWith.congr (hkept p).context).1)
    (fun _ hp => Or.inl (hready ▸ hp)) (fun p hp => ⟨hblocked ▸ hp, hkept p⟩) hdelay

theorem waits (h : CellInv k s) {u : UserContext} {kstatus_ptr : Int} {q : Heap QueueId PcbPtr}
    (hoff : ∀ l, k.current_process ∉ s l)
    (hnidle : k.current_process ≠ k.idle_process) (hfresh : k.kstatusAllocated kstatus_ptr = false)
    (hnull : kstatus_ptr ≠ 0) : CellInv (waitingForChild { k with uctxt := u } kstatus_ptr q)
      (Function.update s .blocked (s .blocked ++ [k.current_process])) := by
  have hpcb : ∀ p, p ≠ k.current_process →
      (waitingForChild { k with uctxt := u } kstatus_ptr q).pcb p = k.pcb p := fun p hp => by
    simp [waitingForChild, hp]
  have hwas : ∀ p n, p ≠ k.current_process →
      WaitsWith (waitingForChild { k with uctxt := u } kstatus_ptr q) p n → WaitsWith k p n := by
    intro p n hp hwaits
    rwa [WaitsWith, hpcb p hp] at hwaits
  -- the new cell is the caller's, and every other one was held before
  have hholds : ∀ p n, HoldsCell (waitingForChild { k with uctxt := u } kstatus_ptr q)
      (Function.update s .blocked (s .blocked ++ [k.current_process])) p n →
      p = k.current_process ∧ n = kstatus_ptr ∨ p ≠ k.current_process ∧ HoldsCell k s p n := by
    intro p n hp
    cases hp with
    | calls hm hp =>
      obtain ⟨-, rfl⟩ := ScheduleCaller.sysWait.inj (Mode.atSchedule.inj hm)
      exact Or.inl ⟨hp, rfl⟩
    | waits hwaits hne hp =>
      refine Or.inr ⟨hne, .waits (hwas p n hne hwaits) hne ?_⟩
      rcases hp with hp | hp
      · rcases mem_update_append.1 hp with hp | ⟨-, e⟩
        · exact Or.inl hp
        · exact absurd e hne
      · exact Or.inr (by simpa using hp)
    | resumes _ hm => cases hm
  refine ⟨?_, fun p hp hne n hw => ?_, fun n hw => ?_, fun _ _ _ => by simp [waitingForChild], fun p hp => ?_,
    (fun hm => by cases hm), fun p n hp => ?_, fun p p' n hp hp' => ?_⟩
  · simpa [waitingForChild] using hoff .ready
  · exact h.delay p (by simpa using hp) hne n (hwas p n hne hw)
  · exact h.idle n (hwas _ n hnidle.symm hw)
  · rcases mem_update_append.1 hp with hp | ⟨-, rfl⟩
    · have hne : p ≠ k.current_process := fun e => hoff _ (e ▸ hp)
      obtain ⟨hflag, n, hn, hcase⟩ := h.blocked p hp
      obtain ⟨-, hw, hregs⟩ := hcase.resolve_left fun hno => hne hno.1
      refine ⟨by rw [hpcb p hne]; exact hflag, n, hn, Or.inr ⟨hne, ?_, ?_⟩⟩
      · exact (WaitsWith.congr (by rw [hpcb p hne])).2 hw
      · rw [Kernel.saved, hpcb p hne]
        exact hregs
    · exact ⟨by simp [waitingForChild], kstatus_ptr, hnull,
        Or.inl ⟨rfl, ⟨u.regs 0, rfl⟩, by simp [waitingForChild]⟩⟩
  · show Function.update k.kstatusAllocated kstatus_ptr true n = true
    rcases hholds p n hp with ⟨-, rfl⟩ | ⟨-, hp⟩
    · exact Function.update_self ..
    · have halloc := h.cell p n hp
      rw [Function.update_apply]
      split
      · rfl
      · exact halloc
  · have hnew : ∀ p, ¬ HoldsCell k s p kstatus_ptr := fun p hp => by
      have halloc := h.cell p _ hp
      rw [hfresh] at halloc
      cases halloc
    rcases hholds p n hp with ⟨e, rfl⟩ | ⟨-, hold⟩
    · rcases hholds p' _ hp' with ⟨e', -⟩ | ⟨-, hold'⟩
      · rw [e, e']
      · exact absurd hold' (hnew _)
    · rcases hholds p' n hp' with ⟨-, rfl⟩ | ⟨-, hold'⟩
      · exact absurd hold (hnew _)
      · exact h.distinct p p' n hold hold'

theorem schedule (h : CellInv k s) (hc : Coherent k s) {caller : ScheduleCaller} {next : PcbPtr}
    {q : Heap QueueId PcbPtr} (hmode : k.mode = .atSchedule caller) (hnext : Next k s next s')
    (hoff : next ∉ s' .ready) : CellInv (switched hw k caller next q) s' := by
  have hmem : ∀ l p, p ∈ s' l → p ∈ s l := fun l p hp => hnext.subset hp
  have hcontext : ∀ p, p ≠ k.current_process →
      ((switched hw k caller next q).pcb p).kernel_context = (k.pcb p).kernel_context := fun p hp => by
    simp [switched, switchedPcb, hp]
  have hown : ∀ n, WaitsWith (switched hw k caller next q) k.current_process n →
      ∃ status_ptr, caller = .sysWait status_ptr n := by
    rintro n ⟨status_ptr, hw⟩
    simp only [switched, switchedPcb, if_pos] at hw
    exact ⟨status_ptr, KernelContext.schedule.inj hw⟩
  have hcalls : ∀ n, WaitsWith (switched hw k caller next q) k.current_process n →
      HoldsCell k s k.current_process n ∧ k.current_process ∈ s .blocked := by
    intro n hw
    obtain ⟨status_ptr, rfl⟩ := hown n hw
    exact ⟨.calls hmode rfl, h.caller _ _ hmode⟩
  -- whoever holds a cell afterwards held it before
  have hholds : ∀ p n, HoldsCell (switched hw k caller next q) s' p n → HoldsCell k s p n := by
    intro p n hp
    cases hp with
    | calls hm => cases hm
    | waits hw hne hp =>
      by_cases e : p = k.current_process
      · subst e
        exact (hcalls n hw).1
      · exact .waits ((WaitsWith.congr (hcontext p e)).1 hw) e (hp.imp (hmem _ p) (hmem _ p))
    | resumes hw hm hp =>
      have hp : p = next := hp
      subst hp
      by_cases e : p = k.current_process
      · subst e
        exact (hcalls n hw).1
      · have hw := (WaitsWith.congr (hcontext p e)).1 hw
        rcases hnext.origin with rfl | hready
        · exact absurd hw (h.idle n)
        · exact .waits hw e (Or.inr hready)
  refine h.cells hoff (fun p hp hne n hwait => ?_) (fun n hwait => ?_) (fun _ _ hm => by cases hm) (fun p hp => ?_)
    (fun _ caller' hctx => ?_) hholds fun _ _ _ => rfl
  · by_cases e : p = k.current_process
    · subst e
      cases hc.unique (hmem _ _ hp) (hcalls n hwait).2
    · exact h.delay p (hmem _ p hp) e n ((WaitsWith.congr (hcontext p e)).1 hwait)
  · by_cases e : k.idle_process = k.current_process
    · have hown : WaitsWith (switched hw k caller next q) k.current_process n := e ▸ hwait
      exact hc.idle _ (e ▸ (hcalls n hown).2)
    · exact h.idle n ((WaitsWith.congr (hcontext _ e)).1 hwait)
  · have hold := hmem _ p hp
    obtain ⟨hflag, n, hn, hcase⟩ := h.blocked p hold
    have hnext' : p ≠ next := hnext.ne hc (by simp) hold
    refine ⟨hflag, n, hn, Or.inr ⟨hnext', ?_⟩⟩
    rcases hcase with ⟨rfl, ⟨status_ptr, hm⟩, hregs⟩ | ⟨hne, hw, hregs⟩
    · obtain rfl := Mode.atSchedule.inj (hmode.symm.trans hm)
      exact ⟨⟨status_ptr, by simp [switched, switchedPcb]⟩, by simp [Kernel.saved, switched, switchedPcb, hregs]⟩
    · exact ⟨(WaitsWith.congr (hcontext p hne)).2 hw, by simpa [Kernel.saved, switched, switchedPcb, hne] using hregs⟩
  · exact switched_uctxt hctx

theorem resume (h : CellInv k s) (hinv : FamilyInv k s f) (hmode : k.mode = .resumed)
    (hstep : Yalnix.resume k = some k')
    (heq : k' = { k with
      mem := { k.mem with ptbr1 := k'.mem.ptbr1 }
      uctxt := k'.uctxt
      kbufFreed := k'.kbufFreed
      userStores := k'.userStores
      kstatusAllocated := k'.kstatusAllocated
      mode := .user }) : CellInv k' s := by
  have hpcb : k'.pcb = k.pcb := by rw [heq]
  have hcurrent : k'.current_process = k.current_process := by rw [heq]
  have hidle : k'.idle_process = k.idle_process := by rw [heq]
  have hmode' : k'.mode = .user := by rw [heq]
  have hoff := hinv.steady.off (Or.inr hmode)
  have hwas : ∀ p n, WaitsWith k' p n ↔ WaitsWith k p n := fun p n =>
    WaitsWith.congr (by rw [hpcb])
  have hother : ∀ p n, HoldsCell k' s p n → p ≠ k.current_process ∧ HoldsCell k s p n := by
    intro p n hp
    cases hp with
    | calls hm =>
      rw [hmode'] at hm
      cases hm
    | waits hw hne hp =>
      rw [hcurrent] at hne
      exact ⟨hne, .waits ((hwas p n).1 hw) hne hp⟩
    | resumes _ hm =>
      rw [hmode'] at hm
      cases hm
  refine h.cells (by rw [hcurrent]; exact h.ready) (fun p hp hne n hw => ?_) (fun n hw => ?_)
    (fun _ _ hm => by rw [hmode'] at hm; cases hm) (fun p hp => ?_) (fun hm => by rw [hmode'] at hm; cases hm)
    (fun p n hp => (hother p n hp).2) fun p n hp => ?_
  · exact h.delay p hp (hcurrent ▸ hne) n ((hwas p n).1 hw)
  · exact h.idle n (hidle ▸ (hwas _ n).1 hw)
  · have hne : p ≠ k.current_process := fun e => hoff _ (e ▸ hp)
    obtain ⟨hflag, n, hn, hcase⟩ := h.blocked p hp
    obtain ⟨-, hw, hregs⟩ := hcase.resolve_left fun hno => hne hno.1
    rw [Awaits, Kernel.saved, hpcb, hcurrent]
    exact ⟨hflag, n, hn, Or.inr ⟨hne, (hwas p n).2 hw, hregs⟩⟩
  · obtain ⟨hne, hp⟩ := hother p n hp
    by_cases hctx : ∃ n', WaitsWith k k.current_process n'
    · obtain ⟨n', status_ptr, hctx⟩ := hctx
      have hn : n ≠ n' := by
        rintro rfl
        exact hne (h.distinct p _ n hp (.resumes ⟨status_ptr, hctx⟩ hmode rfl))
      rw [(resume_wait hctx hstep).2]
      exact Function.update_of_ne hn ..
    · rw [resume_other (fun n hno => hctx ⟨n, hno⟩) (hinv.steady.plain _) (hinv.steady.running hmode) hstep]

/-- A step of the cases keeps the cells. -/
theorem step (h : CellInv k s) (hinv : FamilyInv k s f) (hcase : FamilyCase hw k s f e k' s' f')
    (hsteady : Steady k' s') (hnull : ∀ u kstatus_ptr, e = .kernel u (.wait kstatus_ptr) → kstatus_ptr ≠ 0) :
    CellInv k' s' := by
  have hc := hinv.steady.coherent
  cases hcase with
  | again hmode =>
    refine h.keeps (hinv.off hmode) rfl rfl (Or.inl hmode) rfl
      (kept_of_others (q := k.current_process) (fun n hn => ?_) ?_) rfl rfl fun p hp => Or.inr hp
    · simp [Kernel.returnValue, Kernel.modifyPcb, hn]
    · constructor <;> simp [Kernel.returnValue, Kernel.modifyPcb]
  | @born u child m pt stack family q hmode hfresh hnot =>
    have hpcb : ∀ p, p ≠ child → (forked hw { k with uctxt := u } child m pt stack family q).pcb p = k.pcb p :=
      fun p hp => by simp [forked, hp]
    have hnew : ∀ n, ¬ WaitsWith (forked hw { k with uctxt := u } child m pt stack family q) child n := by
      rintro n ⟨status_ptr, hctx⟩
      simp [forked] at hctx
    have hne := ne_of_free hfresh (hinv.allocated_current hmode)
    refine h.leaves (hinv.off hmode) rfl rfl (Or.inl hmode) rfl (fun p n hwaits => ?_) (fun p hp => ?_)
      (fun p hp => ?_) fun p hp => Or.inr (by simpa using hp)
    · by_cases e : p = child
      · exact absurd (e ▸ hwaits) (hnew n)
      · exact (WaitsWith.congr (by rw [hpcb p e])).1 hwaits
    · rcases mem_update_append.1 hp with hp | ⟨-, rfl⟩
      · exact Or.inl hp
      · exact Or.inr (Or.inr ⟨hne, hnew⟩)
    · have hp : p ∈ s .blocked := by simpa using hp
      exact ⟨hp, .of_eq (hpcb p fun e => hnot _ (e ▸ hp))⟩
  | quick hmode v =>
    exact h.keeps (hinv.off hmode) rfl rfl (Or.inl hmode) rfl (fun p => .of_eq rfl) rfl rfl
      fun p hp => Or.inr hp
  | refused hmode hnone =>
    exact h.keeps (hinv.off hmode) rfl rfl (Or.inl hmode) rfl (fun p => .of_eq rfl) rfl rfl
      fun p hp => Or.inr hp
  | @delays u q hmode =>
    refine h.keeps (hinv.off hmode) rfl rfl (Or.inr ⟨_, rfl, by simp⟩) rfl
      (kept_of_others (q := k.current_process) (fun n hn => ?_) ?_) (by simp) (by simp) fun p hp => ?_
    · simp [delaying, hn]
    · constructor <;> simp [delaying]
    · rcases mem_update_append.1 hp with hp | ⟨-, e⟩
      · exact Or.inr hp
      · exact Or.inl e
  | waits hmode hnidle hfresh => exact h.waits (hinv.off hmode) hnidle hfresh (hnull _ _ rfl)
  | @reaps u kstatus_ptr z q hmode hz hzombie =>
    refine h.keeps (hinv.off hmode) rfl rfl (Or.inl hmode) rfl
      (kept_of_others (q := z) (fun n hn => ?_) ?_) (by simp) (by simp)
      fun p hp => Or.inr (by simpa using hp)
    · simp [reaped, hn]
    · constructor <;> simp [reaped]
  | @dies u k₁ q hmode hrel =>
    refine h.keeps (hinv.off hmode) (by rw [hrel.frame]; rfl) (by rw [hrel.frame]; rfl)
      (Or.inr ⟨_, rfl, by simp⟩) (by rw [hrel.frame]; rfl) (fun p => ?_) (by simp) (by simp)
      fun p hp => Or.inr (by simpa using hp)
    refine (hrel.kept p).trans (kept_of_others (q := k.current_process) (fun n hn => ?_) ?_ p)
    · simp [Kernel.callSchedule, Kernel.setState, Kernel.modifyPcb, hn]
    · constructor <;> simp [Kernel.callSchedule, Kernel.setState, Kernel.modifyPcb]
  | @notifies u k₁ q parent hmode hrel hgives hne hparent hwaiting hblocked =>
    have hothers : ∀ p, p ≠ parent → ((notified k₁ k.current_process parent (u.regs 0) .processReady
        q).callSchedule .sysExit).pcb p = k₁.pcb p := fun p hp => by
      simp [Kernel.callSchedule, notified, hp]
    have hcontext : ∀ p, (((notified k₁ k.current_process parent (u.regs 0) .processReady
        q).callSchedule .sysExit).pcb p).kernel_context = (k.pcb p).kernel_context := by
      intro p
      rw [← (hrel.kept p).context]
      by_cases e : p = parent
      · subst e
        simp [Kernel.callSchedule, notified]
      · rw [hothers p e]
    refine h.leaves (hinv.off hmode) (by rw [hrel.frame]; rfl) (by rw [hrel.frame]; rfl)
      (Or.inr ⟨_, rfl, by simp⟩) (by rw [hrel.frame]; rfl) (fun p _ => (WaitsWith.congr (hcontext p)).1)
      (fun p hp => ?_) (fun p hp => ?_) fun p hp => Or.inr (by simpa using hp)
    · rw [Function.update_self, List.mem_append, List.mem_singleton] at hp
      rcases hp with hp | rfl
      · exact Or.inl hp
      · exact Or.inr (Or.inl hblocked)
    · have hp : p ∈ (s .blocked).erase parent := by simpa using hp
      obtain ⟨hpp, hp⟩ := (hc.rep.nodup .blocked).mem_erase_iff.1 hp
      exact ⟨hp, (hrel.kept p).trans (.of_eq (hothers p hpp))⟩
  | @clock u k' hmode hcase =>
    have hframe := hcase.frame
    have hkept : ∀ p, (k.pcb p).Kept (k'.pcb p) := by
      intro p
      obtain ⟨ticks, st, time, hpcb⟩ := hcase.pcb p
      rw [hpcb]
      exact ⟨rfl, rfl, rfl, rfl⟩
    have hmode' : k'.mode = .user ∨ ∃ caller, k'.mode = .atSchedule caller ∧
        ∀ status_ptr kstatus_ptr, caller ≠ .sysWait status_ptr kstatus_ptr := by
      cases hcase with
      | goesOn heq => exact Or.inl (by rw [heq]; exact hmode)
      | preempts heq => exact Or.inr ⟨.clockHandler, by rw [heq]; rfl, by simp⟩
    refine h.leaves (hinv.off hmode) (by rw [hframe]) (by rw [hframe]) hmode' (by rw [hframe])
      (fun p _ => (WaitsWith.congr (hkept p).context).1) (fun p hp => ?_)
      (fun p hp => ⟨by simpa [tickedLists] using hp, hkept p⟩) fun p hp => Or.inr ?_
    · simp only [tickedLists, Function.update_self, List.mem_append] at hp
      rcases hp with hp | hp
      · exact Or.inl hp
      · have hp := List.mem_of_mem_filter hp
        have hne : p ≠ k.current_process := fun e => hinv.off hmode _ (e ▸ hp)
        refine Or.inr (Or.inr ⟨hne, fun n hwaits => h.delay p hp hne n ?_⟩)
        exact (WaitsWith.congr (hkept p).context).1 hwaits
    · simp only [tickedLists, ne_eq, reduceCtorEq, not_false_eq_true, Function.update_of_ne,
        Function.update_self, List.append_nil] at hp
      exact List.mem_of_mem_filter hp
  | schedule hmode hnext =>
    have hoff' := hsteady.off (Or.inr rfl)
    exact h.schedule hc hmode hnext (hoff' .ready)
  | resume hmode hstep heq => exact h.resume hinv hmode hstep heq

end CellInv

end Yalnix
