import Yalnix.ForkRun
import Yalnix.Proofs.DelayRun

/-!
# What forks return

`SysFork` makes its child when `should_fork` is set, and the child returns from the handler as its parent
does, with its own pid.
-/

namespace Yalnix

open Intrusive Transition

variable {hw : Hardware} {k k' k₀ : Kernel} {s s' : QueueId → List PcbPtr} {f f' : PcbPtr → List PcbPtr}
  {e : TrapEvent} {p : PcbPtr} {t : List (Kernel × TrapEvent)}

theorem ne_of_free {q : PcbPtr} (hfree : k.allocated p = false) (hq : k.allocated q = true) : p ≠ q := by
  rintro rfl
  rw [hfree] at hq
  cases hq

/-- Who is on a list, is a parent or a child, runs or idles, is there. -/
structure ForkInv (k : Kernel) (s : QueueId → List PcbPtr) (f : PcbPtr → List PcbPtr) : Prop where
  steady : Steady k s
  family : k.family.Rep Set.univ f
  current : k.allocated k.current_process = true
  idle : k.allocated k.idle_process = true
  listed : ∀ l p, p ∈ s l → k.allocated p = true
  children : ∀ p c, c ∈ f p → k.allocated p = true ∧ k.allocated c = true

namespace ForkInv

theorem start (h₀ : ForkStart k₀) : ∃ f, ForkInv k₀ k₀.queue f := by
  obtain ⟨f, hf⟩ := h₀.family
  exact ⟨f, .start h₀.delay, hf, h₀.current, h₀.idle,
    fun l p hp => h₀.listed l p (h₀.delay.coherent.onList_iff.2 hp),
    fun p c hc => h₀.children p c ((hf.onList_iff (Set.mem_univ p)).2 hc)⟩

theorem children_eq (h : ForkInv k s f) : k.children p = f p :=
  (congrFun h.family.eq_toList p).symm

/-- A step that leaves families and addresses alone, and lists nobody new but the caller. -/
theorem keeps (h : ForkInv k s f) (hsteady : Steady k' s') (hfamily : k'.family = k.family)
    (halloc : k'.allocated = k.allocated) (hidle : k'.idle_process = k.idle_process)
    (hcurrent : k'.current_process = k.current_process ∨ k'.current_process = k.idle_process ∨
      ∃ l, k'.current_process ∈ s l)
    (hlisted : ∀ l p, p ∈ s' l → p = k.current_process ∨ ∃ l', p ∈ s l') : ForkInv k' s' f where
  steady := hsteady
  family := hfamily ▸ h.family
  current := by
    rw [halloc]
    rcases hcurrent with e | e | ⟨l, hl⟩
    · rw [e]
      exact h.current
    · rw [e]
      exact h.idle
    · exact h.listed l _ hl
  idle := by rw [halloc, hidle]; exact h.idle
  listed l p hp := by
    rw [halloc]
    rcases hlisted l p hp with rfl | ⟨l', hl'⟩
    · exact h.current
    · exact h.listed l' p hl'
  children := halloc ▸ h.children

/-- An address that is free is on no list and has no children. -/
theorem unlisted (h : ForkInv k s f) (hfree : k.allocated p = false) :
    (∀ l, p ∉ s l) ∧ (∀ q, p ∉ f q) ∧ f p = [] := by
  have hno : ∀ b, k.allocated p = true → b := fun b ha => by
    rw [hfree] at ha
    cases ha
  exact ⟨fun l hl => hno _ (h.listed l p hl), fun q hq => hno _ (h.children q p hq).2,
    List.eq_nil_iff_forall_not_mem.2 fun c hc => hno _ (h.children p c hc).1⟩

/-- A fork either gives the second return of an earlier one, or makes a child. -/
theorem forkCase (h : ForkInv k s f) {u : UserContext} {child : PcbPtr}
    (hen : (trapMachine hw).enabled k (.kernel u (.fork child)))
    (hstep : (trapMachine hw).step k (.kernel u (.fork child)) = some k') :
    ForkCase hw { k with uctxt := u } s child k' := by
  obtain ⟨hoff, -, -⟩ := h.unlisted hen.2.2
  have hc : Coherent { k with uctxt := u } s := h.steady.coherent.congr rfl rfl fun _ => rfl
  exact sysFork_cases hc hoff (ne_of_free hen.2.2 h.current) (ne_of_free hen.2.2 h.idle) hstep

/-- The second return moves nobody. -/
theorem again (h : ForkInv k s f) {u : UserContext} (hmode : k.mode = .user)
    (heq : k' = (({ k with uctxt := u } : Kernel).modifyPcb k.current_process fun pcb =>
      { pcb with should_fork := true }).returnValue 0) : ForkInv k' s f := by
  have hpcb : ∀ p, k'.pcb p = { k.pcb p with should_fork := (k'.pcb p).should_fork } := by
    intro p
    rw [heq]
    by_cases e : p = k.current_process
    · subst e
      simp [Kernel.returnValue, Kernel.modifyPcb]
    · simp [Kernel.returnValue, Kernel.modifyPcb, e]
  have hc : Coherent k' s :=
    h.steady.coherent.congr (by rw [heq]; rfl) (by rw [heq]; rfl) fun p => by rw [hpcb p]
  refine h.keeps (.returns hmode hc (by rw [heq]; rfl) (by rw [heq]; rfl)
    (h.steady.off (Or.inl hmode)) fun p => ?_) (by rw [heq]; rfl) (by rw [heq]; rfl)
    (by rw [heq]; rfl) (Or.inl (by rw [heq]; rfl)) fun l p hp => Or.inr ⟨l, hp⟩
  rw [hpcb p]
  exact h.steady.plain p

/-- A new child is the last of its parent's children and the last of the ready queue. -/
theorem born (h : ForkInv k s f) {u : UserContext} {child : PcbPtr} {m : Memory}
    {pt stack : Nat → Pte} {family : Heap PcbPtr PcbPtr} {q : Heap QueueId PcbPtr}
    (hmode : k.mode = .user) (hfree : k.allocated child = false)
    (hins : (k.family.listInit child).insertTail k.current_process child = some family)
    (heq : k' = forked hw { k with uctxt := u } child m pt stack family q)
    (hc : Coherent k' (Function.update s .ready (s .ready ++ [child]))) :
    ForkInv k' (Function.update s .ready (s .ready ++ [child]))
      (Function.update f k.current_process (f k.current_process ++ [child])) := by
  obtain ⟨hoff, hno, hnil⟩ := h.unlisted hfree
  have hne := ne_of_free hfree h.current
  have halloc : k'.allocated = Function.update k.allocated child true := by
    rw [heq]
    rfl
  have hstill : ∀ p, k.allocated p = true → k'.allocated p = true := fun p hp => by
    rw [halloc, Function.update_apply]
    split
    · rfl
    · exact hp
  have hnew : k'.allocated child = true := by simp [halloc]
  have hfamily : k'.family = family := by
    rw [heq]
    rfl
  refine ⟨.returns hmode hc (by rw [heq]; rfl) (by rw [heq]; rfl) (fun l hl => ?_) fun p => ?_, ?_,
    hstill _ (by rw [heq]; exact h.current), hstill _ (by rw [heq]; exact h.idle), fun l p hp => ?_,
    fun p c hp => ?_⟩
  · rcases mem_update_append.1 hl with hl | ⟨-, rfl⟩
    · exact h.steady.off (Or.inl hmode) l hl
    · exact hne rfl
  · by_cases e : p = child
    · subst e
      simp [heq, forked, KernelContext.Plain]
    · simpa [heq, forked, e] using h.steady.plain p
  · obtain ⟨family', hins', hf⟩ := (h.family.listInit hnil).insertTail (Set.mem_univ k.current_process) hno
    obtain rfl := Option.some.inj (hins.symm.trans hins')
    rw [hfamily]
    exact hf
  · rcases mem_update_append.1 hp with hp | ⟨-, rfl⟩
    · exact hstill p (h.listed l p hp)
    · exact hnew
  · rcases mem_update_append.1 hp with hp | ⟨rfl, rfl⟩
    · exact ⟨hstill p (h.children p c hp).1, hstill c (h.children p c hp).2⟩
    · exact ⟨hstill _ h.current, hnew⟩

theorem fork (h : ForkInv k s f) {u : UserContext} {child : PcbPtr}
    (hen : (trapMachine hw).enabled k (.kernel u (.fork child)))
    (hstep : (trapMachine hw).step k (.kernel u (.fork child)) = some k') :
    ∃ s' f', ForkInv k' s' f' := by
  cases h.forkCase hen hstep with
  | child hflag heq => exact ⟨s, f, h.again hen.1 heq⟩
  | parent hflag hmem hins heq hc => exact ⟨_, _, h.born hen.1 hen.2.2 hins heq hc⟩

theorem delay (h : ForkInv k s f) {u : UserContext} (hen : (trapMachine hw).enabled k (.kernel u .delay))
    (hstep : (trapMachine hw).step k (.kernel u .delay) = some k') : ∃ s', ForkInv k' s' f := by
  obtain ⟨hmode, hidle, -⟩ := hen
  have hoff := h.steady.off (Or.inl hmode)
  have hc : Coherent { k with uctxt := u } s := h.steady.coherent.congr rfl rfl fun _ => rfl
  rcases sysDelay_cases hc hoff hidle hstep with ⟨-, v, rfl⟩ | ⟨-, q, rfl, hc'⟩
  · exact ⟨s, h.keeps (.returns hmode (hc.congr rfl rfl fun _ => rfl) rfl rfl hoff h.steady.plain)
      rfl rfl rfl (Or.inl rfl) fun l p hp => Or.inr ⟨l, hp⟩⟩
  · refine ⟨_, h.keeps (.calls hc' rfl (by simp) fun p => ?_) rfl rfl rfl (Or.inl rfl) fun l p hp => ?_⟩
    · by_cases e : p = k.current_process
      · subst e
        simpa [delaying] using h.steady.plain k.current_process
      · simpa [delaying, e] using h.steady.plain p
    · rcases mem_update_append.1 hp with hp | ⟨-, rfl⟩
      · exact Or.inr ⟨l, hp⟩
      · exact Or.inl rfl

theorem clock (h : ForkInv k s f) {u : UserContext} (hmode : k.mode = .user)
    (hstep : (trapMachine hw).step k (.clock u) = some k') : ∃ s', ForkInv k' s' f := by
  have hframe := (h.steady.clockCase hmode hstep).frame
  refine ⟨_, h.keeps (h.steady.clock hmode hstep) (by rw [hframe]) (by rw [hframe]) (by rw [hframe])
    (Or.inl (by rw [hframe])) fun l p hp => Or.inr (mem_of_mem_tickedLists hp)⟩

theorem schedule (h : ForkInv k s f) (hstep : (trapMachine hw).step k .schedule = some k') :
    ∃ s', ForkInv k' s' f := by
  obtain ⟨caller, next, q, s', -, rfl, hnext, hsteady⟩ := h.steady.schedule hstep
  refine ⟨s', h.keeps hsteady rfl rfl rfl (Or.inr ?_) fun l p hp => Or.inr ?_⟩
  · exact hnext.origin.imp id fun hready => ⟨.ready, hready⟩
  · exact ⟨l, hnext.subset hp⟩

theorem resume (h : ForkInv k s f) (hmode : k.mode = .resumed)
    (hstep : (trapMachine hw).step k .resume = some k') : ForkInv k' s f := by
  obtain ⟨heq, hsteady⟩ := h.steady.resume hmode hstep
  exact h.keeps hsteady (by rw [heq]) (by rw [heq]) (by rw [heq]) (Or.inl (by rw [heq]))
    fun l p hp => Or.inr ⟨l, hp⟩

end ForkInv

theorem forkRun (h₀ : ForkStart k₀)
    (hrun : Run (trapMachine hw) (fun _ e => ForkEvent e) k₀ t k) : ∃ s f, ForkInv k s f := by
  refine hrun.invariant (I := fun k => ∃ s f, ForkInv k s f) ⟨_, ForkInv.start h₀⟩ ?_
  rintro k e k' ⟨s, f, hinv⟩ hen hevent hstep
  cases e with
  | kernel u c =>
    cases c with
    | fork child => exact hinv.fork hen hstep
    | delay =>
      obtain ⟨s', hinv'⟩ := hinv.delay hen hstep
      exact ⟨s', f, hinv'⟩
    | _ => exact hevent.elim
  | clock u =>
    obtain ⟨s', hinv'⟩ := hinv.clock hen hstep
    exact ⟨s', f, hinv'⟩
  | schedule =>
    obtain ⟨s', hinv'⟩ := hinv.schedule hstep
    exact ⟨s', f, hinv'⟩
  | resume => exact ⟨s, f, hinv.resume hen hstep⟩

/-! ## The theorem -/

theorem ForkInv.makesChild (h : ForkInv k s f) {u : UserContext} {child : PcbPtr}
    (hen : (trapMachine hw).enabled k (.kernel u (.fork child)))
    (hstep : (trapMachine hw).step k (.kernel u (.fork child)) = some k') :
    MakesChild k k' child ↔ (k.pcb k.current_process).should_fork = true := by
  cases h.forkCase hen hstep with
  | child hflag heq =>
    have hflag : (k.pcb k.current_process).should_fork = false := hflag
    have hsame : k'.children = k.children := by
      rw [heq]
      rfl
    constructor
    · intro hmakes
      have hlong := hmakes.children
      rw [hsame] at hlong
      simp at hlong
    · intro hset
      rw [hflag] at hset
      cases hset
  | parent hflag hmem hins heq hc =>
    have hinv := h.born hen.1 hen.2.2 hins heq hc
    refine iff_of_true ⟨hen.2.2, by rw [heq]; rfl, by simp [heq, forked], ?_, fun p hp => ?_, ?_, ?_⟩ hflag
    · rw [hinv.children_eq, h.children_eq]
      simp
    · rw [hinv.children_eq, h.children_eq]
      simp [hp]
    · rw [hc.queue_eq, h.steady.coherent.queue_eq]
      simp
    · rw [heq]
      exact ⟨hen.1, rfl, by simp [forked, createPcb]⟩

/-- The child enters user mode with its own pid. -/
theorem ForkInv.enters (h : ForkInv k s f) (hmode : k.mode = .resumed) (hchild : ChildEnters k)
    (hstep : (trapMachine hw).step k .resume = some k') :
    k'.uctxt.regs 0 = (k.pcb k.current_process).pid := by
  obtain ⟨child, u, hcontext⟩ := hchild
  have hplain := h.steady.plain k.current_process
  rw [hcontext] at hplain
  obtain rfl : child = k.current_process := hplain
  have hstep : Yalnix.resume k = some k' := hstep
  simp only [Yalnix.resume, hcontext, forkReturn, Option.bind_eq_bind, Option.bind_eq_some_iff,
    Option.pure_def, Option.some.injEq] at hstep
  obtain ⟨k₁, ⟨k₂, hadd, rfl⟩, rfl⟩ := hstep
  obtain rfl := Option.some.inj (hadd.symm.trans
    (addToQueue_of_ne (by simp [h.steady.running hmode])))
  simp [Kernel.returnValue]

/-- In every run of forks, a fork makes a child when `should_fork` is set, and only then, and the child
gets `0` when `0` is its pid. -/
theorem fork_returns (h₀ : ForkStart k₀)
    (hrun : Run (trapMachine hw) (fun _ e => ForkEvent e) k₀ t k) {x : Kernel × TrapEvent} (hx : x ∈ t)
    (hstep : (trapMachine hw).step x.1 x.2 = some k') : ForkLaw x.1 x.2 k' ↔ ForkHolds x.1 x.2 := by
  obtain ⟨t₁, t₂, rfl⟩ := List.append_of_mem hx
  obtain ⟨b, hbefore, hen, hevent, -⟩ := hrun.split
  obtain ⟨s, f, hinv⟩ := forkRun h₀ hbefore
  obtain ⟨k₁, e⟩ := x
  cases e with
  | kernel u c =>
    cases c with
    | fork child => exact hinv.makesChild hen hstep
    | delay => exact Iff.rfl
    | _ => exact hevent.elim
  | clock u => exact Iff.rfl
  | schedule => exact Iff.rfl
  | resume =>
    refine forall_congr' fun hchild => ?_
    rw [hinv.enters hen hchild hstep]

/-- The kernel is booted into such a state. -/
theorem Booted.forkStart {b : Boot hw} (h : Booted b k) : ForkStart k where
  delay := h.delayStart
  family := ⟨_, h.family⟩
  current := (h.allocated _).2 (Or.inl h.current)
  idle := (h.allocated _).2 (Or.inl h.idle)
  listed l p hp := by
    have hp := (h.queues.onList_iff (Set.mem_univ l)).1 hp
    rw [Function.update_apply] at hp
    split at hp
    · exact (h.allocated p).2 (Or.inr (List.mem_singleton.1 hp))
    · cases hp
  children p c hc := by cases (h.family.onList_iff (Set.mem_univ p)).1 hc

/-- It forks. -/
def forkedKernel : Kernel :=
  ((trapMachine .small).step initKernel (.kernel Boot.small.uctxt (.fork 102))).get (by decide +kernel)

theorem forkedKernel_run : ∃ t, Run (trapMachine .small) (fun _ e => ForkEvent e) Boot.smallKernel
    (t ++ [(initKernel, .kernel Boot.small.uctxt (.fork 102))]) forkedKernel := by
  have hevents : ∀ e ∈ dispatchEvents, ForkEvent e := by simp [dispatchEvents, ForkEvent]
  exact ⟨_, (initKernel_run fun _ => hevents).snoc (by decide +kernel) trivial (Option.some_get _).symm⟩

theorem fork_returns_small : MakesChild initKernel forkedKernel 102 := by
  obtain ⟨t, hrun⟩ := forkedKernel_run
  have hset : (initKernel.pcb initKernel.current_process).should_fork = true := by decide +kernel
  have hlast : (initKernel, .kernel Boot.small.uctxt (.fork 102)) ∈
      t ++ [(initKernel, .kernel Boot.small.uctxt (.fork 102))] := by simp
  exact (fork_returns Boot.smallKernel_booted.forkStart hrun hlast (Option.some_get _).symm).2 hset

/-- The child of the init process is dispatched. -/
def enteringKernel : Kernel :=
  ((trapMachine .small).exec forkedKernel
    [.kernel (Boot.small.uctxt.setReg0 1) .delay, .schedule]).get (by decide +kernel)

def enteredKernel : Kernel := ((trapMachine .small).step enteringKernel .resume).get (by decide +kernel)

def reforkedKernel : Kernel :=
  ((trapMachine .small).step enteredKernel (.kernel Boot.small.uctxt (.fork 103))).get (by decide +kernel)

/-- The child enters user mode with its pid, and its own fork makes no child. -/
theorem fork_returns_fails : ∃ t k, Run (trapMachine .small) (fun _ e => ForkEvent e) Boot.smallKernel t k ∧
    (enteringKernel, .resume) ∈ t ∧ ¬ ForkLaw enteringKernel .resume enteredKernel ∧
    (enteredKernel, .kernel Boot.small.uctxt (.fork 103)) ∈ t ∧
    ¬ ForkLaw enteredKernel (.kernel Boot.small.uctxt (.fork 103)) reforkedKernel := by
  obtain ⟨t, hrun⟩ := forkedKernel_run
  have hevents : ∀ e ∈ [.kernel (Boot.small.uctxt.setReg0 1) .delay, .schedule], ForkEvent e := by
    simp [ForkEvent]
  have hen : ∀ x ∈ (trapMachine .small).trace forkedKernel
      [.kernel (Boot.small.uctxt.setReg0 1) .delay, .schedule], (trapMachine .small).enabled x.1 x.2 := by
    decide +kernel
  have hentering : Run (trapMachine .small) (fun _ e => ForkEvent e) forkedKernel _ enteringKernel :=
    Run.ofExec (Option.some_get _).symm fun x hx => ⟨hen x hx, hevents x.2 (System.mem_trace hx)⟩
  have hresumed : (trapMachine .small).enabled enteringKernel .resume := by decide +kernel
  have hrefork : (trapMachine .small).enabled enteredKernel (.kernel Boot.small.uctxt (.fork 103)) := by
    decide +kernel
  have hentered : (trapMachine .small).step enteringKernel .resume = some enteredKernel :=
    (Option.some_get _).symm
  have hreforked : (trapMachine .small).step enteredKernel (.kernel Boot.small.uctxt (.fork 103)) =
      some reforkedKernel := (Option.some_get _).symm
  have hall := ((hrun.trans hentering).snoc hresumed trivial hentered).snoc hrefork trivial hreforked
  refine ⟨_, reforkedKernel, hall, by simp, fun hlaw => ?_, by simp, fun hlaw => ?_⟩
  · have hchild : ChildEnters enteringKernel := by decide +kernel
    have hregs : enteredKernel.uctxt.regs 0 ≠ 0 := by decide +kernel
    exact hregs (hlaw hchild)
  · have hnone : reforkedKernel.children enteredKernel.current_process = [] := by decide +kernel
    have hchildren := MakesChild.children hlaw
    rw [hnone] at hchildren
    simp at hchildren

end Yalnix
