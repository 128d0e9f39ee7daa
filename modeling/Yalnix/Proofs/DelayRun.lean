import Yalnix.Proofs.TrapStep

/-!
# Delays are exact

The delay queue runs its timers: every step of a run does to it what its event does to `Timers`, and the
clock puts those who are due on the ready queue, in their order.
-/

namespace Yalnix

open Intrusive Transition

variable {hw : Hardware} {k k' k₀ : Kernel} {s s' : QueueId → List PcbPtr} {e : TrapEvent}
  {p : PcbPtr} {t : List (Kernel × TrapEvent)}

/-! ## The timers -/

theorem mem_timersOf {n : Int} : (p, n) ∈ timersOf k s ↔ p ∈ s .delay ∧ (k.pcb p).delay_ticks = n := by
  simp [timersOf]

theorem due_timersOf : Timers.due (timersOf k s) = (s .delay).filter (expires k) := by
  simp only [Timers.due, timersOf, List.filter_map, List.map_map, Function.comp_def, List.map_id']
  rfl

theorem timersOf_congr (hs : s' .delay = s .delay)
    (h : ∀ p ∈ s .delay, (k'.pcb p).delay_ticks = (k.pcb p).delay_ticks) :
    timersOf k' s' = timersOf k s := by
  unfold timersOf
  rw [hs]
  exact List.map_congr_left fun p hp => by rw [h p hp]

theorem clockTicks_eq : clockTicks t = Timers.ticks (t.filterMap timerEvent) := by
  induction t with
  | nil => rfl
  | cons x t ih =>
    obtain ⟨k, e⟩ := x
    have hcons : clockTicks ((k, e) :: t) = clockTicks t + if e.isClock then 1 else 0 := by
      simp [clockTicks, List.countP_cons]
    rw [hcons, ih]
    cases e with
    | clock u => simp [timerEvent, TrapEvent.isClock]
    | schedule => simp [List.filterMap_cons, timerEvent, TrapEvent.isClock]
    | resume => simp [List.filterMap_cons, timerEvent, TrapEvent.isClock]
    | kernel u c =>
      cases c with
      | delay =>
        by_cases hu : 0 < u.regs 0
        · simp [timerEvent, TrapEvent.isClock, hu]
        · simp [timerEvent, TrapEvent.isClock, hu]
      | _ => simp [List.filterMap_cons, timerEvent, TrapEvent.isClock]

theorem Delays.timerEvent {n : Int} {x : Kernel × TrapEvent} (h : Delays p n x) (hn : 1 ≤ n) :
    timerEvent x = some (.set p n) := by
  obtain ⟨k, e⟩ := x
  obtain ⟨rfl, u, rfl, rfl⟩ := h
  exact if_pos (by omega)

/-! ## The invariant -/

structure DelayInv (k₀ : Kernel) (t : List (Kernel × TrapEvent)) (k : Kernel)
    (s : QueueId → List PcbPtr) : Prop where
  steady : Steady k s
  caller : ∀ caller, k.mode = .atSchedule caller →
    caller = .clockHandler ∧ (∀ l, k.current_process ∉ s l) ∨ caller = .sysDelay ∧ k.uctxt.regs 0 = 0
  timers : timersOf k s = Timers.run (timersOf k₀ k₀.queue) (t.filterMap timerEvent)
  /-- Who has called `SysDelay` and waits has `0` as the result, once its context is saved. -/
  result : ∀ p ∈ s .delay, (∃ x ∈ t, ∃ n, 1 ≤ n ∧ Delays p n x) →
    k.mode = .atSchedule .sysDelay ∧ k.current_process = p ∨ (k.saved p).regs 0 = 0

namespace DelayInv

theorem start (h₀ : DelayStart k₀) : DelayInv k₀ [] k₀ k₀.queue where
  steady := .start h₀
  caller caller hmode := by rw [h₀.mode] at hmode; cases hmode
  timers := rfl
  result p _ hcalled := by
    obtain ⟨x, hx, -⟩ := hcalled
    cases hx

/-- The trace grows by an event. -/
theorem timers_snoc (h : DelayInv k₀ t k s) :
    Timers.run (timersOf k₀ k₀.queue) ((t ++ [(k, e)]).filterMap timerEvent) =
      match timerEvent (k, e) with
      | some ev => Timers.step (timersOf k s) ev
      | none => timersOf k s := by
  rw [List.filterMap_append, Timers.run_append, ← h.timers]
  cases hev : timerEvent (k, e) <;> simp [hev]

/-- A call before the last event is one of the trace before it. -/
theorem called_of_snoc {n : Int} (hn : 1 ≤ n) {x : Kernel × TrapEvent}
    (hx : x ∈ t ++ [(k, e)]) (hcall : Delays p n x) (hlast : ¬ Delays p n (k, e)) :
    ∃ x ∈ t, ∃ n, 1 ≤ n ∧ Delays p n x := by
  rcases List.mem_append.1 hx with hx | hx
  · exact ⟨x, hx, n, hn, hcall⟩
  · obtain rfl := List.mem_singleton.1 hx
    exact absurd hcall hlast

/-- In user mode every caller's context is saved. -/
theorem saved (h : DelayInv k₀ t k s) (hmode : k.mode = .user) :
    ∀ p ∈ s .delay, (∃ x ∈ t, ∃ n, 1 ≤ n ∧ Delays p n x) → (k.saved p).regs 0 = 0 := by
  intro p hp hcalled
  rcases h.result p hp hcalled with ⟨hsched, -⟩ | hregs
  · rw [hmode] at hsched
    cases hsched
  · exact hregs

theorem delay (h : DelayInv k₀ t k s) {u : UserContext}
    (hen : (trapMachine hw).enabled k (.kernel u .delay))
    (hstep : (trapMachine hw).step k (.kernel u .delay) = some k') :
    ∃ s', DelayInv k₀ (t ++ [(k, .kernel u .delay)]) k' s' := by
  obtain ⟨hmode, hidle, -⟩ := hen
  have hoff := h.steady.off (Or.inl hmode)
  have hc : Coherent { k with uctxt := u } s := h.steady.coherent.congr rfl rfl fun _ => rfl
  rcases sysDelay_cases hc hoff hidle hstep with ⟨hle, v, rfl⟩ | ⟨hlt, q, rfl, hc'⟩
  · have hle : u.regs 0 ≤ 0 := hle
    have hsteady : Steady (({ k with uctxt := u } : Kernel).returnValue v) s :=
      .returns hmode (hc.congr rfl rfl fun _ => rfl) rfl rfl hoff h.steady.plain
    refine ⟨s, hsteady, fun caller hsched => ?_, ?_, fun p hp hcalled => Or.inr ?_⟩
    · have hsched : k.mode = .atSchedule caller := hsched
      rw [hmode] at hsched
      cases hsched
    · rw [h.timers_snoc]
      simp only [timerEvent, if_neg (show ¬ 0 < u.regs 0 by omega)]
      rfl
    · obtain ⟨x, hx, n, hn, hcall⟩ := hcalled
      refine h.saved hmode p hp (called_of_snoc hn hx hcall ?_)
      rintro ⟨-, v, hv, rfl⟩
      obtain ⟨rfl, -⟩ := TrapEvent.kernel.inj hv
      omega
  · have hlt : 0 < u.regs 0 := hlt
    have hne : ∀ p ∈ s .delay, p ≠ k.current_process := by
      rintro p hp rfl
      exact hoff _ hp
    have hcontext : ∀ p, ((delaying { k with uctxt := u } q).pcb p).kernel_context.Plain p := by
      intro p
      by_cases e : p = k.current_process
      · subst e
        simpa [delaying] using h.steady.plain k.current_process
      · simpa [delaying, e] using h.steady.plain p
    refine ⟨_, .calls hc' rfl (by simp) hcontext, fun caller hsched => ?_, ?_, fun p hp hcalled => ?_⟩
    · obtain rfl := Mode.atSchedule.inj hsched
      exact Or.inr ⟨rfl, by simp [delaying]⟩
    · rw [h.timers_snoc]
      simp only [timerEvent, if_pos hlt, Timers.step, timersOf, Function.update_self, List.map_append,
        List.map_cons, List.map_nil]
      congr 1
      · exact List.map_congr_left fun p hp => by simp [delaying, hne p hp]
      · simp [delaying]
    · by_cases e : p = k.current_process
      · exact Or.inl ⟨rfl, e.symm⟩
      · right
        have hp : p ∈ s .delay := by simpa [e] using hp
        obtain ⟨x, hx, n, hn, hcall⟩ := hcalled
        have hregs := h.saved hmode p hp (called_of_snoc hn hx hcall fun hlast => e hlast.1.symm)
        simpa [Kernel.saved, delaying, e] using hregs

/-- A step that is no call of `SysDelay` adds no caller. -/
theorem called_before (hcalled : ∃ x ∈ t ++ [(k, e)], ∃ n, 1 ≤ n ∧ Delays p n x)
    (he : ∀ u, e ≠ .kernel u .delay) : ∃ x ∈ t, ∃ n, 1 ≤ n ∧ Delays p n x := by
  obtain ⟨x, hx, n, hn, hcall⟩ := hcalled
  refine called_of_snoc hn hx hcall ?_
  rintro ⟨-, u, hu, -⟩
  exact he u hu

theorem clock (h : DelayInv k₀ t k s) {u : UserContext} (hmode : k.mode = .user)
    (hstep : (trapMachine hw).step k (.clock u) = some k') :
    DelayInv k₀ (t ++ [(k, .clock u)]) k' (tickedLists k s (s .delay) []) := by
  have hcase := h.steady.clockCase hmode hstep
  have hsteady := h.steady.clock hmode hstep
  have hne : ∀ p ∈ s .delay, p ≠ k.current_process := by
    rintro p hp rfl
    exact h.steady.off (Or.inl hmode) _ hp
  refine ⟨hsteady, fun caller hsched => ?_, ?_, fun p hp hcalled => Or.inr ?_⟩
  · refine Or.inl ⟨?_, fun l hl => ?_⟩
    · cases hcase with
      | goesOn heq =>
        rw [heq] at hsched
        have hsched : k.mode = .atSchedule caller := hsched
        rw [hmode] at hsched
        cases hsched
      | preempts heq =>
        rw [heq] at hsched
        exact (Mode.atSchedule.inj hsched).symm
    · rw [hcase.frame] at hl
      obtain ⟨l', hl'⟩ := mem_of_mem_tickedLists hl
      exact h.steady.off (Or.inl hmode) l' hl'
  · rw [h.timers_snoc]
    simp only [timerEvent, Timers.step, timersOf, tickedLists, Function.update_of_ne, ne_eq,
      reduceCtorEq, not_false_eq_true, Function.update_self, List.append_nil, List.filter_map,
      List.map_map]
    have hfilter : (s .delay).filter (!expires k ·) =
        (s .delay).filter ((fun x => decide (x.2 ≠ 1)) ∘ fun p => (p, (k.pcb p).delay_ticks)) :=
      List.filter_congr fun p _ => by simp [expires]
    rw [hfilter]
    refine List.map_congr_left fun p hp => ?_
    have hp := (List.mem_filter.1 hp).1
    have hpcb : k'.pcb p = _ := hcase.pcb_ne (hne p hp)
    simp [hpcb, hp]
  · have hp : p ∈ s .delay ∧ expires k p = false := by simpa [tickedLists] using hp
    obtain ⟨ticks, st, time, hpcb⟩ := hcase.pcb p
    have hregs := h.saved hmode p hp.1 (called_before hcalled (by simp))
    simpa [Kernel.saved, hpcb] using hregs

theorem schedule (h : DelayInv k₀ t k s) (hstep : (trapMachine hw).step k .schedule = some k') :
    ∃ s', DelayInv k₀ (t ++ [(k, .schedule)]) k' s' := by
  obtain ⟨caller, next, q, s', hmode, rfl, hnext, hsteady⟩ := h.steady.schedule hstep
  have hdelay : s' .delay = s .delay := hnext.other (by simp)
  refine ⟨s', hsteady, fun c hsched => ?_, ?_, fun p hp hcalled => Or.inr ?_⟩
  · cases hsched
  · rw [h.timers_snoc]
    exact timersOf_congr hdelay fun p _ => by simp [switched, switchedPcb]
  · rw [hdelay] at hp
    by_cases e : p = k.current_process
    · -- its context is saved now
      subst e
      rcases h.caller caller hmode with ⟨-, hoff⟩ | ⟨-, hregs⟩
      · exact absurd hp (hoff _)
      · simpa [Kernel.saved, switched, switchedPcb] using hregs
    · rcases h.result p hp (called_before hcalled (by simp)) with ⟨-, hcur⟩ | hregs
      · exact absurd hcur.symm e
      · simpa [Kernel.saved, switched, switchedPcb, e] using hregs

theorem resume (h : DelayInv k₀ t k s) (hmode : k.mode = .resumed)
    (hstep : (trapMachine hw).step k .resume = some k') : DelayInv k₀ (t ++ [(k, .resume)]) k' s := by
  obtain ⟨heq, hsteady⟩ := h.steady.resume hmode hstep
  have hpcb : k'.pcb = k.pcb := by rw [heq]
  refine ⟨hsteady, fun c hsched => ?_, ?_, fun p hp hcalled => Or.inr ?_⟩
  · rw [heq] at hsched
    cases hsched
  · rw [h.timers_snoc]
    exact timersOf_congr rfl fun p _ => by rw [hpcb]
  · rcases h.result p hp (called_before hcalled (by simp)) with ⟨hsched, -⟩ | hregs
    · rw [hmode] at hsched
      cases hsched
    · simpa [Kernel.saved, hpcb] using hregs

end DelayInv

theorem delayRun (h₀ : DelayStart k₀)
    (hrun : Run (trapMachine hw) (fun _ e => DelayEvent e) k₀ t k) : ∃ s, DelayInv k₀ t k s := by
  refine hrun.traceInvariant (I := fun t k => ∃ s, DelayInv k₀ t k s) ⟨_, .start h₀⟩ ?_
  rintro t k e k' ⟨s, hinv⟩ hen hevent hstep
  cases e with
  | kernel u c =>
    cases c with
    | delay => exact hinv.delay hen hstep
    | _ => exact hevent.elim
  | clock u => exact ⟨_, hinv.clock hen hstep⟩
  | schedule => exact hinv.schedule hstep
  | resume => exact ⟨_, hinv.resume hen hstep⟩

/-! ## The theorem -/

/-- The timers after a call and the steps that followed it. -/
theorem timers_after {t₁ t₂ : List (Kernel × TrapEvent)} {x : Kernel × TrapEvent} {n : Int}
    {T : List (PcbPtr × Int)} (hx : Delays p n x) (hn : 1 ≤ n) :
    Timers.run T ((t₁ ++ x :: t₂).filterMap timerEvent) =
      Timers.run (Timers.run T (t₁.filterMap timerEvent) ++ [(p, n)]) (t₂.filterMap timerEvent) := by
  rw [List.filterMap_append, Timers.run_append, List.filterMap_cons_some (hx.timerEvent hn)]
  rfl

theorem delays_of_timerEvent {n : Int} {x : Kernel × TrapEvent}
    (h : timerEvent x = some (.set p n)) : Delays p n x ∧ 0 < n := by
  obtain ⟨k, e⟩ := x
  unfold timerEvent at h
  split at h
  · rename_i k u heq
    obtain ⟨rfl, rfl⟩ := Prod.mk.inj heq
    split at h
    · rename_i hlt
      obtain ⟨rfl, rfl⟩ := Timers.Event.set.inj (Option.some.inj h)
      exact ⟨⟨rfl, u, rfl, rfl⟩, hlt⟩
    · cases h
  · cases h
  · cases h

/-- The last step of a run, when it is a tick. -/
theorem delayTick (h₀ : DelayStart k₀) {u : UserContext}
    (hrun : Run (trapMachine hw) (fun _ e => DelayEvent e) k₀ (t ++ [(k', .clock u)]) k) :
    ∃ s, DelayInv k₀ t k' s ∧ k'.mode = .user ∧ ClockCase { k' with uctxt := u } s k ∧
      Coherent k (tickedLists k' s (s .delay) []) := by
  obtain ⟨hearlier, hmode, -, hstep⟩ := hrun.last
  obtain ⟨s, hinv⟩ := delayRun h₀ hearlier
  exact ⟨s, hinv, hmode, hinv.steady.clockCase hmode hstep, (hinv.steady.clock hmode hstep).coherent⟩

/-- In every run of delays, ticks and switches, every delay is exact. -/
theorem delay_exact (h₀ : DelayStart k₀)
    (hrun : Run (trapMachine hw) (fun _ e => DelayEvent e) k₀ t k) : DelayExact t k where
  waits := by
    rintro t₁ x t₂ p n rfl hx hlt
    obtain ⟨s, hinv⟩ := delayRun h₀ hrun
    have htimers := hinv.timers
    rw [timers_after hx (by omega)] at htimers
    rw [clockTicks_eq] at hlt ⊢
    have hmem := Timers.mem_run (List.mem_append_right
      (Timers.run (timersOf k₀ k₀.queue) (t₁.filterMap timerEvent)) (List.mem_singleton_self (p, n))) hlt
    rw [← htimers] at hmem
    obtain ⟨hp, hticks⟩ := mem_timersOf.1 hmem
    exact ⟨hinv.steady.coherent.onList_iff.2 hp, hticks⟩
  wakes := by
    rintro t₁ x t₂ k' u p n rfl hx hn
    obtain ⟨s, hinv, hmode, hcase, hc⟩ := delayTick h₀ hrun
    have htimers := hinv.timers
    rw [timers_after hx (by omega)] at htimers
    rw [clockTicks_eq] at hn
    have hdue := Timers.mem_due (List.mem_append_right
      (Timers.run (timersOf k₀ k₀.queue) (t₁.filterMap timerEvent)) (List.mem_singleton_self (p, n))) hn
    rw [← htimers, due_timersOf] at hdue
    obtain ⟨hp, hexp⟩ := List.mem_filter.1 hdue
    refine ⟨hinv.steady.coherent.onList_iff.2 hp, hc.onList_iff.2 ?_, ?_⟩
    · simp [tickedLists, hp, hexp]
    · obtain ⟨ticks, st, time, hpcb⟩ := hcase.pcb p
      have hregs : (k'.saved p).regs 0 = 0 := by
        rcases hinv.result p hp ⟨x, by simp, n, by omega, hx⟩ with ⟨hsched, -⟩ | hregs
        · rw [hmode] at hsched
          cases hsched
        · exact hregs
      simpa [Kernel.saved, hpcb] using hregs
  once := by
    rintro t₁ x t₂ p n rfl hx hn hle hno hon
    obtain ⟨s, hinv⟩ := delayRun h₀ hrun
    have htimers := hinv.timers
    rw [timers_after hx hn] at htimers
    obtain ⟨b, hbefore, hen, -⟩ := hrun.split
    obtain ⟨s₁, hinv₁⟩ := delayRun h₀ hbefore
    -- the caller was not delayed yet
    have hfree : ∀ m, (p, m) ∉ Timers.run (timersOf k₀ k₀.queue) (t₁.filterMap timerEvent) := by
      intro m hm
      rw [← hinv₁.timers] at hm
      obtain ⟨rfl, u, hu, -⟩ := hx
      rw [hu] at hen
      exact hinv₁.steady.off (Or.inl hen.1) _ (mem_timersOf.1 hm).1
    have hp := hinv.steady.coherent.onList_iff.1 hon
    have hmem : (p, (k.pcb p).delay_ticks) ∈ timersOf k s := mem_timersOf.2 ⟨hp, rfl⟩
    rw [htimers] at hmem
    rw [clockTicks_eq] at hle
    refine Timers.not_mem_run (fun m hm => ?_) (fun m hm => ?_) _ hmem
    · rcases List.mem_append.1 hm with hm | hm
      · exact absurd hm (hfree m)
      · obtain ⟨-, rfl⟩ := Prod.mk.inj (List.mem_singleton.1 hm)
        exact ⟨hn, hle⟩
    · obtain ⟨y, hy, hev⟩ := List.mem_filterMap.1 hm
      obtain ⟨hcall, hpos⟩ := delays_of_timerEvent hev
      have := hno y hy m hcall
      omega
  order := by
    rintro t₁ x t₂ y t₃ k' u p n q m rfl hx hy hnm hm
    obtain ⟨s, hinv, hmode, hcase, hc⟩ := delayTick h₀ hrun
    have htimers := hinv.timers
    rw [timers_after hy (by omega), timers_after hx (by omega)] at htimers
    rw [clockTicks_eq] at hnm hm
    have hset := List.mem_append_right (Timers.run (timersOf k₀ k₀.queue) (t₁.filterMap timerEvent))
      (List.mem_singleton_self (p, n))
    have hlt : Timers.ticks (t₂.filterMap timerEvent) < n := by omega
    have hfirst := Timers.mem_run hset hlt
    rw [show n - (Timers.ticks (t₂.filterMap timerEvent) : Int) = m by omega] at hfirst
    have hpair : [(p, m), (q, m)].Sublist (Timers.run (Timers.run (timersOf k₀ k₀.queue)
        (t₁.filterMap timerEvent) ++ [(p, n)]) (t₂.filterMap timerEvent) ++ [(q, m)]) :=
      (List.singleton_sublist.2 hfirst).append (List.Sublist.refl [(q, m)])
    have hdue := Timers.sublist_due hpair hm
    rw [← htimers, due_timersOf] at hdue
    refine ⟨_, ?_, hdue⟩
    rw [hc.queue_eq, hinv.steady.coherent.queue_eq]
    simp [tickedLists]
  others := by
    rintro t₁ k' e p rfl hon hne
    obtain ⟨hearlier, hen, hevent, hstep⟩ := hrun.last
    obtain ⟨s, hinv⟩ := delayRun h₀ hearlier
    have hp := hinv.steady.coherent.onList_iff.1 hon
    cases e with
    | kernel u c =>
      cases c with
      | delay =>
        have hc : Coherent { k' with uctxt := u } s := hinv.steady.coherent.congr rfl rfl fun _ => rfl
        rcases sysDelay_cases hc (hinv.steady.off (Or.inl hen.1)) hen.2.1 hstep with ⟨-, v, rfl⟩ | ⟨-, q, rfl, -⟩
        · rfl
        · simp [delaying, TrapEvent.isClock, hne]
      | _ => exact hevent.elim
    | clock u =>
      obtain ⟨s₁, hinv₁, -, hcase, -⟩ := delayTick h₀ hrun
      have hp₁ := hinv₁.steady.coherent.onList_iff.1 hon
      have hst := hinv₁.steady.coherent.listed _ p hp₁
      rw [hcase.pcb_ne hne]
      simp [hp₁, hst, TrapEvent.isClock, expires, QueueId.state]
    | schedule =>
      obtain ⟨caller, next, q, s', hmode, rfl, hnext, -⟩ := hinv.steady.schedule hstep
      have hnne : p ≠ next := hnext.ne hinv.steady.coherent (by simp) hp
      simp [switched, switchedPcb, TrapEvent.isClock, hne, hnne]
    | resume =>
      obtain ⟨heq, -⟩ := hinv.steady.resume hen hstep
      rw [heq]
      rfl

/-- The kernel is booted into such a state. -/
theorem Booted.delayStart {b : Boot hw} (h : Booted b k) : DelayStart k where
  coherent := h.syncStart.coherent
  mode := h.mode
  current := by
    refine h.syncStart.coherent.offQueues_iff_state.2 (Or.inr ?_)
    rw [h.current]
    exact h.state_idle
  plain p := by
    by_cases e : p = b.init_pcb
    · rw [e, h.context_init]
      trivial
    · rw [h.context_other p e]
      trivial

/-- The init process asks for two ticks and gets them. -/
def delayEvents : List TrapEvent :=
  let u := Boot.small.uctxt
  [.clock u, .clock u, .schedule, .resume, .kernel (u.setReg0 2) .delay, .schedule, .resume, .clock u,
    .clock u]

def delayKernel : Kernel := ((trapMachine .small).exec Boot.smallKernel delayEvents).get (by decide +kernel)

theorem delay_exact_small : delayKernel.queue .ready = [101] ∧
    DelayExact ((trapMachine .small).trace Boot.smallKernel delayEvents) delayKernel := by
  have hevents : ∀ e ∈ delayEvents, DelayEvent e := by simp [delayEvents, DelayEvent]
  have hen : ∀ x ∈ (trapMachine .small).trace Boot.smallKernel delayEvents,
      (trapMachine .small).enabled x.1 x.2 := by
    decide +kernel
  exact ⟨by decide +kernel, delay_exact Boot.smallKernel_booted.delayStart <|
    Run.ofExec (Option.some_get _).symm fun x hx => ⟨hen x hx, hevents x.2 (System.mem_trace hx)⟩⟩

end Yalnix
