import Yalnix.LifeRun
import Yalnix.Proofs.CallStep

/-!
# The saved context of a process that waits

A step writes to the saved context of a process on a list in two ways only: a pipe call finishes the
transfer of the process, or its child exits; both leave it on the ready queue, where nothing writes to
its context any more.
-/

namespace Yalnix

open Intrusive Transition

variable {hw : Hardware} {k k' k₀ k₁ : Kernel} {s s' : QueueId → List PcbPtr} {e : CallEvent}
  {p n : PcbPtr} {l : QueueId} {T : WaitList → Prop} {t t' : List (Kernel × CallEvent)}

/-- What the calls of `sync.c` by `p` do to the context of another process, which is on the list `l`. -/
theorem SyncMoves.saved (h : SyncMoves p T k s k' s') (hc : Coherent k s) (hn : n ∈ s l) (hne : n ≠ p) :
    (k'.saved n = k.saved n ∧ (n ∈ s' l ∨ n ∈ s' .ready)) ∨
    ∃ w v, l = .wait w ∧ w.type = .pipe ∧ T w ∧ k'.saved n = (k.saved n).setReg0 v ∧
      n ∈ s' .ready := by
  induction h generalizing l with
  | refl => exact Or.inl ⟨rfl, Or.inl hn⟩
  | @head k k₁ k' s s₁ s' hmove hrest ih =>
    -- a move that leaves the context alone, and the process where it is
    have hkeep : k₁.pcb n = k.pcb n → n ∈ s₁ l → (k'.saved n = k.saved n ∧ (n ∈ s' l ∨ n ∈ s' .ready)) ∨
        ∃ w v, l = .wait w ∧ w.type = .pipe ∧ T w ∧ k'.saved n = (k.saved n).setReg0 v ∧
          n ∈ s' .ready := by
      intro hpcb hn₁
      have hsaved : k₁.saved n = k.saved n := by rw [Kernel.saved, hpcb, Kernel.saved]
      rw [← hsaved]
      exact ih hmove.coherent hn₁
    cases hmove with
    | own htouch => exact hkeep (htouch.others n hne) hn
    | @block w htouch =>
      refine hkeep (htouch.others n hne) ?_
      by_cases e : l = .wait w
      · subst e
        simp [hn]
      · rwa [Function.update_of_ne e]
    | @wake w q xs htouch hs hT hids hreg =>
      by_cases e : n = q
      · subst e
        -- from the ready queue it is not moved again
        have hl : l = .wait w := hc.unique hn (show n ∈ s (.wait w) by simp [hs])
        have hready : n ∈ woken s w n xs .ready := by simp
        rcases ih htouch.coherent hready with ⟨hsaved, hr⟩ | ⟨_, _, hno, -⟩
        · have hr : n ∈ s' .ready := hr.elim id id
          rcases hreg with heq | ⟨htype, v, heq⟩
          · exact Or.inl ⟨hsaved.trans heq, Or.inr hr⟩
          · exact Or.inr ⟨w, v, hl, htype, hT, hsaved.trans heq, hr⟩
        · cases hno
      · refine hkeep (htouch.others n e) ?_
        by_cases hr : l = .ready
        · subst hr
          simp [hn]
        · by_cases hw : l = .wait w
          · subst hw
            rw [hs, List.mem_cons] at hn
            rw [woken_self]
            exact hn.resolve_left e
          · simpa [woken, hr, hw] using hn
    | @refill w q htouch hq hids hreg =>
      by_cases e : n = q
      · subst e
        have hsaved : k₁.saved n = k.saved n := hreg
        rw [← hsaved]
        exact ih htouch.coherent hn
      · exact hkeep (htouch.others n e) hn

theorem Released.saved {status : Int} (h : Released hw k status k₁) (n : PcbPtr) :
    k₁.saved n = k.saved n := by
  unfold Kernel.saved
  by_cases e : n = k.current_process
  · obtain ⟨_, -, hpcb⟩ := h.current
    rw [e, hpcb]
  · rcases h.other n e with hpcb | hpcb <;> rw [hpcb]

/-- What one step does to the context of a process on the list `l`. -/
inductive StepContext (n : PcbPtr) (k : Kernel) (e : CallEvent) (l : QueueId) (k' : Kernel)
    (s' : QueueId → List PcbPtr) : Prop where
  | kept (hsaved : k'.saved n = k.saved n)
      (hready : l = .ready → n ∈ s' .ready ∨ ∀ l', n ∉ s' l')
  | completed (v : Int) (hcompletes : Completes n k e) (hl : l ≠ .ready)
      (hsaved : k'.saved n = (k.saved n).setReg0 v) (hready : n ∈ s' .ready)

theorem CallCase.context (hcase : CallCase hw k s e k' s') (h : CallInv k s)
    (hen : (callMachine hw).enabled k e) (hok : KeepsContexts k e) (hn : n ∈ s l)
    (hcurrent : ∀ caller, e = .schedule caller → k.current_process ≠ n) :
    StepContext n k e l k' s' := by
  have hc := h.coherent
  have hcaller : ∀ q, k.MayCall q → n ≠ q := by
    rintro q hq rfl
    exact hc.offQueues_iff.1 hq.1 l hn
  have hstay : ∀ l', l' ≠ .ready → ∀ xs, l = .ready → n ∈ Function.update s l' xs .ready ∨
      ∀ l'', n ∉ Function.update s l' xs l'' := by
    rintro l' hl' xs rfl
    rw [Function.update_of_ne hl'.symm]
    exact Or.inl hn
  cases hcase with
  | @sync p c k' s' hmoves =>
    have hc₁ : Coherent { k with current_process := p } s := hc.congr rfl rfl fun _ => rfl
    rcases hmoves.saved hc₁ hn (hcaller p hen) with ⟨hsaved, hr⟩ | ⟨w, v, rfl, htype, hT, hsaved, hr⟩
    · refine .kept hsaved ?_
      rintro rfl
      exact Or.inl (hr.elim id id)
    · exact .completed v (.pipe htype hT (hc.onList_iff.2 hn)) (by simp) hsaved hr
  | quiet => exact .kept rfl fun hl => Or.inl (hl ▸ hn)
  | @refork p child u =>
    refine .kept ?_ fun hl => Or.inl (hl ▸ hn)
    simp [Kernel.saved, Kernel.returnValue, Kernel.modifyPcb, Kernel.enter, hcaller p hen.1]
  | @fork p child u m pt stack family q hoff =>
    have hne : n ≠ child := by
      rintro rfl
      exact hoff l hn
    refine .kept (by simp [Kernel.saved, forked, Kernel.enter, hne]) ?_
    rintro rfl
    exact Or.inl (by simp [hn])
  | @delays p u q =>
    refine .kept ?_ (hstay .delay (by simp) _)
    simp [Kernel.saved, delaying, Kernel.enter, hcaller p hen.1]
  | @waits p u kstatus_ptr q =>
    refine .kept ?_ (hstay .blocked (by simp) _)
    simp [Kernel.saved, waitingForChild, Kernel.enter, hcaller p hen.1]
  | @reaps p z u kstatus_ptr q =>
    refine .kept ?_ (hstay .zombie (by simp) _)
    by_cases e : n = z
    · subst e
      simp [Kernel.saved, reaped, Kernel.enter]
    · simp [Kernel.saved, reaped, Kernel.enter, e]
  | @dies p u k₁ q hrel =>
    refine .kept ?_ (hstay .zombie (by simp) _)
    rw [← show (k₁.saved n) = k.saved n from hrel.saved n]
    simp [Kernel.saved, Kernel.callSchedule, Kernel.setState, Kernel.modifyPcb, hcaller p hen.1]
  | @notifies p parent u k₁ q st s' hrel hne hnidle hparent hwaiting hcase =>
    have hsaved₁ : k₁.saved n = k.saved n := hrel.saved n
    by_cases e : n = parent
    · subst e
      have hst : (k₁.pcb n).state = l.state := (hrel.state hne).trans (hc.listed l n hn)
      have hpar : (k.pcb p).parent = some n := hrel.parent hparent
      have hflag : (k.pcb n).waiting_for_children ≠ 0 := fun h0 => hwaiting ((hrel.waiting n).trans h0)
      have hl : l = .blocked := hc.unique hn (hc.onList_iff.1 (hok.2.2 n hpar hflag))
      subst hl
      cases hcase with
      | waits =>
        refine .completed (k₁.pcb p).pid (.child hpar (hc.onList_iff.2 hn)) (by simp) ?_ (by simp)
        rw [← hsaved₁]
        simp [Kernel.saved, Kernel.callSchedule, notified]
      | nowhere hst' => simp [hst, QueueId.state] at hst'
      | elsewhere _ hst' => simp [hst, QueueId.state] at hst'
    · refine .kept ?_ ?_
      · rw [← hsaved₁]
        simp [Kernel.saved, Kernel.callSchedule, notified, e]
      · rintro rfl
        left
        cases hcase with
        | waits => simp [hn]
        | nowhere => simp [hn]
        | elsewhere => exact hn
  | @clock u k' hcase =>
    obtain ⟨ticks, st, time, hpcb⟩ := hcase.pcb n
    refine .kept (by simp [Kernel.saved, hpcb]) ?_
    rintro rfl
    exact Or.inl (by simp [tickedLists, hn])
  | @schedule caller next q s' hnext =>
    have hne := (hcurrent caller rfl).symm
    refine .kept (by simp [Kernel.saved, switched, switchedPcb, hne]) ?_
    rintro rfl
    cases hnext with
    | idle => exact Or.inl hn
    | @ready m xs hs =>
      rw [hs, List.mem_cons] at hn
      rcases hn with rfl | hn
      · -- it is dispatched
        right
        intro l' hl'
        obtain ⟨q', hpop, htr⟩ := hc.pop_cons hs
        exact htr.free l' hl'
      · exact Or.inl (by simpa using hn)
  | store => exact .kept rfl fun hl => Or.inl (hl ▸ hn)
  | reclaimError => exact hok.2.1.elim
  | reclaims => exact hok.2.1.elim

/-- One more step of the others. -/
theorem ContextKept.snoc (h : ContextKept n k₁ t k) (hinv : CallInv k s)
    (hen : (callMachine hw).enabled k e) (hok : KeepsContexts k e)
    (hstep : (callMachine hw).step k e = some k') (hwaits : Waits n (k, e)) :
    ContextKept n k₁ (t ++ [(k, e)]) k' := by
  obtain ⟨s', hcase⟩ := callStep_cases hinv hen hok.1 hstep
  have hc' := (hcase.inv hinv hen hok.1).coherent
  obtain ⟨⟨l, hon⟩, hcurrent⟩ := hwaits
  have hctx := hcase.context hinv hen hok (hinv.coherent.onList_iff.1 hon) hcurrent
  have hready : n ∈ s' .ready → ∀ l', k'.queues.OnList l' n → l' = .ready := fun hr l' hl' =>
    hc'.unique (hc'.onList_iff.1 hl') hr
  cases h with
  | kept hsteps hlast =>
    have hall : ∀ x ∈ t ++ [(k, e)], x.1.saved n = k₁.saved n := by
      intro x hx
      rcases List.mem_append.1 hx with hx | hx
      · exact hsteps x hx
      · obtain rfl := List.mem_singleton.1 hx
        exact hlast
    cases hctx with
    | kept hsaved => exact .kept hall (hsaved.trans hlast)
    | completed v hcompletes hl hsaved hr =>
      have ht : t ++ [(k, e)] = t ++ (k, e) :: [] := rfl
      exact .completed v ht hcompletes hall (by simp) ⟨by rw [hsaved, hlast], hready hr⟩
  | completed v ht hcompletes hbefore hafter hlast =>
    obtain rfl := hlast.2 l hon
    cases hctx with
    | completed _ _ hl => exact absurd rfl hl
    | kept hsaved hr =>
      refine .completed v (by rw [ht, List.append_assoc, List.cons_append]) hcompletes hbefore
        (fun y hy => ?_) ⟨hsaved.trans hlast.1, fun l' hl' => ?_⟩
      · rcases List.mem_append.1 hy with hy | hy
        · exact hafter y hy
        · obtain rfl := List.mem_singleton.1 hy
          exact ⟨hlast.1, hon⟩
      · rcases hr rfl with hr | hoff
        · exact hready hr l' hl'
        · exact absurd (hc'.onList_iff.1 hl') (hoff l')

/-- In every run whose exits wake only parents that wait for a child, and from any state of it on: as long
as a process waits on a list, its saved context stays as it is, but for `regs[0]`, which at most one step
writes: the one that completes the call in which the process is blocked. -/
theorem saved_context_private (h₀ : CallStart k₀) (hrun : Run (callMachine hw) KeepsContexts k₀ t k)
    (hrest : Run (callMachine hw) KeepsContexts k t' k') (hwaits : ∀ x ∈ t', Waits n x) :
    ContextKept n k t' k' := by
  induction hrest with
  | nil => exact .kept (by simp) rfl
  | snoc hearlier hen hok hstep ih =>
    have hinv := callRun h₀ (fun _ _ h => h.1) (hrun.trans hearlier)
    exact (ih fun x hx => hwaits x (List.mem_append_left _ hx)).snoc hinv hen hok hstep
      (hwaits _ (by simp))

/-- Events without an exit are a run whose exits wake only parents that wait for a child. -/
theorem CallInv.execQuiet {es : List CallEvent} (h : CallInv k₀ s)
    (hexec : (callMachine hw).exec k₀ es = some k)
    (hok : ∀ x ∈ (callMachine hw).trace k₀ es, callAllowed x.1 x.2 = true ∧ keepsQueues x.1 x.2 = true)
    (hes : ∀ e ∈ es, e.Keeps ∧ ∀ p u, e ≠ .handler p u .exit) :
    Run (callMachine hw) KeepsContexts k₀ ((callMachine hw).trace k₀ es) k := by
  refine h.exec hexec hok (fun x hx hkeeps => ⟨hkeeps, (hes x.2 (System.mem_trace hx)).1, ?_⟩)
    fun _ _ h => h.1
  have hno := (hes x.2 (System.mem_trace hx)).2
  unfold ExitWakes
  split
  · rename_i heq
    exact absurd heq (hno _ _)
  · trivial

/-- The registers of a call with `v` in `regs[0]`. -/
def calledWith (v : Int) : UserContext := Boot.small.uctxt.setReg0 v

/-- `102` is blocked for a child, and its child `104` runs. -/
def blockedEvents : List CallEvent :=
  let u := Boot.small.uctxt
  [.handler 102 u (.fork 104), .handler 102 u (.fork 105), .handler 102 (calledWith 8) (.wait 7),
    .schedule (.sysWait 8 7), .schedule .clockHandler]

def blockedKernel : Kernel :=
  ((callMachine .small).exec Boot.smallProcesses blockedEvents).get (by decide +kernel)

def childExit (child : PcbPtr) : CallEvent := .handler child Boot.small.uctxt .exit

def wokenKernel : Kernel := ((callMachine .small).step blockedKernel (childExit 104)).get (by decide +kernel)

theorem blockedKernel_run : Run (callMachine .small) KeepsContexts Boot.smallProcesses
    ((callMachine .small).trace Boot.smallProcesses blockedEvents) blockedKernel :=
  Boot.smallProcesses_callStart.inv.execQuiet (Option.some_get _).symm (by decide +kernel)
    (by simp [blockedEvents, CallEvent.Keeps])

/-- The exit of `104` wakes only `102`. -/
theorem wokenKernel_run :
    Run (callMachine .small) KeepsContexts blockedKernel [(blockedKernel, childExit 104)] wokenKernel ∧
    Waits 102 (blockedKernel, childExit 104) := by
  have hinv := callRun Boot.smallProcesses_callStart (fun _ _ h => h.1) blockedKernel_run
  have hblocked : 102 ∈ blockedKernel.queue .blocked := by decide +kernel
  have hparent : (blockedKernel.pcb 104).parent = some 102 := by decide +kernel
  have hwakes : ExitWakes blockedKernel (childExit 104) := by
    intro parent hpar _
    obtain rfl := Option.some.inj (hparent.symm.trans hpar)
    exact hinv.coherent.onList_iff.2 hblocked
  have hok : KeepsContexts blockedKernel (childExit 104) :=
    ⟨hinv.keeps (by decide +kernel), trivial, hwakes⟩
  exact ⟨Run.nil.snoc (hinv.enabled (by decide +kernel)) hok (Option.some_get _).symm,
    ⟨_, hinv.coherent.onList_iff.2 hblocked⟩, by simp [childExit]⟩

theorem saved_context_private_small :
    ContextKept 102 blockedKernel [(blockedKernel, childExit 104)] wokenKernel ∧
    (wokenKernel.saved 102).regs 0 = (blockedKernel.pcb 104).pid :=
  ⟨saved_context_private Boot.smallProcesses_callStart blockedKernel_run wokenKernel_run.1
    (by simpa using wokenKernel_run.2), by decide +kernel⟩

/-- Then `105` delays for five ticks and `102` for a hundred, and `105` is woken. -/
def delayedEvents : List CallEvent :=
  let u := Boot.small.uctxt
  [.schedule .sysExit, .handler 105 (calledWith 5) .delay, .schedule .sysDelay,
    .handler 102 (calledWith 100) .delay, .schedule .sysDelay, .clock u, .clock u, .clock u, .clock u,
    .clock u, .schedule .clockHandler]

def delayedKernel : Kernel :=
  ((callMachine .small).exec wokenKernel delayedEvents).get (by decide +kernel)

def overwrittenKernel : Kernel :=
  ((callMachine .small).step delayedKernel (childExit 105)).get (by decide +kernel)

theorem delayedKernel_run : Run (callMachine .small) KeepsContexts wokenKernel
    ((callMachine .small).trace wokenKernel delayedEvents) delayedKernel :=
  have hinv := callRun Boot.smallProcesses_callStart (fun _ _ h => h.1)
    (blockedKernel_run.trans wokenKernel_run.1)
  hinv.execQuiet (Option.some_get _).symm (by decide +kernel) (by simp [delayedEvents, CallEvent.Keeps])

/-- The exit of `105` writes to the context of `102`, which is in the delay queue. -/
theorem saved_context_private_fails : ∃ t k t' k', Run (callMachine .small) (fun _ e => e.Keeps)
    Boot.smallProcesses t k ∧ Run (callMachine .small) (fun _ e => e.Keeps) k t' k' ∧
    (∀ x ∈ t', Waits 102 x) ∧ ¬ ContextKept 102 k t' k' := by
  have hrun := (blockedKernel_run.trans wokenKernel_run.1).trans delayedKernel_run
  have hinv := callRun Boot.smallProcesses_callStart (fun _ _ h => h.1) hrun
  have hdelayed : 102 ∈ delayedKernel.queue .delay := by decide +kernel
  have hen : (callMachine .small).enabled delayedKernel (childExit 105) := hinv.enabled (by decide +kernel)
  have hlast : Run (callMachine .small) (fun _ e => e.Keeps) delayedKernel
      [(delayedKernel, childExit 105)] overwrittenKernel :=
    Run.nil.snoc hen trivial (Option.some_get _).symm
  refine ⟨_, _, _, _, hrun.mono fun _ _ h => h.2.1, hlast, ?_, fun hkept => ?_⟩
  · intro x hx
    obtain rfl := List.mem_singleton.1 hx
    exact ⟨⟨_, hinv.coherent.onList_iff.2 hdelayed⟩, by simp [childExit]⟩
  · cases hkept with
    | kept _ hsaved =>
      have hregs : (overwrittenKernel.saved 102).regs 0 ≠ (delayedKernel.saved 102).regs 0 := by
        decide +kernel
      exact hregs (by rw [hsaved])
    | @completed t₁ t₂ x v ht hcompletes =>
      have hx : x ∈ [(delayedKernel, childExit 105)] := ht ▸ List.mem_append_right _ List.mem_cons_self
      obtain rfl := List.mem_singleton.1 hx
      cases hcompletes with
      | child hq hp => cases hinv.coherent.unique (hinv.coherent.onList_iff.1 hp) hdelayed

end Yalnix
