import Yalnix.LifeRun
import Yalnix.Proofs.CallStep

/-!
# Queues over whole runs

While the lists are well-formed and the states say where the processes are, a removal that passes its
state check finds its process, with one exception: `PROCESS_BLOCKED` does not tell the blocked queue from
a wait list.
-/

namespace Yalnix

open Intrusive Transition

variable {hw : Hardware} {k k' k₀ : Kernel} {s s' : QueueId → List PcbPtr} {e : CallEvent} {p : PcbPtr}
  {t : List (Kernel × CallEvent)}

/-- A process in a state that belongs to one queue is found there. -/
theorem Coherent.finds (hc : Coherent k s) {l : QueueId} (hl : l = .ready ∨ l = .delay ∨ l = .zombie) :
    Removal.Finds ⟨l, k, p⟩ :=
  fun hst => hc.onList_iff.2 (hc.mem_of_state hl hst)

/-! ## The handlers -/

theorem delayRemovals_node (n : Nat) : delayRemovals (n + 1) (some (.node p)) k =
    (if expires k p then
      [⟨.delay, k.modifyPcb p fun pcb => { pcb with delay_ticks := pcb.delay_ticks - 1 }, p⟩] else []) ++
    match tickProcess k p with
    | some k' => delayRemovals n (k.queues.next (.node p)) k'
    | none => [] := by
  have hexp : ((k.modifyPcb p fun pcb => { pcb with delay_ticks := pcb.delay_ticks - 1 }).pcb p).delay_ticks
      = 0 ↔ expires k p = true := by
    simp only [Kernel.modifyPcb, Function.update_self, expires, decide_eq_true_eq]
    omega
  rw [delayRemovals, tickProcess]
  simp only [hexp]
  split <;> rfl

theorem delayRemovals_find (hnd : (s .delay).Nodup) (xs ys : List PcbPtr) (q : Heap QueueId PcbPtr)
    (hs : s .delay = xs ++ ys) (hc : Coherent (ticked k xs q) (tickedLists k s xs ys)) :
    ∀ r ∈ delayRemovals ys.length (some (firstNode .delay ys)) (ticked k xs q), r.Finds := by
  induction ys generalizing xs q with
  | nil =>
    intro r hr
    cases hr
  | cons p ys ih =>
    have hpxs : p ∉ xs := fun hm => by
      rw [hs] at hnd
      exact (List.nodup_append.1 hnd).2.2 p hm p List.mem_cons_self rfl
    have hdelay : tickedLists k s xs (p :: ys) .delay = xs.filter (!expires k ·) ++ p :: ys := by
      simp [tickedLists]
    have hmem : p ∈ tickedLists k s xs (p :: ys) .delay := by simp [hdelay]
    have hl := hc.rep.linked .delay (Set.mem_univ _)
    rw [hdelay, Heap.linked_append_cons] at hl
    have hs' : s .delay = (xs ++ [p]) ++ ys := by rw [hs]; simp
    have hexp : expires (ticked k xs q) p = expires k p := by simp [expires, ticked, hpxs]
    intro r hr
    rw [List.length_cons, firstNode, delayRemovals_node, next_eq_firstNode hl.2, List.mem_append] at hr
    rcases hr with hr | hr
    · -- the process itself is on the queue
      split at hr
      · obtain rfl := List.mem_singleton.1 hr
        exact fun _ => hc.onList_iff.2 hmem
      · cases hr
    · rcases hc.tickProcess hmem with ⟨he, k', hrun, heq, hc'⟩ | ⟨he, q', hrun, hc'⟩
      · rw [hexp] at he
        rw [heq, ticked_append hpxs, tickedLists_keep he] at hc'
        rw [hrun, heq, ticked_append hpxs] at hr
        exact ih _ _ hs' hc' r hr
      · rw [hexp] at he
        rw [ticked_append hpxs, tickedLists_expire he hpxs] at hc'
        rw [hrun, ticked_append hpxs] at hr
        exact ih _ _ hs' hc' r hr

theorem Coherent.updateRemovals (hc : Coherent k s) : ∀ r ∈ updateRemovals k, r.Finds := by
  have hzero : ticked k [] k.queues = k := by
    apply Kernel.ext <;> try rfl
  have hs : tickedLists k s [] (s .delay) = s := by simp [tickedLists]
  intro r hr
  unfold Yalnix.updateRemovals at hr
  split at hr
  · cases hr
  · rw [hc.count, Int.toNat_natCast, next_eq_firstNode (hc.rep.linked .delay (Set.mem_univ _))] at hr
    have hfind := delayRemovals_find (k := k) (hc.rep.nodup _) [] (s .delay) k.queues rfl
      (by rwa [hzero, hs])
    rw [hzero] at hfind
    exact hfind r hr

theorem Coherent.waitRemovals (hc : Coherent k s) : ∀ r ∈ waitRemovals k, r.Finds := by
  intro r hr
  unfold Yalnix.waitRemovals at hr
  split at hr
  · cases hr
  · split at hr
    · obtain rfl := List.mem_singleton.1 hr
      exact hc.finds (Or.inr (Or.inr rfl))
    · cases hr

theorem Coherent.terminateRemovals (hc : Coherent k s) (hoff : ∀ l, k.current_process ∉ s l)
    (hfits : ExitFits k k.current_process) {status : Int} :
    ∀ r ∈ terminateRemovals hw k k.current_process status, r.Finds := by
  intro r hr
  unfold Yalnix.terminateRemovals at hr
  split at hr
  · cases hr
  · rename_i k₁ hrel
    have hr₁ := releaseProcess_released hrel
    have hc₁ := hr₁.coherent hc hoff
    have hst : (k₁.pcb k.current_process).state = .processDefault := by
      obtain ⟨_, -, heq⟩ := hr₁.current
      rw [heq]
    -- the caller is in the default state, so it is removed from no queue
    have hleave : leaveQueue k₁ k.current_process = k₁ ∧
        leaveRemovals k₁ k.current_process = [] := by
      unfold leaveQueue leaveRemovals
      rw [hst]
      exact ⟨rfl, rfl⟩
    rw [hleave.1, hleave.2, List.nil_append] at hr
    simp only at hr
    split at hr
    · rename_i parent hparent
      split at hr
      · rename_i hwaiting
        obtain rfl := List.mem_singleton.1 hr
        intro hblocked
        have hpar := hr₁.parent hparent
        have hne : parent ≠ k.current_process := by
          rintro rfl
          have hblocked : (k₁.pcb k.current_process).state = .processBlocked := hblocked
          rw [hst] at hblocked
          cases hblocked
        refine hc₁.onList_iff.2 (hc.onList_iff.1 (hfits parent hpar ?_ ?_))
        · rwa [← hr₁.waiting]
        · exact (hr₁.state hne).symm.trans hblocked
      · cases hr
    · cases hr

/-! ## Runs -/

/-- The removals of a step that keeps the queues find their processes. -/
theorem CallInv.removals (h : CallInv k s) (hen : (callMachine hw).enabled k e) (hok : KeepsQueues k e) :
    ∀ r ∈ removals hw k e, r.Finds := by
  have hc : ∀ q u, Coherent { k with current_process := q, uctxt := u } s := fun _ _ =>
    h.coherent.congr rfl rfl fun _ => rfl
  cases e with
  | handler p u c =>
    cases c with
    | wait kstatus_ptr => exact (hc p u).waitRemovals
    | exit =>
      exact (hc p u).terminateRemovals (h.coherent.offQueues_iff.1 hen.1.1) hok
    | fork => simp [Yalnix.removals]
    | delay => simp [Yalnix.removals]
  | clock u =>
    have hclock : Coherent { k with uctxt := u } s := h.coherent.congr rfl rfl fun _ => rfl
    exact hclock.updateRemovals
  | sync => simp [Yalnix.removals]
  | schedule => simp [Yalnix.removals]
  | store => simp [Yalnix.removals]
  | reclaim => simp [Yalnix.removals]

/-- In every run without `SyncReclaim` whose exits fit and whose forks get addresses that are on no
list, all lists stay well-formed circles without a common node, and every removal that passes its state
check finds its process on the queue it names. -/
theorem queues_stay_whole (h₀ : CallStart k₀)
    (hrun : Run (callMachine hw) (fun k e => KeepsQueues k e ∧ e.Keeps) k₀ t k) :
    k.queues.WellFormed Set.univ ∧ ∀ x ∈ t, ∀ r ∈ removals hw x.1 x.2, r.Finds := by
  refine ⟨⟨_, (callRun h₀ (fun _ _ h => h.1) hrun).coherent.rep⟩, ?_⟩
  induction hrun with
  | nil =>
    intro x hx
    cases hx
  | snoc hrun hen hok hstep ih =>
    intro x hx
    rcases List.mem_append.1 hx with hx | hx
    · exact ih x hx
    · obtain rfl := List.mem_singleton.1 hx
      exact (callRun h₀ (fun _ _ h => h.1) hrun).removals hen hok.1

/-- `102` has the children `104` and `105`, waits for one, and is woken by the exit of `104`. -/
def familyEvents : List CallEvent :=
  let u := Boot.small.uctxt
  [.handler 102 u (.fork 104), .handler 102 u (.fork 105), .handler 102 (u.setReg0 8) (.wait 7),
    .schedule (.sysWait 8 7), .schedule .clockHandler, .handler 104 u .exit]

def familyKernel : Kernel := ((callMachine .small).exec Boot.smallProcesses familyEvents).get (by decide +kernel)

theorem queues_stay_whole_small : familyKernel.queues.WellFormed Set.univ ∧
    ∀ x ∈ (callMachine .small).trace Boot.smallProcesses familyEvents,
      ∀ r ∈ removals .small x.1 x.2, r.Finds := by
  have hev : ∀ e ∈ familyEvents, e.Keeps := by simp [familyEvents, CallEvent.Keeps]
  exact queues_stay_whole Boot.smallProcesses_callStart <|
    Boot.smallProcesses_callStart.exec (k := familyKernel) (Option.some_get _).symm
      (by decide +kernel) (fun x hx hok => ⟨hok, hev x.2 (System.mem_trace hx)⟩) fun _ _ h => h.1

/-- From a sentinel that links to itself no node is reached. -/
theorem not_onList_of_next_head {q : Heap QueueId PcbPtr} {l : QueueId}
    (hnext : q.next (.head l) = some (.head l)) : ¬ q.OnList l p := by
  intro hon
  have key : ∀ r, Relation.ReflTransGen (fun a b => q.next a = some b) (.head l) r → r = .head l := by
    intro r hr
    induction hr with
    | refl => rfl
    | tail _ hstep ih =>
      rw [ih, hnext] at hstep
      exact (Option.some.inj hstep).symm
  cases key _ hon

/-- After that `105` sleeps for a tick, and `102`, whose `waiting_for_children` is still set, calls `Delay(0)` and
then waits for the lock of `103`. -/
def staleEvents : List CallEvent :=
  let u := Boot.small.uctxt
  familyEvents ++ [.sync 103 (.initLock 8 true), .sync 103 (.lockAcquire 0), .schedule .sysExit,
    .handler 105 (u.setReg0 1) .delay, .schedule .sysDelay, .handler 102 u .delay,
    .sync 102 (.lockAcquire 0), .schedule .sysLockAcquire, .clock u, .schedule .clockHandler]

def staleKernel : Kernel := ((callMachine .small).exec Boot.smallProcesses staleEvents).get (by decide +kernel)

/-- When `105` exits, `102` passes the check of `remove_from_blocked_queue`, and is not on that queue. -/
theorem queues_stay_whole_fails : ∃ t k, Run (callMachine .small) (fun _ e => e.Keeps)
    Boot.smallProcesses t k ∧ ¬ ∀ x ∈ t, ∀ r ∈ removals .small x.1 x.2, r.Finds := by
  have hev : ∀ e ∈ staleEvents, e.Keeps := by simp [staleEvents, familyEvents, CallEvent.Keeps]
  have hrun := Boot.smallProcesses_callStart.exec (k := staleKernel)
    (P := fun k e => KeepsQueues k e ∧ e.Keeps) (Option.some_get _).symm (by decide +kernel)
    (fun x hx hok => ⟨hok, hev x.2 (System.mem_trace hx)⟩) fun _ _ h => h.1
  have hinv := callRun Boot.smallProcesses_callStart (fun _ _ h => h.1) hrun
  have hen : (callMachine .small).enabled staleKernel (.handler 105 Boot.small.uctxt .exit) :=
    hinv.enabled (by decide +kernel)
  obtain ⟨k', hstep⟩ : ∃ k', (callMachine .small).step staleKernel
      (.handler 105 Boot.small.uctxt .exit) = some k' := Option.isSome_iff_exists.1 (by decide +kernel)
  refine ⟨_, k', (hrun.mono fun _ _ h => h.2).snoc hen trivial hstep, fun hfinds => ?_⟩
  have hlast := hfinds (staleKernel, .handler 105 Boot.small.uctxt .exit) (by simp)
  -- the blocked queue is empty when the exit takes `102` from it
  have hr : ∃ r ∈ removals .small staleKernel (.handler 105 Boot.small.uctxt .exit),
      (r.state.pcb r.process).state = r.queue.state ∧
      r.state.queues.next (.head r.queue) = some (.head r.queue) := by
    decide +kernel
  obtain ⟨r, hr, hst, hnext⟩ := hr
  exact not_onList_of_next_head hnext (hlast r hr hst)

end Yalnix
