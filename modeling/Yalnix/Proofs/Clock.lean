import Yalnix.Proofs.Fork

/-!
# Ticks

What `update_delayed_processes` does to the delay queue, and what the clock handler does after it.
-/

namespace Yalnix

open Intrusive Heap

variable {hw : Hardware} {k k' : Kernel} {s s' : QueueId → List PcbPtr} {p : PcbPtr}

/-! ## update_delayed_processes -/

/-- The body of the loop of `update_delayed_processes`, for the process `p`. -/
def tickProcess (k : Kernel) (p : PcbPtr) : Option Kernel :=
  let k := k.modifyPcb p fun pcb => { pcb with delay_ticks := pcb.delay_ticks - 1 }
  if (k.pcb p).delay_ticks = 0 then addToReadyQueue (removeFromDelayQueue k p) p else some k

theorem updateDelayedLoop_node (n : Nat) : updateDelayedLoop (n + 1) (some (.node p)) k =
    (tickProcess k p).bind (updateDelayedLoop n (k.queues.next (.node p))) := by
  rw [updateDelayedLoop, tickProcess]
  simp only [Option.bind_eq_bind]
  split <;> rfl

/-- The tick is the last that `p` waits for. -/
def expires (k : Kernel) (p : PcbPtr) : Bool := (k.pcb p).delay_ticks = 1

/-- The state after a tick that the delayed processes `xs` have seen. -/
def ticked (k : Kernel) (xs : List PcbPtr) (q : Heap QueueId PcbPtr) : Kernel :=
  { k with
    pcb := fun p => if p ∈ xs then { k.pcb p with
        delay_ticks := (k.pcb p).delay_ticks - 1
        state := if expires k p then .processReady else (k.pcb p).state }
      else k.pcb p
    queues := q }

@[simp] theorem ticked_current {xs : List PcbPtr} {q : Heap QueueId PcbPtr} :
    (ticked k xs q).current_process = k.current_process := rfl

/-- The lists after the tick: `xs` is the part of the delay queue that has seen it, `ys` the rest. -/
def tickedLists (k : Kernel) (s : QueueId → List PcbPtr) (xs ys : List PcbPtr) :
    QueueId → List PcbPtr :=
  Function.update (Function.update s .delay (xs.filter (!expires k ·) ++ ys)) .ready
    (s .ready ++ xs.filter (expires k))

theorem tickedLists_keep {xs ys : List PcbPtr} (hp : expires k p = false) :
    tickedLists k s xs (p :: ys) = tickedLists k s (xs ++ [p]) ys := by
  simp [tickedLists, hp]

theorem tickedLists_expire {xs ys : List PcbPtr} (hp : expires k p = true) (hxs : p ∉ xs) :
    Function.update (Function.update (tickedLists k s xs (p :: ys)) .delay
      ((tickedLists k s xs (p :: ys) .delay).erase p)) .ready
      (tickedLists k s xs (p :: ys) .ready ++ [p]) = tickedLists k s (xs ++ [p]) ys := by
  have herase : (xs.filter (!expires k ·) ++ p :: ys).erase p = xs.filter (!expires k ·) ++ ys := by
    rw [List.erase_append_right _ fun hm => hxs (List.mem_of_mem_filter hm), List.erase_cons_head]
  funext l
  cases l <;> simp [tickedLists, hp, herase]

/-- A process of the delay queue sees a tick. -/
theorem Coherent.tickProcess (hc : Coherent k s) (hp : p ∈ s .delay) :
    (expires k p = false ∧ ∃ k', Yalnix.tickProcess k p = some k' ∧ k' = ticked k [p] k.queues ∧
      Coherent k' s) ∨
    (expires k p = true ∧ ∃ q, Yalnix.tickProcess k p = some (ticked k [p] q) ∧
      Coherent (ticked k [p] q) (Function.update (Function.update s .delay ((s .delay).erase p)) .ready
        (s .ready ++ [p]))) := by
  have hc₁ : Coherent (k.modifyPcb p fun pcb => { pcb with delay_ticks := pcb.delay_ticks - 1 }) s :=
    hc.modifyPcb _ rfl
  unfold Yalnix.tickProcess
  cases hexp : expires k p with
  | false =>
    refine Or.inl ⟨rfl, _, if_neg ?_, ?_, hc₁⟩
    · simp only [expires, decide_eq_false_iff_not] at hexp
      simp only [Kernel.modifyPcb, Function.update_self]
      omega
    · apply Kernel.ext <;> try rfl
      funext n
      by_cases e : n = p
      · subst e; simp [Kernel.modifyPcb, ticked, hexp]
      · simp [Kernel.modifyPcb, ticked, e]
  | true =>
    simp only [expires, decide_eq_true_eq] at hexp
    obtain ⟨q, hadd, hc'⟩ := hc₁.requeue hp (by simp)
    have heq : ({ (k.modifyPcb p fun pcb => { pcb with delay_ticks := pcb.delay_ticks - 1 }).setState p
        .processReady with queues := q } : Kernel) = ticked k [p] q := by
      apply Kernel.ext <;> try rfl
      funext n
      by_cases e : n = p
      · subst e; simp [Kernel.setState, Kernel.modifyPcb, ticked, expires, hexp]
      · simp [Kernel.setState, Kernel.modifyPcb, ticked, e]
    rw [heq] at hadd hc'
    refine Or.inr ⟨rfl, q, ?_, hc'⟩
    rw [if_pos (by simp [Kernel.modifyPcb, hexp])]
    exact hadd

/-- The node of a list that comes first, or the list's own. -/
def firstNode (l : QueueId) : List PcbPtr → Ref QueueId PcbPtr
  | [] => .head l
  | p :: _ => .node p

theorem next_eq_firstNode {h : Heap QueueId PcbPtr} {l : QueueId} {a : Ref QueueId PcbPtr}
    {xs : List PcbPtr} (hl : h.Linked a xs (.head l)) : h.next a = some (firstNode l xs) := by
  cases xs with
  | nil => exact hl.1
  | cons m xs => exact hl.1

theorem ticked_append {xs : List PcbPtr} {q q' : Heap QueueId PcbPtr} (hp : p ∉ xs) :
    ticked (ticked k xs q) [p] q' = ticked k (xs ++ [p]) q' := by
  apply Kernel.ext <;> try rfl
  funext n
  by_cases e : n = p
  · subst e; simp [ticked, hp, expires]
  · simp [ticked, e]

theorem updateDelayedLoop_eq (hnd : (s .delay).Nodup) (xs ys : List PcbPtr) (q : Heap QueueId PcbPtr)
    (hs : s .delay = xs ++ ys) (hc : Coherent (ticked k xs q) (tickedLists k s xs ys)) :
    ∃ q', updateDelayedLoop ys.length (some (firstNode .delay ys)) (ticked k xs q) =
        some (ticked k (s .delay) q') ∧
      Coherent (ticked k (s .delay) q') (tickedLists k s (s .delay) []) := by
  induction ys generalizing xs q with
  | nil =>
    rw [List.append_nil] at hs
    refine ⟨q, ?_, by rw [hs]; exact hc⟩
    rw [List.length_nil, firstNode, updateDelayedLoop, hs]
  | cons p ys ih =>
    have hpxs : p ∉ xs := fun hm => by
      rw [hs] at hnd
      exact (List.nodup_append.1 hnd).2.2 p hm p List.mem_cons_self rfl
    have hdelay : tickedLists k s xs (p :: ys) .delay = xs.filter (!expires k ·) ++ p :: ys := by
      simp [tickedLists]
    have hready : tickedLists k s xs (p :: ys) .ready = s .ready ++ xs.filter (expires k) := by
      simp [tickedLists]
    have hl := hc.rep.linked .delay (Set.mem_univ _)
    rw [hdelay, linked_append_cons] at hl
    have hs' : s .delay = (xs ++ [p]) ++ ys := by rw [hs]; simp
    have hexp : expires (ticked k xs q) p = expires k p := by simp [expires, ticked, hpxs]
    rw [List.length_cons, firstNode, updateDelayedLoop_node, next_eq_firstNode hl.2]
    rcases hc.tickProcess (p := p) (by rw [hdelay]; simp) with ⟨he, k', hrun, heq, hc'⟩ | ⟨he, q', hrun, hc'⟩
    · rw [hexp] at he
      rw [heq, ticked_append hpxs, tickedLists_keep he] at hc'
      rw [heq, ticked_append hpxs] at hrun
      rw [hrun]
      exact ih _ _ hs' hc'
    · rw [hexp] at he
      rw [ticked_append hpxs, tickedLists_expire he hpxs] at hc'
      rw [ticked_append hpxs] at hrun
      rw [hrun]
      exact ih _ _ hs' hc'

/-- Every delayed process has one tick less to wait for; those with none left are ready, in order. -/
theorem Coherent.updateDelayed (hc : Coherent k s) : ∃ q,
    updateDelayedProcesses k = some (ticked k (s .delay) q) ∧
    Coherent (ticked k (s .delay) q) (tickedLists k s (s .delay) []) := by
  have hzero : ticked k [] k.queues = k := by
    apply Kernel.ext <;> try rfl
  have hs : tickedLists k s [] (s .delay) = s := by simp [tickedLists]
  unfold updateDelayedProcesses
  cases hd : s .delay with
  | nil =>
    rw [if_pos ((hc.rep.listIsEmpty_iff (Set.mem_univ _)).2 hd)]
    refine ⟨k.queues, by rw [hzero], ?_⟩
    rw [hd] at hs
    rw [hzero, hs]
    exact hc
  | cons p xs =>
    rw [if_neg (by rw [hc.rep.listIsEmpty_iff (Set.mem_univ _), hd]; simp), hc.count,
      Int.toNat_natCast, next_eq_firstNode (hc.rep.linked .delay (Set.mem_univ _)), ← hd]
    have hloop := updateDelayedLoop_eq (k := k) (hc.rep.nodup _) [] (s .delay) k.queues rfl
      (by rwa [hzero, hs])
    rw [hzero] at hloop
    exact hloop

/-! ## The clock handler -/

/-- A tick puts nobody on a list who was on none. -/
theorem mem_of_mem_tickedLists {l : QueueId} (hp : p ∈ tickedLists k s (s .delay) [] l) :
    ∃ l', p ∈ s l' := by
  unfold tickedLists at hp
  by_cases hr : l = .ready
  · subst hr
    rw [Function.update_self, List.mem_append] at hp
    rcases hp with hp | hp
    · exact ⟨_, hp⟩
    · exact ⟨_, List.mem_of_mem_filter hp⟩
  · rw [Function.update_of_ne hr] at hp
    by_cases hd : l = .delay
    · subst hd
      rw [Function.update_self, List.append_nil] at hp
      exact ⟨_, List.mem_of_mem_filter hp⟩
    · rw [Function.update_of_ne hd] at hp
      exact ⟨_, hp⟩

/-- The state after a tick that the running process goes on after. -/
def timed (k : Kernel) (s : QueueId → List PcbPtr) (q : Heap QueueId PcbPtr) : Kernel :=
  (ticked k (s .delay) q).modifyPcb k.current_process
    fun pcb => { pcb with run_time := pcb.run_time + 1 }

/-- What the clock handler can do. -/
inductive ClockCase (k : Kernel) (s : QueueId → List PcbPtr) (k' : Kernel) : Prop where
  | goesOn {q : Heap QueueId PcbPtr} (heq : k' = timed k s q)
      (hc : Coherent k' (tickedLists k s (s .delay) []))
  | preempts {q : Heap QueueId PcbPtr}
      (heq : k' = ((timed k s q).setState k.current_process .processDefault).callSchedule .clockHandler)
      (hc : Coherent k' (tickedLists k s (s .delay) []))
      (htime : (k.pcb k.current_process).time_slice ≤ (k.pcb k.current_process).run_time)
      (hready : tickedLists k s (s .delay) [] .ready ≠ [])

theorem clockHandler_cases (hc : Coherent k s) (hoff : ∀ l, k.current_process ∉ s l)
    (h : clockHandler k = some k') : ClockCase k s k' := by
  obtain ⟨q, hupdate, hc'⟩ := hc.updateDelayed
  have hoff' : ∀ l, k.current_process ∉ tickedLists k s (s .delay) [] l := fun l hl => by
    obtain ⟨l', hl'⟩ := mem_of_mem_tickedLists hl
    exact hoff l' hl'
  have htimed : Coherent (timed k s q) (tickedLists k s (s .delay) []) := hc'.modifyPcb _ rfl
  -- the running process is not delayed, so the tick leaves its PCB alone
  have hpcb : (ticked k (s .delay) q).pcb k.current_process = k.pcb k.current_process := by
    simp [ticked, hoff .delay]
  unfold clockHandler at h
  rw [hupdate] at h
  simp only [Option.bind_eq_bind, Option.bind_some] at h
  split at h
  · rename_i hup
    obtain rfl := Option.some.inj h
    obtain ⟨htime, hready⟩ := hup
    refine .preempts (q := q) rfl ?_ ?_ fun hempty => hready ?_
    · exact (htimed.modifyFree hoff' (fun pcb => { pcb with state := .processDefault })
        (Or.inl rfl)).congr rfl rfl fun _ => rfl
    · have htime : (k.pcb k.current_process).time_slice < (k.pcb k.current_process).run_time + 1 := by
        simpa [Kernel.modifyPcb, hpcb] using htime
      omega
    · exact htimed.count_eq_zero.2 hempty
  · obtain rfl := Option.some.inj h
    exact .goesOn rfl htimed

/-- The clock handler changes the ticks, the state and the run time of processes. -/
theorem ClockCase.pcb (h : ClockCase k s k') (n : PcbPtr) : ∃ ticks st time,
    k'.pcb n = { k.pcb n with delay_ticks := ticks, state := st, run_time := time } := by
  have hticked : ∀ q m, ∃ ticks st, (ticked k (s .delay) q).pcb m =
      { k.pcb m with delay_ticks := ticks, state := st } := by
    intro q m
    unfold ticked
    simp only
    split
    · exact ⟨_, _, rfl⟩
    · exact ⟨_, _, rfl⟩
  have htimed : ∀ q m, ∃ ticks st time, (timed k s q).pcb m =
      { k.pcb m with delay_ticks := ticks, state := st, run_time := time } := by
    intro q m
    obtain ⟨ticks, st, hm⟩ := hticked q m
    by_cases e : m = k.current_process
    · subst e
      exact ⟨ticks, st, (k.pcb k.current_process).run_time + 1, by simp [timed, Kernel.modifyPcb, hm]⟩
    · exact ⟨ticks, st, (k.pcb m).run_time, by simp [timed, Kernel.modifyPcb, hm, e]⟩
  cases h with
  | goesOn heq =>
    rw [heq]
    exact htimed _ n
  | @preempts q heq =>
    obtain ⟨ticks, st, time, hn⟩ := htimed q n
    rw [heq]
    by_cases e : n = k.current_process
    · subst e
      exact ⟨ticks, .processDefault, time, by
        simp [Kernel.callSchedule, Kernel.setState, Kernel.modifyPcb, hn]⟩
    · exact ⟨ticks, st, time, by
        simp [Kernel.callSchedule, Kernel.setState, Kernel.modifyPcb, hn, e]⟩

/-- Beside the current process only delayed ones change, by one tick. -/
theorem ClockCase.pcb_ne (h : ClockCase k s k') {n : PcbPtr} (hne : n ≠ k.current_process) :
    k'.pcb n = if n ∈ s .delay then { k.pcb n with
        delay_ticks := (k.pcb n).delay_ticks - 1
        state := if expires k n then .processReady else (k.pcb n).state }
      else k.pcb n := by
  cases h with
  | goesOn heq => simp [heq, timed, ticked, Kernel.modifyPcb, hne]
  | preempts heq =>
    simp [heq, timed, ticked, Kernel.callSchedule, Kernel.setState, Kernel.modifyPcb, hne]

theorem ClockCase.frame (h : ClockCase k s k') :
    k' = { k with pcb := k'.pcb, queues := k'.queues, mode := k'.mode } := by
  cases h with
  | goesOn heq => rw [heq]; rfl
  | preempts heq => rw [heq]; rfl

end Yalnix
