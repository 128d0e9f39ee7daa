import Yalnix.Proofs.Orphans

/-!
# What `check_zombies` would do

The sweep over the zombie queue, and a run that goes on after it.
-/

namespace Yalnix

open Intrusive Heap Transition

variable {hw : Hardware} {b : Boot hw} {k k' k₀ k₁ : Kernel} {s : QueueId → List PcbPtr} {p : PcbPtr}
  {t t' : List (Kernel × TrapEvent)}

/-! ## The loop -/

/-- The body of the loop of `check_zombies`, for the process `p`. -/
def sweepProcess (k : Kernel) (p : PcbPtr) : Kernel :=
  if (k.pcb p).parent = none then (removeFromZombieQueue k p).free p else k

theorem checkZombiesLoop_node (n : Nat) : checkZombiesLoop (n + 1) (some (.node p)) k =
    checkZombiesLoop n (k.queues.next (.node p)) (sweepProcess k p) := by
  rw [checkZombiesLoop, sweepProcess]
  split <;> rfl

/-- The state after a sweep that the terminated processes `xs` have seen. -/
def swept (k : Kernel) (xs : List PcbPtr) (q : Heap QueueId PcbPtr) : Kernel :=
  { k with
    pcb := fun p =>
      if p ∈ xs ∧ (k.pcb p).parent = none then { k.pcb p with state := .processDefault } else k.pcb p
    allocated := fun p => k.allocated p && !decide (p ∈ xs ∧ (k.pcb p).parent = none)
    queues := q }

/-- The lists after it: `xs` is the part of the zombie queue that has seen it, `ys` the rest. -/
def sweptLists (k : Kernel) (s : QueueId → List PcbPtr) (xs ys : List PcbPtr) : QueueId → List PcbPtr :=
  Function.update s .zombie ((xs.filter fun p => (k.pcb p).parent.isSome) ++ ys)

/-- Only states change. -/
theorem swept_field {γ : Type} (field : Pcb → γ)
    (hstate : ∀ x : Pcb, field { x with state := .processDefault } = field x) {xs : List PcbPtr}
    {q : Heap QueueId PcbPtr} : field ((swept k xs q).pcb p) = field (k.pcb p) := by
  unfold swept
  simp only
  split
  · exact hstate _
  · rfl

theorem swept_parent {xs : List PcbPtr} {q : Heap QueueId PcbPtr} :
    ((swept k xs q).pcb p).parent = (k.pcb p).parent :=
  swept_field Pcb.parent fun _ => rfl

theorem swept_append {xs : List PcbPtr} {q q' : Heap QueueId PcbPtr} (hp : p ∉ xs)
    (hnone : (k.pcb p).parent = none) : swept (swept k xs q) [p] q' = swept k (xs ++ [p]) q' := by
  apply Kernel.ext <;> try rfl
  · funext n
    by_cases e : n = p
    · subst e
      simp [swept, hp, hnone]
    · simp [swept, e]
  · funext n
    by_cases e : n = p
    · subst e
      simp [swept, hp, hnone]
    · simp [swept, e]

/-- Whoever has a parent is left alone. -/
theorem swept_keep {xs : List PcbPtr} {q : Heap QueueId PcbPtr} (hsome : (k.pcb p).parent ≠ none) :
    swept k xs q = swept k (xs ++ [p]) q := by
  apply Kernel.ext <;> try rfl
  · funext n
    by_cases e : n = p
    · subst e
      simp [swept, hsome]
    · simp [swept, e]
  · funext n
    by_cases e : n = p
    · subst e
      simp [swept, hsome]
    · simp [swept, e]

theorem Coherent.sweepProcess (hc : Coherent k s) (hp : p ∈ s .zombie) (hnone : (k.pcb p).parent = none) :
    ∃ q, Yalnix.sweepProcess k p = swept k [p] q ∧
      Coherent (swept k [p] q) (Function.update s .zombie ((s .zombie).erase p)) := by
  have hrem := hc.removeFromQueue hp
  have heq : Yalnix.sweepProcess k p = swept k [p] (k.queues.listRemove .zombie p) := by
    rw [Yalnix.sweepProcess, if_pos hnone, removeFromZombieQueue, Yalnix.removeFromQueue,
      if_neg (by simp [hc.listed .zombie p hp, QueueId.state])]
    apply Kernel.ext <;> try rfl
    · funext n
      by_cases e : n = p
      · subst e
        simp [swept, hnone, Kernel.free, Kernel.listRemove, Kernel.setState, Kernel.modifyPcb]
      · simp [swept, e, Kernel.free, Kernel.listRemove, Kernel.setState, Kernel.modifyPcb]
    · funext n
      by_cases e : n = p
      · subst e
        simp [swept, hnone, Kernel.free]
      · simp [swept, e, Kernel.free, Kernel.listRemove, Kernel.setState, Kernel.modifyPcb]
  refine ⟨_, heq, ?_⟩
  rw [← heq, Yalnix.sweepProcess, if_pos hnone]
  exact hrem.congr rfl rfl fun _ => rfl

theorem checkZombiesLoop_eq (hnd : (s .zombie).Nodup) (xs ys : List PcbPtr) (q : Heap QueueId PcbPtr)
    (hs : s .zombie = xs ++ ys) (hc : Coherent (swept k xs q) (sweptLists k s xs ys)) :
    ∃ q', checkZombiesLoop ys.length (some (firstNode .zombie ys)) (swept k xs q) =
        some (swept k (s .zombie) q') ∧
      Coherent (swept k (s .zombie) q') (sweptLists k s (s .zombie) []) := by
  induction ys generalizing xs q with
  | nil =>
    rw [List.append_nil] at hs
    refine ⟨q, ?_, by rw [hs]; exact hc⟩
    rw [List.length_nil, firstNode, checkZombiesLoop, hs]
  | cons p ys ih =>
    have hpxs : p ∉ xs := fun hm => by
      rw [hs] at hnd
      exact (List.nodup_append.1 hnd).2.2 p hm p List.mem_cons_self rfl
    have hzombie : sweptLists k s xs (p :: ys) .zombie =
        (xs.filter fun p => (k.pcb p).parent.isSome) ++ p :: ys := Function.update_self _ _ _
    have hl := hc.rep.linked .zombie (Set.mem_univ _)
    rw [hzombie, linked_append_cons] at hl
    have hs' : s .zombie = (xs ++ [p]) ++ ys := by rw [hs]; simp
    rw [List.length_cons, firstNode, checkZombiesLoop_node, next_eq_firstNode hl.2]
    by_cases hpar : (k.pcb p).parent = none
    · obtain ⟨q', hrun, hc'⟩ := hc.sweepProcess (p := p) (by rw [hzombie]; simp) (by rw [swept_parent, hpar])
      have hlists : Function.update (sweptLists k s xs (p :: ys)) .zombie
          ((sweptLists k s xs (p :: ys) .zombie).erase p) = sweptLists k s (xs ++ [p]) ys := by
        rw [hzombie, List.erase_append_right _ fun hm => hpxs (List.mem_of_mem_filter hm), List.erase_cons_head]
        simp [sweptLists, hpar]
      rw [hlists, swept_append hpxs hpar] at hc'
      rw [hrun, swept_append hpxs hpar]
      exact ih _ _ hs' hc'
    · have hlists : sweptLists k s xs (p :: ys) = sweptLists k s (xs ++ [p]) ys := by
        simp [sweptLists, Option.isSome_iff_ne_none.2 hpar]
      rw [hlists, swept_keep hpar] at hc
      rw [Yalnix.sweepProcess, if_neg (by rw [swept_parent]; exact hpar), swept_keep hpar]
      exact ih _ _ hs' hc

/-- The terminated processes without a parent are freed and leave the queue. -/
theorem Coherent.checkZombies (hc : Coherent k s) : ∃ q,
    Yalnix.checkZombies k = some (swept k (s .zombie) q) ∧
    Coherent (swept k (s .zombie) q) (sweptLists k s (s .zombie) []) := by
  have hzero : swept k [] k.queues = k := by
    apply Kernel.ext <;> try rfl
    simp [swept]
  have hs : sweptLists k s [] (s .zombie) = s := by simp [sweptLists]
  unfold Yalnix.checkZombies
  cases hz : s .zombie with
  | nil =>
    rw [if_pos ((hc.rep.listIsEmpty_iff (Set.mem_univ _)).2 hz)]
    refine ⟨k.queues, by rw [hzero], ?_⟩
    rw [hz] at hs
    rw [hzero, hs]
    exact hc
  | cons p xs =>
    have hne : ¬ k.queues.listIsEmpty .zombie = true := by
      rw [hc.rep.listIsEmpty_iff (Set.mem_univ _), hz]
      simp
    rw [if_neg hne, hc.count, Int.toNat_natCast, Heap.peek, if_neg hne,
      next_eq_firstNode (hc.rep.linked .zombie (Set.mem_univ _)), ← hz]
    have hloop := checkZombiesLoop_eq (k := k) (hc.rep.nodup _) [] (s .zombie) k.queues rfl
      (by rwa [hzero, hs])
    rw [hzero] at hloop
    exact hloop

/-! ## What it collects -/

theorem swept_collects (h : Sturdy hw k) (hk : Acknowledged k) {q : Heap QueueId PcbPtr}
    (hc : Coherent (swept k (k.queue .zombie) q) (sweptLists k k.queue (k.queue .zombie) [])) :
    Collects k (swept k (k.queue .zombie) q) := by
  have hkin := h.kindred_children
  have hqueue := hc.queue_eq
  have hfreed : ∀ p, (swept k (k.queue .zombie) q).allocated p = true ↔
      k.allocated p = true ∧ ¬ (k.Orphan p ∧ p ∈ k.queue .zombie) := by
    intro p
    by_cases ha : k.allocated p = true
    · simp [swept, Kernel.Orphan, ha, ← not_and_or, and_comm]
    · simp [swept, ha]
  constructor
  case freed => exact hfreed
  case once => exact hk.orphans
  case zombie =>
    rw [hqueue]
    simp [sweptLists]
  case queue =>
    intro l hl
    rw [hqueue]
    exact Function.update_of_ne hl _ _
  case pcb =>
    intro p hp
    refine if_neg fun hn => ?_
    obtain ⟨ha, hno⟩ := (hfreed p).1 hp
    exact hno ⟨⟨ha, hn.2⟩, hn.1⟩
  case unlinked =>
    intro p hp hz
    have hchild : ∀ q, p ∉ k.children q := by
      intro q hq
      have hpar := hk.kin q p hq hp.1
      rw [hp.2] at hpar
      cases hpar
    refine ⟨hc.offQueues_iff.2 fun l hl => ?_, hchild, fun c hc' hpar => ?_⟩
    · by_cases e : l = .zombie
      · subst e
        simp [sweptLists, hp.2] at hl
      · rw [sweptLists, Function.update_of_ne e] at hl
        exact e (h.calm.steady.coherent.unique hl hz)
    · rw [swept_parent] at hpar
      exact (hkin.living p c (hkin.kin c p ((hfreed c).1 hc').1 hpar)).2.2 hz
  case others => rfl

/-- In every run from boot in which no call has to wait, `check_zombies` would free, at any time, the PCBs
that nobody else frees any more, and these only. -/
theorem checkZombies_collects (h₀ : kernelStart b = some k₀)
    (hrun : Run (trapMachine hw) (KeepsGoing hw) k₀ t k) : ∃ k', checkZombies k = some k' ∧ Collects k k' := by
  obtain ⟨hsturdy, hk⟩ := acknowledgedRun h₀ hrun
  obtain ⟨q, hsweep, hc⟩ := hsturdy.calm.steady.coherent.checkZombies
  exact ⟨_, hsweep, swept_collects hsturdy hk hc⟩

theorem checkZombies_collects_small : ∃ k', checkZombies leakKernel = some k' ∧ Collects leakKernel k' :=
  checkZombies_collects (Option.some_get _).symm (leakKernel_run.mono fun _ _ h => h.1)

/-! ## How it goes on -/

theorem Acknowledged.swept (hk : Acknowledged k) {q : Heap QueueId PcbPtr}
    (hcollects : Collects k (swept k (k.queue .zombie) q)) : Acknowledged (swept k (k.queue .zombie) q) := by
  refine ⟨fun p c hp ha => ?_, fun p hp hnone => ?_⟩
  · rw [swept_parent]
    exact hk.kin p c hp ((hcollects.freed c).1 ha).1
  · rw [hcollects.zombie, List.mem_filter] at hp
    rw [swept_parent] at hnone
    simp [hnone] at hp

/-- Runs go on after a sweep. -/
theorem Sturdy.swept (h : Sturdy hw k) {q : Heap QueueId PcbPtr}
    (hc : Coherent (swept k (k.queue .zombie) q) (sweptLists k k.queue (k.queue .zombie) []))
    (hcollects : Collects k (swept k (k.queue .zombie) q)) : Sturdy hw (swept k (k.queue .zombie) q) := by
  have hkin := h.kindred_children
  have hqueue := hc.queue_eq
  refine h.tended (f := k.children) ?_ hkin.rep (fun _ _ hc => hc) fun c p hc hp => ?_
  · constructor
    case coherent =>
      rw [hqueue]
      exact hc
    case queue =>
      intro l p hp
      by_cases e : l = .zombie
      · subst e
        rw [hcollects.zombie] at hp
        exact List.mem_of_mem_filter hp
      · rwa [hcollects.queue l e] at hp
    case waiters => exact fun w => hcollects.queue _ (by simp)
    case running => exact fun hoff => congrArg Pcb.state (if_neg fun hn => hoff .zombie hn.1)
    case context => exact fun p => swept_field Pcb.kernel_context fun _ => rfl
    case waiting => exact fun p => swept_field Pcb.waiting_for_children fun _ => rfl
    case parent =>
      intro p q hp
      rwa [swept_parent] at hp
    case freed => exact fun p hp => ((hcollects.freed p).1 hp).1
    case spared => exact fun p hp ha => (hcollects.freed p).2 ⟨ha, fun hn => hp hn.2⟩
    case others => rfl
  · rw [swept_parent] at hp
    exact hkin.kin c p ((hcollects.freed c).1 hc).1 hp

end Yalnix
