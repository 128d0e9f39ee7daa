import Yalnix.Queues
import Yalnix.Intrusive.Proofs.Rep

/-!
# Moving a process between lists

A process that is on no list is in transit, joins a list or settles; a process taken from a list is in
transit. The queue functions of `pcb.c` are made of these moves.
-/

namespace Yalnix

open Intrusive Function

variable {k k' : Kernel} {s : QueueId → List PcbPtr} {p : PcbPtr} {l : QueueId}

/-- A process that joins a list. -/
theorem mem_update_append {L : Type} [DecidableEq L] {g : L → List PcbPtr} {l l' : L} {a : PcbPtr} :
    p ∈ update g l (g l ++ [a]) l' ↔ p ∈ g l' ∨ l' = l ∧ p = a := by
  rw [update_apply]
  split
  · rename_i e
    simp [e]
  · rename_i e
    simp [e]

namespace InTransit

/-- Nothing but the lists, the states of the other processes and the idle process matters. -/
theorem congr (h : InTransit k s p) (hq : k'.queues = k.queues)
    (hi : k'.idle_process = k.idle_process)
    (hst : ∀ q, q ≠ p → (k'.pcb q).state = (k.pcb q).state) : InTransit k' s p where
  rep := hq ▸ h.rep
  free := h.free
  listed l q hql := by
    rw [hst q fun e => h.free l (e ▸ hql)]
    exact h.listed l q hql
  unlisted q hne hql := by
    rw [hst q hne]
    exact h.unlisted q hne hql
  idle := hi ▸ h.idle

theorem modifyPcb (h : InTransit k s p) (f : Pcb → Pcb) : InTransit (k.modifyPcb p f) s p :=
  h.congr rfl rfl fun q hq => by simp [Kernel.modifyPcb, hq]

/-- The process stays on no list. -/
theorem settle (h : InTransit k s p)
    (hst : (k.pcb p).state = .processDefault ∨ (k.pcb p).state = .processRunning) :
    Coherent k s where
  rep := h.rep
  listed := h.listed
  unlisted q hq := by
    by_cases e : q = p
    · rw [e]; exact hst
    · exact h.unlisted q e hq
  idle := h.idle

/-- The process joins the list `l`, in the place that `xs` says. -/
theorem join (h : InTransit k s p) (hst : (k.pcb p).state = l.state) (hi : p ≠ k.idle_process)
    {q : Heap QueueId PcbPtr} {xs : List PcbPtr} (hrep : q.Rep Set.univ (update s l xs))
    (hxs : ∀ n, n ∈ xs ↔ n ∈ s l ∨ n = p) : Coherent { k with queues := q } (update s l xs) where
  rep := hrep
  listed l' n hn := by
    show (k.pcb n).state = l'.state
    by_cases e : l' = l
    · subst e
      rw [update_self, hxs] at hn
      rcases hn with hn | rfl
      · exact h.listed _ n hn
      · exact hst
    · rw [update_of_ne e] at hn
      exact h.listed l' n hn
  unlisted n hn := by
    have hnp : n ≠ p := by
      rintro rfl
      exact hn l (by rw [update_self, hxs]; exact Or.inr rfl)
    refine h.unlisted n hnp fun l' hl' => ?_
    by_cases e : l' = l
    · subst e
      exact hn l' (by rw [update_self, hxs]; exact Or.inl hl')
    · exact hn l' (by rwa [update_of_ne e])
  idle l' := by
    show k.idle_process ∉ _
    by_cases e : l' = l
    · subst e
      rw [update_self, hxs]
      rintro (hh | hh)
      · exact h.idle _ hh
      · exact hi hh.symm
    · rw [update_of_ne e]
      exact h.idle l'

theorem insertTail (h : InTransit k s p) (hst : (k.pcb p).state = l.state)
    (hi : p ≠ k.idle_process) : ∃ q, k.insertTail l p = some { k with queues := q } ∧
      Coherent { k with queues := q } (update s l (s l ++ [p])) := by
  obtain ⟨q, hq, hrep⟩ := h.rep.insertTail (Set.mem_univ l) h.free
  exact ⟨q, by simp [Kernel.insertTail, hq], h.join hst hi hrep (by simp)⟩

/-- The process is linked into the list first, and changed afterwards. -/
theorem enqueue (h : InTransit k s p) (f : Pcb → Pcb) (hst : (f (k.pcb p)).state = l.state)
    (hi : p ≠ k.idle_process) : ∃ k₁ q, k.insertTail l p = some k₁ ∧
      k₁.modifyPcb p f = { k.modifyPcb p f with queues := q } ∧
      Coherent (k₁.modifyPcb p f) (Function.update s l (s l ++ [p])) := by
  obtain ⟨q, hq, hc⟩ := (h.modifyPcb f).insertTail (by simpa [Kernel.modifyPcb] using hst) hi
  unfold Kernel.insertTail at hq
  rw [Option.map_eq_some_iff] at hq
  obtain ⟨q', hq', hq⟩ := hq
  refine ⟨{ k with queues := q' }, q', ?_, rfl, ?_⟩
  · unfold Kernel.insertTail
    rw [show k.queues.insertTail l p = some q' from hq']
    rfl
  · rw [← hq] at hc
    exact hc

theorem insertHead (h : InTransit k s p) (hst : (k.pcb p).state = l.state)
    (hi : p ≠ k.idle_process) : ∃ q, k.insertHead l p = some { k with queues := q } ∧
      Coherent { k with queues := q } (update s l (p :: s l)) := by
  obtain ⟨q, hq, hrep⟩ := h.rep.insertHead (Set.mem_univ l) h.free
  refine ⟨q, by simp [Kernel.insertHead, hq], h.join hst hi hrep fun n => ?_⟩
  rw [List.mem_cons]
  exact or_comm

/-- The queue functions of `pcb.c` put a process in the default state on their queue. -/
theorem addToQueue (h : InTransit k s p) (hst : (k.pcb p).state = .processDefault)
    (hi : p ≠ k.idle_process) : ∃ q,
      Yalnix.addToQueue l l.state k p = some { k.setState p l.state with queues := q } ∧
      Coherent { k.setState p l.state with queues := q } (update s l (s l ++ [p])) := by
  obtain ⟨q, hq, hc⟩ := (h.modifyPcb fun pcb => { pcb with state := l.state }).insertTail (l := l)
    (by simp [Kernel.modifyPcb]) hi
  refine ⟨q, ?_, hc⟩
  rw [Yalnix.addToQueue, if_neg (by simp [hst])]
  exact hq

end InTransit

namespace Coherent

theorem congr (h : Coherent k s) (hq : k'.queues = k.queues)
    (hi : k'.idle_process = k.idle_process)
    (hst : ∀ q, (k'.pcb q).state = (k.pcb q).state) : Coherent k' s where
  rep := hq ▸ h.rep
  listed l q hql := by rw [hst q]; exact h.listed l q hql
  unlisted q hql := by rw [hst q]; exact h.unlisted q hql
  idle := hi ▸ h.idle

theorem queue_eq (h : Coherent k s) : k.queue = s := h.rep.eq_toList.symm

theorem onList_iff (h : Coherent k s) : k.queues.OnList l p ↔ p ∈ s l :=
  h.rep.onList_iff (Set.mem_univ l)

theorem offQueues_iff (h : Coherent k s) : k.OffQueues p ↔ ∀ l, p ∉ s l := by
  simp [Kernel.OffQueues, h.onList_iff]

theorem count (h : Coherent k s) (l : QueueId) : k.count l = (s l).length :=
  h.rep.count l (Set.mem_univ l)

theorem count_eq_zero (h : Coherent k s) : k.count l = 0 ↔ s l = [] := by
  rw [h.count l]
  simp

/-- Two lists with a common process are one list. -/
theorem unique {l' : QueueId} (h : Coherent k s) (hl : p ∈ s l) (hl' : p ∈ s l') : l = l' :=
  h.rep.disjoint hl hl'

theorem transit (h : Coherent k s) (hfree : ∀ l, p ∉ s l) : InTransit k s p where
  rep := h.rep
  free := hfree
  listed := h.listed
  unlisted q _ hq := h.unlisted q hq
  idle := h.idle

/-- A change of a process on no list that leaves it default or running. -/
theorem modifyFree (h : Coherent k s) (hfree : ∀ l, p ∉ s l) (f : Pcb → Pcb)
    (hst : (f (k.pcb p)).state = .processDefault ∨ (f (k.pcb p)).state = .processRunning) :
    Coherent (k.modifyPcb p f) s :=
  ((h.transit hfree).modifyPcb f).settle (by simpa [Kernel.modifyPcb] using hst)

/-- A change of a process that keeps its state. -/
theorem modifyPcb (h : Coherent k s) (f : Pcb → Pcb) (hst : (f (k.pcb p)).state = (k.pcb p).state) :
    Coherent (k.modifyPcb p f) s :=
  h.congr rfl rfl fun q => by
    by_cases e : q = p
    · subst e; simpa [Kernel.modifyPcb] using hst
    · simp [Kernel.modifyPcb, e]

/-- A process is on no list when its state says so. -/
theorem offQueues_iff_state (h : Coherent k s) : k.OffQueues p ↔
    (k.pcb p).state = .processDefault ∨ (k.pcb p).state = .processRunning := by
  rw [h.offQueues_iff]
  refine ⟨h.unlisted p, fun hst l hl => ?_⟩
  rw [h.listed l p hl] at hst
  cases l <;> simp [QueueId.state] at hst

/-- A new PCB at an address that no list has. -/
theorem createPcb (h : Coherent k s) (hw : Hardware) (hfree : ∀ l, p ∉ s l) :
    Coherent (Yalnix.createPcb hw k p) s := by
  have htr : InTransit (Yalnix.createPcb hw k p) s p :=
    (h.transit hfree).congr rfl rfl fun q hq => by simp [Yalnix.createPcb, hq]
  exact htr.settle (Or.inl (by simp [Yalnix.createPcb]))

/-- The sequences after `p` left the list `l`. -/
theorem leave (h : Coherent k s) {q : Heap QueueId PcbPtr} {xs : List PcbPtr}
    (hp : p ∈ s l) (hrep : q.Rep Set.univ (update s l xs)) (hxs : ∀ n, n ∈ xs ↔ n ∈ s l ∧ n ≠ p) :
    InTransit { k with queues := q } (update s l xs) p := by
  have sub : ∀ {l' n}, n ∈ update s l xs l' → n ∈ s l' := fun {l' n} hn => by
    by_cases e : l' = l
    · subst e; rw [update_self, hxs] at hn; exact hn.1
    · rwa [update_of_ne e] at hn
  refine ⟨hrep, fun l' hl' => ?_, fun l' n hn => h.listed l' n (sub hn), fun n hn hfree => ?_,
    fun l' hl' => h.idle l' (sub hl')⟩
  · have e : l' = l := h.unique (sub hl') hp
    subst e
    rw [update_self, hxs] at hl'
    exact hl'.2 rfl
  · refine h.unlisted n fun l' hl' => hfree l' ?_
    by_cases e : l' = l
    · subst e; rw [update_self, hxs]; exact ⟨hl', hn⟩
    · rwa [update_of_ne e]

theorem pop_nil (h : Coherent k s) (hs : s l = []) : k.pop l = some (none, k) := by
  simp [Kernel.pop, h.rep.pop_nil (Set.mem_univ l) hs, Kernel.pcbFromQueueNode]

theorem pop_cons (h : Coherent k s) {xs : List PcbPtr} (hs : s l = p :: xs) : ∃ q,
    k.pop l = some (some p, { k with queues := q }) ∧
    InTransit { k with queues := q } (update s l xs) p := by
  obtain ⟨q, hq, hrep⟩ := h.rep.pop_cons (Set.mem_univ l) hs
  refine ⟨q, by simp [Kernel.pop, hq, Kernel.pcbFromQueueNode],
    h.leave (by simp [hs]) hrep fun n => ?_⟩
  have hnd := h.rep.nodup l
  rw [hs, List.nodup_cons] at hnd
  rw [hs, List.mem_cons]
  constructor
  · exact fun hn => ⟨Or.inr hn, fun e => hnd.1 (e ▸ hn)⟩
  · rintro ⟨rfl | hn, hne⟩
    · exact absurd rfl hne
    · exact hn

theorem listRemove (h : Coherent k s) (hp : p ∈ s l) :
    InTransit (k.listRemove l p) (update s l ((s l).erase p)) p := by
  refine h.leave hp (h.rep.listRemove (Set.mem_univ l) hp) fun n => ?_
  rw [(h.rep.nodup l).mem_erase_iff]
  exact and_comm

/-- `remove_from_{}_queue` on a process of the queue. -/
theorem removeFromQueue (h : Coherent k s) (hp : p ∈ s l) :
    Coherent (Yalnix.removeFromQueue l l.state k p) (update s l ((s l).erase p)) := by
  rw [Yalnix.removeFromQueue, if_neg (by simp [h.listed l p hp])]
  exact ((h.listRemove hp).modifyPcb fun pcb => { pcb with state := .processDefault }).settle
    (Or.inl (by simp [Kernel.modifyPcb]))

/-- A process goes from the list `l` to the ready queue. -/
theorem requeue (h : Coherent k s) (hp : p ∈ s l) (hl : l ≠ .ready) : ∃ q,
    addToReadyQueue (Yalnix.removeFromQueue l l.state k p) p =
      some { k.setState p .processReady with queues := q } ∧
    Coherent { k.setState p .processReady with queues := q }
      (update (update s l ((s l).erase p)) .ready (s .ready ++ [p])) := by
  have hrem := h.removeFromQueue hp
  have heq : Yalnix.removeFromQueue l l.state k p =
      { k.setState p .processDefault with queues := k.queues.listRemove l p } := by
    unfold Yalnix.removeFromQueue
    rw [if_neg (by simp [h.listed l p hp])]
    rfl
  have hoff : ∀ l', p ∉ update s l ((s l).erase p) l' := by
    intro l' hl'
    by_cases e : l' = l
    · subst e
      rw [update_self, (h.rep.nodup _).mem_erase_iff] at hl'
      exact hl'.1 rfl
    · rw [update_of_ne e] at hl'
      exact e (h.unique hl' hp)
  obtain ⟨q, hadd, hc⟩ := (hrem.transit hoff).addToQueue (l := .ready)
    (by rw [heq]; simp [Kernel.setState, Kernel.modifyPcb])
    (fun e => h.idle l (by rw [heq] at e; exact e ▸ hp))
  rw [update_of_ne (Ne.symm hl)] at hc
  have hset : ({ (Yalnix.removeFromQueue l l.state k p).setState p (QueueId.state .ready) with
      queues := q } : Kernel) = { k.setState p .processReady with queues := q } := by
    rw [heq]
    simp [Kernel.setState, Kernel.modifyPcb, QueueId.state]
  rw [hset] at hc hadd
  exact ⟨q, hadd, hc⟩

end Coherent

/-- `add_to_{}_queue` leaves a process that is not in the default state where it is. -/
theorem addToQueue_of_ne {st : ProcessState} (hst : (k.pcb p).state ≠ .processDefault) :
    addToQueue l st k p = some k := by
  rw [addToQueue, if_pos hst]

end Yalnix
