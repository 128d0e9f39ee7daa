import Yalnix.ListRun
import Yalnix.Intrusive.Proofs.Rep

/-!
# The lists are sequences

Each operation keeps `Rep`, and changes the pointers of its own list only.
-/

namespace Yalnix

open Intrusive Transition

variable {L N : Type} {h h₀ h' : Heap L N} {a : Lists L N} {op : ListOp L N} {l : L} {n : N}
  {t : List ((Heap L N × Lists L N) × ListOp L N)}

/-- The heap holds the sequences. -/
def Lists.On (a : Lists L N) (h : Heap L N) : Prop :=
  h.Rep {l | a.initialised l = true} a.seq

namespace Lists.On

theorem refines (ha : a.On h) : Refines h a where
  next l hl := (ha.linked l hl).next_chain
  prev l hl := (ha.linked l hl).prev_chain
  count := ha.count
  nodup := ha.nodup
  disjoint _ _ _ := ha.disjoint

/-- The other lists have other nodes. -/
theorem not_own (ha : a.On h) (hok : a.Allowed op) (hl : l ≠ op.list) {r : Ref L N} (hr : a.Own l r) :
    r ≠ .head op.list ∧ ∀ m ∈ op.inserts.toList ++ a.seq op.list, r ≠ .node m := by
  rcases hr with rfl | ⟨n, hn, rfl⟩
  · exact ⟨fun e => hl (Ref.head.inj e), by simp⟩
  · refine ⟨by simp, ?_⟩
    rintro m hm e
    obtain rfl := Ref.node.inj e
    rcases List.mem_append.1 hm with hm | hm
    · cases op <;> simp [ListOp.inserts] at hm <;> subst hm <;> exact hok.2 l hn
    · exact hl (ha.disjoint hn hm)

variable [DecidableEq L] [DecidableEq N]

/-- What an operation does: the sequences, the pointers that it changes, and the nodes that it takes off. -/
structure Done (h : Heap L N) (a : Lists L N) (op : ListOp L N) (h' : Heap L N) : Prop where
  result : op.onHeap h = some ((a.call op).1, h')
  on : (a.call op).2.On h'
  same : h.SameBut h' op.list (op.inserts.toList ++ a.seq op.list)
  unlinks : ∀ n, a.Takes n op → h'.Unlinked n

/-- Every allowed operation has a result. -/
theorem done (ha : a.On h) (hok : a.Allowed op) : ∃ h', Done h a op h' := by
  cases op with
  | listInit l =>
    refine ⟨h.listInit l, rfl, ?_, (Heap.Rep.listInit_sameBut h l).mono (List.nil_subset _),
      fun n hn => hn.elim⟩
    have hset : {l' | (a.call (.listInit l)).2.initialised l' = true} =
        insert l {l | a.initialised l = true} := by
      ext l'
      by_cases e : l' = l
      · simp [call, e]
      · simp [call, e]
    show Heap.Rep _ _ _
    rw [hset]
    exact ha.listInit_any l
  | insertTail l n =>
    obtain ⟨hl, hn⟩ := hok
    obtain ⟨h', hins, hr⟩ := Heap.Rep.insertTail ha hl hn
    exact ⟨h', by simp [ListOp.onHeap, call, hins], hr, ha.insertTail_sameBut hl hins, fun m hm => hm.elim⟩
  | insertHead l n =>
    obtain ⟨hl, hn⟩ := hok
    obtain ⟨h', hins, hr⟩ := Heap.Rep.insertHead ha hl hn
    exact ⟨h', by simp [ListOp.onHeap, call, hins], hr, ha.insertHead_sameBut hl hins, fun m hm => hm.elim⟩
  | listRemove l n =>
    obtain ⟨hl, hn⟩ := hok
    refine ⟨h.listRemove l n, rfl, Heap.Rep.listRemove ha hl hn, ha.listRemove_sameBut hl hn, ?_⟩
    rintro m rfl
    exact ha.listRemove_unlinked hl hn
  | pop l =>
    cases hs : a.seq l with
    | nil =>
      have hpop := ha.pop_nil hok hs
      refine ⟨h, by simp [ListOp.onHeap, call, hpop, hs], ?_, .refl h l _, fun n hn => ?_⟩
      · have heq : a.set l (a.seq l).tail = a := by
          rw [hs, List.tail_nil, ← hs]
          simp only [set, Function.update_eq_self]
        show On (a.set l (a.seq l).tail) h
        rw [heq]
        exact ha
      · simp [Takes, hs] at hn
    | cons m xs =>
      have hm : m ∈ a.seq l := by simp [hs]
      refine ⟨h.listRemove l m, by simp [ListOp.onHeap, call, ha.pop_eq hok hs, hs], ?_,
        ha.listRemove_sameBut hok hm, fun n hn => ?_⟩
      · have hrem := Heap.Rep.listRemove ha hok hm
        rw [hs, List.erase_cons_head] at hrem
        simpa [On, call, set, hs] using hrem
      · obtain rfl : m = n := by simpa [Takes, hs] using hn
        exact ha.listRemove_unlinked hok hm
  | peek l =>
    exact ⟨h, by simp [ListOp.onHeap, call, Heap.Rep.peek ha hok], ha, .refl h l _, fun n hn => hn.elim⟩
  | listContains l n =>
    exact ⟨h, by simp [ListOp.onHeap, call, Heap.Rep.listContains ha hok n], ha, .refl h l _,
      fun m hm => hm.elim⟩
  | clearList l =>
    obtain ⟨h', hclear, hr, hsame, hgone⟩ := ha.clearList_spec hok
    exact ⟨h', by simp [ListOp.onHeap, call, hclear], hr, hsame, hgone⟩

/-- A call changes one sequence, which gains no node but the one that is inserted. -/
theorem call_seq (a : Lists L N) (op : ListOp L N) : ∃ xs,
    (a.call op).2.seq = Function.update a.seq op.list xs ∧ xs ⊆ op.inserts.toList ++ a.seq op.list := by
  cases op with
  | listInit l => exact ⟨[], rfl, List.nil_subset _⟩
  | insertTail l n => exact ⟨a.seq l ++ [n], rfl, by simp [ListOp.inserts, ListOp.list]⟩
  | insertHead l n => exact ⟨n :: a.seq l, rfl, by simp [ListOp.inserts, ListOp.list]⟩
  | pop l => exact ⟨(a.seq l).tail, rfl, List.tail_subset _⟩
  | listRemove l n => exact ⟨(a.seq l).erase n, rfl, List.erase_subset⟩
  | peek l => exact ⟨a.seq l, (Function.update_eq_self l a.seq).symm, List.Subset.refl _⟩
  | listContains l n => exact ⟨a.seq l, (Function.update_eq_self l a.seq).symm, List.Subset.refl _⟩
  | clearList l => exact ⟨[], rfl, List.nil_subset _⟩

/-- A node that is on no list gets on none unless it is inserted. -/
theorem call_not_mem (hn : ∀ l, n ∉ a.seq l) (hins : op.inserts ≠ some n) : ∀ l, n ∉ (a.call op).2.seq l := by
  obtain ⟨xs, hseq, hsub⟩ := call_seq a op
  intro l hl
  rw [hseq] at hl
  by_cases e : l = op.list
  · subst e
    rw [Function.update_self] at hl
    rcases List.mem_append.1 (hsub hl) with h | h
    · exact hins (Option.mem_toList.1 h)
    · exact hn op.list h
  · rw [Function.update_of_ne e] at hl
    exact hn l hl

/-- A node that is taken from its list is on none. -/
theorem takes_not_mem (ha : a.On h) (hok : a.Allowed op) (htakes : a.Takes n op) :
    ∀ l, n ∉ (a.call op).2.seq l := by
  have hone : ∀ l xs, n ∈ a.seq l → n ∉ xs → ∀ l', n ∉ Function.update a.seq l xs l' := by
    intro l xs hn hxs l' hl'
    by_cases e : l' = l
    · subst e
      rw [Function.update_self] at hl'
      exact hxs hl'
    · rw [Function.update_of_ne e] at hl'
      exact e (ha.disjoint hl' hn)
  cases op with
  | pop l =>
    have hhead : (a.seq l).head? = some n := htakes
    obtain ⟨xs, hs⟩ := List.head?_eq_some_iff.1 hhead
    have hnot : n ∉ xs := (List.nodup_cons.1 (hs ▸ ha.nodup l)).1
    exact hone l _ (by simp [hs]) (by simpa [hs] using hnot)
  | listRemove l m =>
    obtain rfl : m = n := htakes
    exact hone l _ hok.2 (ha.nodup l).not_mem_erase
  | clearList l => exact hone l [] htakes List.not_mem_nil
  | _ => exact htakes.elim

theorem simulates (ha : a.On h) (hok : a.Allowed op) (hdone : Done h a op h') : Simulates h a op h' where
  result := hdone.result
  refines := hdone.on.refines
  unlinks := hdone.unlinks
  others l hl := by
    obtain ⟨xs, hseq, -⟩ := call_seq a op
    refine ⟨by rw [hseq, Function.update_of_ne hl], hdone.same.count l hl, fun r hr => ?_⟩
    obtain ⟨hhead, hnode⟩ := ha.not_own hok hl hr
    exact ⟨hdone.same.next r hhead hnode, hdone.same.prev r hhead hnode⟩
  loose n hn hins := by
    have hnode : ∀ m ∈ op.inserts.toList ++ a.seq op.list, Ref.node (L := L) n ≠ .node m := by
      rintro m hm e
      obtain rfl := Ref.node.inj e
      rcases List.mem_append.1 hm with hm | hm
      · exact hins (Option.mem_toList.1 hm)
      · exact hn op.list hm
    exact ⟨hdone.same.next _ (by simp) hnode, hdone.same.prev _ (by simp) hnode⟩

/-- One step of the two side by side. -/
theorem step (ha : a.On h) (hok : a.Allowed op) {s' : Heap L N × Lists L N}
    (hstep : listMachine.step (h, a) op = some s') : ∃ h', Done h a op h' ∧ s' = (h', (a.call op).2) := by
  obtain ⟨h', hdone⟩ := ha.done hok
  have hstep : (op.onHeap h).map (fun r => (r.2, (a.call op).2)) = some s' := hstep
  rw [hdone.result] at hstep
  exact ⟨h', hdone, (Option.some.inj hstep).symm⟩

end Lists.On

variable [DecidableEq L] [DecidableEq N]

/-- The sequences are kept, and a node that has been taken off is on no list and has no links. -/
theorem lists_on {P : Heap L N × Lists L N → ListOp L N → Prop}
    (hrun : Run listMachine P (h₀, .none) t (h, a)) :
    a.On h ∧ ∀ n, TakenOff t n → h.Unlinked n ∧ ∀ l, n ∉ a.seq l := by
  refine hrun.traceInvariant
    (I := fun t s => s.2.On s.1 ∧ ∀ n, TakenOff t n → s.1.Unlinked n ∧ ∀ l, n ∉ s.2.seq l) ?_ ?_
  · refine ⟨⟨fun l hl => ?_, fun l hl => ?_, fun l => List.nodup_nil, ?_, fun l _ => rfl⟩,
      fun n hn => (since_nil hn).elim⟩
    · cases hl
    · cases hl
    · intro l l' n hn
      cases hn
  · rintro t ⟨h, a⟩ op s' ⟨ha, hoff⟩ hok - hstep
    obtain ⟨h', hdone, rfl⟩ := Lists.On.step ha hok hstep
    refine ⟨hdone.on, fun n hn => ?_⟩
    rcases since_snoc.1 hn with htakes | ⟨hbefore, hins⟩
    · exact ⟨hdone.unlinks n htakes, ha.takes_not_mem hok htakes⟩
    · obtain ⟨hgone, hnone⟩ := hoff n hbefore
      obtain ⟨hnext, hprev⟩ := (ha.simulates hok hdone).loose n hnone hins
      exact ⟨⟨hnext.trans hgone.1, hprev.trans hgone.2⟩, Lists.On.call_not_mem hnone hins⟩

/-- From any pointers, after any allowed calls: the lists are the sequences, the nodes that have been taken off
have no links, and every call that is allowed does what it does to the sequences. -/
theorem lists_refine_sequences {P : Heap L N × Lists L N → ListOp L N → Prop}
    (hrun : Run listMachine P (h₀, .none) t (h, a)) :
    Refines h a ∧ (∀ n, TakenOff t n → h.Unlinked n) ∧ ∀ op, a.Allowed op → ∃ h', Simulates h a op h' := by
  obtain ⟨ha, hoff⟩ := lists_on hrun
  refine ⟨ha.refines, fun n hn => (hoff n hn).1, fun op hok => ?_⟩
  obtain ⟨h', hdone⟩ := ha.done hok
  exact ⟨h', ha.simulates hok hdone⟩

/-- Two lists among stray pointers: nodes are inserted at both ends, popped, moved and removed. -/
def listOps : List (ListOp Bool Nat) :=
  [.listInit false, .listInit true, .insertTail false 1, .insertTail false 2, .insertHead true 3, .pop false,
    .insertTail true 1, .listContains true 1, .listRemove true 3, .peek true, .clearList false]

def strayHeap : Heap Bool Nat := ⟨fun _ => some (.node 4), fun _ => some (.head true), fun _ => 9⟩

def listState : Heap Bool Nat × Lists Bool Nat :=
  (listMachine.exec (strayHeap, .none) listOps).get (by decide)

theorem lists_refine_sequences_small : Refines listState.1 listState.2 ∧ listState.2.seq true = [1] ∧
    ∃ h', Simulates listState.1 listState.2 (.pop true) h' :=
  have hrun : Run listMachine (fun _ _ => True) (strayHeap, .none)
      (listMachine.trace (strayHeap, .none) listOps) listState :=
    Run.ofExec (Option.some_get _).symm (by decide +kernel)
  have h := lists_refine_sequences (h := listState.1) (a := listState.2) hrun
  ⟨h.1, by decide +kernel, h.2.2 (.pop true) (by decide +kernel)⟩

end Yalnix
