import Yalnix.TrapRun
import Yalnix.Proofs.Schedule

/-!
# Parents and children

The loops of `find_zombie_child` and `orphan_children`, over the children list that they run through.
-/

namespace Yalnix

open Intrusive

variable {k k' : Kernel} {f : PcbPtr → List PcbPtr} {p c : PcbPtr}

theorem findZombieLoop_eq {xs : List PcbPtr} {a b : Ref PcbPtr PcbPtr} (hl : k.family.Linked a xs b) :
    findZombieLoop k xs.length (k.family.next a) =
      some (xs.find? fun c => (k.pcb c).state = .processZombie) := by
  induction xs generalizing a with
  | nil => cases k.family.next a <;> rfl
  | cons c xs ih =>
    rw [hl.1, List.length_cons, findZombieLoop, List.find?_cons]
    by_cases hz : (k.pcb c).state = .processZombie
    · simp [hz]
    · simp only [hz, decide_false]
      exact ih hl.2.2

/-- `find_zombie_child` finds the first terminated child. -/
theorem findZombieChild_eq (hf : k.family.Rep Set.univ f) :
    findZombieChild k p = some ((f p).find? fun c => (k.pcb c).state = .processZombie) := by
  have hl := hf.linked p (Set.mem_univ p)
  have hcount := hf.count p (Set.mem_univ p)
  unfold findZombieChild
  cases hs : f p with
  | nil => rw [if_pos ((hf.listIsEmpty_iff (Set.mem_univ p)).2 hs), List.find?_nil]
  | cons c xs =>
    have hne : ¬ k.family.listIsEmpty p = true := fun he => by
      rw [hf.listIsEmpty_iff (Set.mem_univ p), hs] at he
      cases he
    rw [if_neg hne, hcount, Int.toNat_natCast, Heap.peek, if_neg hne, findZombieLoop_eq hl, hs]

theorem findZombieLoop_state {n : Nat} {r : Option (Ref PcbPtr PcbPtr)} {z : PcbPtr}
    (h : findZombieLoop k n r = some (some z)) : (k.pcb z).state = .processZombie := by
  induction n generalizing r with
  | zero => cases r <;> cases h
  | succ n ih =>
    unfold findZombieLoop at h
    split at h
    · cases h
    · split at h
      · rename_i hz
        obtain rfl := Option.some.inj (Option.some.inj h)
        exact hz
      · rename_i hn _
        obtain rfl := Nat.succ.inj hn
        exact ih h
    · cases h

/-- Whatever the children list is like, the child found is a terminated one. -/
theorem findZombieChild_state {z : PcbPtr} (h : findZombieChild k p = some (some z)) :
    (k.pcb z).state = .processZombie := by
  unfold findZombieChild at h
  split at h
  · cases h
  · exact findZombieLoop_state h

/-- What `orphan_children` can do at most, whatever the children list is like. -/
structure Orphans (k k' : Kernel) : Prop where
  frame : k' = { k with pcb := k'.pcb, allocated := k'.allocated, family := k'.family }
  pcb : ∀ p, k'.pcb p = k.pcb p ∨ k'.pcb p = { k.pcb p with parent := none }
  allocated : ∀ p, k'.allocated p = k.allocated p ∨
    (k.pcb p).state = .processZombie ∧ k'.allocated p = false

theorem Orphans.trans {k₁ k₂ : Kernel} (h : Orphans k k₁) (h' : Orphans k₁ k₂) : Orphans k k₂ := by
  have hst : ∀ p, (k₁.pcb p).state = (k.pcb p).state := fun p => by
    rcases h.pcb p with e | e <;> rw [e]
  refine ⟨?_, fun p => ?_, fun p => ?_⟩
  · rw [h'.frame, h.frame]
  · rcases h.pcb p with e | e <;> rcases h'.pcb p with e' | e' <;> simp [e, e']
  · rcases h'.allocated p with e' | ⟨hz, e'⟩
    · rw [e']
      exact h.allocated p
    · exact Or.inr ⟨hst p ▸ hz, e'⟩

theorem orphanLoop_orphans {n : Nat} (h : orphanLoop p n k = some k') : Orphans k k' := by
  induction n generalizing k with
  | zero =>
    unfold orphanLoop at h
    split at h
    · obtain rfl := Option.some.inj h
      exact ⟨rfl, fun _ => Or.inl rfl, fun _ => Or.inl rfl⟩
    · cases h
  | succ n ih =>
    unfold orphanLoop at h
    split at h
    · obtain rfl := Option.some.inj h
      exact ⟨rfl, fun _ => Or.inl rfl, fun _ => Or.inl rfl⟩
    · simp only [Option.bind_eq_bind, Option.bind_eq_some_iff, Prod.exists] at h
      obtain ⟨node, family, -, h⟩ := h
      split at h
      · rename_i child
        split at h
        · rename_i hz
          have hfree : Orphans k (Kernel.free { k with family := family } child) := by
            refine ⟨rfl, fun _ => Or.inl rfl, fun q => ?_⟩
            by_cases e : q = child
            · subst e
              exact Or.inr ⟨hz, by simp [Kernel.free]⟩
            · exact Or.inl (by simp [Kernel.free, e])
          exact hfree.trans (ih h)
        · have horphan : Orphans k (Kernel.modifyPcb { k with family := family } child
              fun pcb => { pcb with parent := none }) := by
            refine ⟨rfl, fun q => ?_, fun _ => Or.inl rfl⟩
            by_cases e : q = child
            · subst e
              exact Or.inr (by simp [Kernel.modifyPcb])
            · exact Or.inl (by simp [Kernel.modifyPcb, e])
          exact horphan.trans (ih h)
      · cases h

/-- `orphan_children` takes some children their parent, and frees some terminated processes. -/
theorem orphanChildren_orphans (h : orphanChildren k p = some k') : Orphans k k' := by
  unfold orphanChildren at h
  split at h
  · obtain rfl := Option.some.inj h
    exact ⟨rfl, fun _ => Or.inl rfl, fun _ => Or.inl rfl⟩
  · exact orphanLoop_orphans h

/-- The state after `orphan_children` took the children `xs` from their list. -/
def orphaned (k : Kernel) (xs : List PcbPtr) (family : Heap PcbPtr PcbPtr) : Kernel :=
  { k with
    pcb := fun p =>
      if p ∈ xs ∧ (k.pcb p).state ≠ .processZombie then { k.pcb p with parent := none } else k.pcb p
    allocated := fun p => k.allocated p && !decide (p ∈ xs ∧ (k.pcb p).state = .processZombie)
    family := family }

theorem orphanLoop_eq (hf : k.family.Rep Set.univ f) {xs : List PcbPtr} (hs : f p = xs) :
    ∃ family, orphanLoop p xs.length k = some (orphaned k xs family) ∧
      family.Rep Set.univ (Function.update f p []) := by
  induction xs generalizing k f with
  | nil =>
    have he : k.family.listIsEmpty p = true := (hf.listIsEmpty_iff (Set.mem_univ p)).2 hs
    refine ⟨k.family, ?_, by rw [← hs, Function.update_eq_self]; exact hf⟩
    rw [List.length_nil, orphanLoop, if_pos he]
    simp [orphaned]
  | cons c xs ih =>
    have hne : ¬ k.family.listIsEmpty p = true := fun he => by
      rw [hf.listIsEmpty_iff (Set.mem_univ p), hs] at he
      cases he
    obtain ⟨family, hpop, hf'⟩ := hf.pop_cons (Set.mem_univ p) hs
    have hcxs : c ∉ xs := by
      have := hf.nodup p
      rw [hs, List.nodup_cons] at this
      exact this.1
    rw [List.length_cons, orphanLoop, if_neg hne, hpop]
    simp only [Option.bind_eq_bind, Option.bind_some]
    split
    · rename_i hz
      obtain ⟨family', hloop, hrep⟩ := ih (k := Kernel.free { k with family := family } c) hf' (by simp)
      refine ⟨family', hloop.trans (congrArg some ?_), by simpa using hrep⟩
      apply Kernel.ext <;> try rfl
      · funext q
        show (if q ∈ xs ∧ (k.pcb q).state ≠ _ then _ else _) = if q ∈ c :: xs ∧ _ then _ else _
        by_cases e : q = c
        · subst e; simp [hz, hcxs, Kernel.free]
        · simp [e, Kernel.free]
      · funext q
        show (Function.update k.allocated c false q && _) = _
        by_cases e : q = c
        · subst e; simp [orphaned, hz]
        · by_cases hq : q ∈ xs <;> simp [orphaned, e, Kernel.free, hq]
    · rename_i hz
      obtain ⟨family', hloop, hrep⟩ := ih
        (k := Kernel.modifyPcb { k with family := family } c fun pcb => { pcb with parent := none }) hf' (by simp)
      refine ⟨family', hloop.trans (congrArg some ?_), by simpa using hrep⟩
      apply Kernel.ext <;> try rfl
      · funext q
        by_cases e : q = c
        · subst e; simp [orphaned, Kernel.modifyPcb, hz, hcxs]
        · simp [orphaned, Kernel.modifyPcb, e]
      · funext q
        by_cases e : q = c
        · subst e; simp [orphaned, Kernel.modifyPcb, hz, hcxs]
        · simp [orphaned, Kernel.modifyPcb, e]

/-- `orphan_children` on the current process. -/
theorem orphanChildren_eq (hf : k.family.Rep Set.univ f) :
    ∃ family, orphanChildren k k.current_process =
        some (orphaned k (f k.current_process) family) ∧
      family.Rep Set.univ (Function.update f k.current_process []) := by
  unfold orphanChildren
  obtain ⟨family, hloop, hrep⟩ := orphanLoop_eq hf (p := k.current_process) rfl
  cases hs : f k.current_process with
  | nil =>
    refine ⟨k.family, ?_, by rw [← hs, Function.update_eq_self]; exact hf⟩
    rw [if_pos ((hf.listIsEmpty_iff (Set.mem_univ _)).2 hs)]
    simp [orphaned]
  | cons c xs =>
    have hne : ¬ k.family.listIsEmpty k.current_process = true := fun he => by
      rw [hf.listIsEmpty_iff (Set.mem_univ _), hs] at he
      cases he
    refine ⟨family, ?_, hrep⟩
    rw [if_neg hne, hf.count _ (Set.mem_univ _), Int.toNat_natCast, hloop, hs]

end Yalnix
