import Yalnix.Intrusive.Heap
import Mathlib.Data.List.Basic
import Mathlib.Data.List.Induction
import Mathlib.Data.List.Nodup
import Mathlib.Data.Set.Insert
import Mathlib.Tactic.Tauto

/-!
# The list operations on well-formed heaps

`Rep h D s` says which sequence of nodes each list of `D` runs through. On such a heap every
operation has a result, and acts on the sequences as append, prepend, take-first and delete.
-/

namespace Intrusive

variable {L N : Type}

namespace Heap

/-! ## Segments of a circle -/

/-- A segment is unchanged if the links of its own nodes are. -/
theorem Linked.congr {h h' : Heap L N} {xs : List N} {a b : Ref L N} (hl : h.Linked a xs b)
    (hn : ∀ r, r = a ∨ (∃ n ∈ xs, r = .node n) → h'.next r = h.next r)
    (hp : ∀ r, r = b ∨ (∃ n ∈ xs, r = .node n) → h'.prev r = h.prev r) : h'.Linked a xs b := by
  induction xs generalizing a with
  | nil => exact ⟨by rw [hn a (Or.inl rfl)]; exact hl.1, by rw [hp b (Or.inl rfl)]; exact hl.2⟩
  | cons n xs ih =>
    obtain ⟨h1, h2, h3⟩ := hl
    refine ⟨by rw [hn a (Or.inl rfl)]; exact h1, ?_, ih h3 (fun r hr => hn r ?_) (fun r hr => hp r ?_)⟩
    · rw [hp _ (Or.inr ⟨n, by simp, rfl⟩)]; exact h2
    · rcases hr with rfl | ⟨m, hm, rfl⟩
      · exact Or.inr ⟨n, by simp, rfl⟩
      · exact Or.inr ⟨m, by simp [hm], rfl⟩
    · rcases hr with rfl | ⟨m, hm, rfl⟩
      · exact Or.inl rfl
      · exact Or.inr ⟨m, by simp [hm], rfl⟩

/-- A segment can be cut at each of its nodes. -/
theorem linked_append_cons {h : Heap L N} {xs ys : List N} {n : N} {a b : Ref L N} :
    h.Linked a (xs ++ n :: ys) b ↔ h.Linked a xs (.node n) ∧ h.Linked (.node n) ys b := by
  induction xs generalizing a with
  | nil => simp [Linked, and_assoc]
  | cons m xs ih => simp [Linked, ih, and_assoc]

/-- What comes after the start of a segment. -/
theorem Linked.next_start {h : Heap L N} {xs : List N} {a b : Ref L N} (hl : h.Linked a xs b) :
    ∃ first, h.next a = some first ∧ (first = b ∨ ∃ m ∈ xs, first = .node m) := by
  cases xs with
  | nil => exact ⟨b, hl.1, Or.inl rfl⟩
  | cons m ys => exact ⟨_, hl.1, Or.inr ⟨m, by simp, rfl⟩⟩

/-- What comes before its end. -/
theorem Linked.prev_end {h : Heap L N} {xs : List N} {a b : Ref L N} (hl : h.Linked a xs b) :
    ∃ last, h.prev b = some last ∧ (last = a ∨ ∃ m ∈ xs, last = .node m) := by
  rcases List.eq_nil_or_concat xs with rfl | ⟨ys, m, rfl⟩
  · exact ⟨a, hl.2, Or.inl rfl⟩
  · rw [List.concat_eq_append] at hl ⊢
    exact ⟨_, (linked_append_cons.1 hl).2.2, Or.inr ⟨m, by simp, rfl⟩⟩

/-- Redirecting the last link of a segment to another end. -/
theorem Linked.retarget {h h' : Heap L N} {xs : List N} {a b b' : Ref L N} (hl : h.Linked a xs b)
    (hnd : xs.Nodup) (ha : ∀ n ∈ xs, a ≠ .node n)
    (hlast : ∀ u, h.prev b = some u → h'.next u = some b' ∧ h'.prev b' = some u)
    (hn : ∀ r, r = a ∨ (∃ n ∈ xs, r = .node n) → h.prev b ≠ some r → h'.next r = h.next r)
    (hp : ∀ n ∈ xs, h'.prev (.node n) = h.prev (.node n)) : h'.Linked a xs b' := by
  rcases List.eq_nil_or_concat xs with rfl | ⟨ys, m, rfl⟩
  · exact hlast a hl.2
  · simp only [List.concat_eq_append] at *
    obtain ⟨h1, h2⟩ := linked_append_cons.1 hl
    have hm := hlast (.node m) h2.2
    have hnm : m ∉ ys := fun hh => by
      have := List.nodup_append.1 hnd
      exact this.2.2 m hh m (by simp) rfl
    refine linked_append_cons.2 ⟨h1.congr (fun r hr => hn r ?_ ?_) (fun r hr => ?_), hm⟩
    · rcases hr with rfl | ⟨n, hn', rfl⟩
      · exact Or.inl rfl
      · exact Or.inr ⟨n, by simp [hn'], rfl⟩
    · rw [h2.2]
      rcases hr with rfl | ⟨n, hn', rfl⟩
      · exact fun e => ha m (by simp) (by simpa using e.symm)
      · intro e
        simp only [Option.some.injEq, Ref.node.injEq] at e
        exact hnm (e ▸ hn')
    · rcases hr with rfl | ⟨n, hn', rfl⟩
      · exact hp m (by simp)
      · exact hp n (by simp [hn'])

/-- Every node of a segment is reached from its start. -/
theorem Linked.reach {h : Heap L N} {xs : List N} {a b : Ref L N} (hl : h.Linked a xs b) {n : N}
    (hn : n ∈ xs) : Relation.ReflTransGen (fun a b => h.next a = some b) a (.node n) := by
  induction xs generalizing a with
  | nil => simp at hn
  | cons m xs ih =>
    rcases List.mem_cons.1 hn with rfl | hn
    · exact .single hl.1
    · exact .head hl.1 (ih hl.2.2 hn)

/-- Following `next` from a node of a circle stays on the circle. -/
theorem linked_next_closed {h : Heap L N} {xs : List N} {a b r q : Ref L N} (hl : h.Linked a xs b)
    (hr : r = a ∨ ∃ n ∈ xs, r = .node n) (hq : h.next r = some q) :
    q = b ∨ ∃ n ∈ xs, q = .node n := by
  induction xs generalizing a with
  | nil =>
    rcases hr with rfl | ⟨n, hn, -⟩
    · exact Or.inl (by rw [hl.1] at hq; simpa using hq.symm)
    · simp at hn
  | cons m xs ih =>
    rcases hr with rfl | ⟨n, hn, rfl⟩
    · exact Or.inr ⟨m, by simp, by rw [hl.1] at hq; simpa using hq.symm⟩
    · have : Ref.node n = Ref.node (L := L) m ∨ ∃ k ∈ xs, Ref.node (L := L) n = .node k := by
        rcases List.mem_cons.1 hn with rfl | hn
        · exact Or.inl rfl
        · exact Or.inr ⟨n, hn, rfl⟩
      rcases ih hl.2.2 this with hh | ⟨k, hk, rfl⟩
      · exact Or.inl hh
      · exact Or.inr ⟨k, by simp [hk], rfl⟩

/-- Walking along a segment collects its nodes. -/
theorem Linked.walk {h : Heap L N} {xs : List N} {a b : Ref L N} (hl : h.Linked a xs b) :
    h.walk xs.length (h.next a) = xs := by
  induction xs generalizing a with
  | nil => cases h.next a <;> rfl
  | cons n xs ih =>
    rw [hl.1]
    show n :: h.walk xs.length (h.next (.node n)) = n :: xs
    rw [ih hl.2.2]

/-- The loop of `list_contains` goes along a segment that ends in the sentinel. -/
theorem Linked.containsLoop [DecidableEq L] [DecidableEq N] {h : Heap L N} {xs : List N} {a : Ref L N}
    {l : L} (hl : h.Linked a xs (.head l)) (n : N) :
    h.containsLoop l n (xs.length + 1) (h.next a) = some (decide (n ∈ xs)) := by
  induction xs generalizing a with
  | nil =>
    rw [hl.1]
    simp [Heap.containsLoop]
  | cons m xs ih =>
    rw [hl.1, List.length_cons, Heap.containsLoop, if_neg (by simp)]
    by_cases e : m = n
    · subst e
      simp
    · have hne : ¬ n = m := fun h => e h.symm
      rw [if_neg (by simpa using e), ih hl.2.2]
      simp [hne]

/-- The `next` pointers of a segment lead through its nodes. -/
theorem Linked.next_chain {h : Heap L N} {xs : List N} {a b : Ref L N} (hl : h.Linked a xs b) :
    List.IsChain (fun r q => h.next r = some q) (a :: (xs.map .node ++ [b])) := by
  induction xs generalizing a with
  | nil => simpa using hl.1
  | cons n xs ih => exact List.isChain_cons_cons.2 ⟨hl.1, ih hl.2.2⟩

/-- The `prev` pointers lead through them in reverse. -/
theorem Linked.prev_chain {h : Heap L N} {xs : List N} {a b : Ref L N} (hl : h.Linked a xs b) :
    List.IsChain (fun r q => h.prev r = some q) (b :: (xs.reverse.map .node ++ [a])) := by
  induction xs using List.reverseRecOn generalizing b with
  | nil => simpa using hl.2
  | append_singleton xs n ih =>
    obtain ⟨h1, h2⟩ := linked_append_cons.1 hl
    rw [List.reverse_append]
    exact List.isChain_cons_cons.2 ⟨h2.2, ih h1⟩

namespace SameBut

variable {h h₁ h₂ : Heap L N} {l : L} {xs ys : List N}

theorem refl (h : Heap L N) (l : L) (xs : List N) : h.SameBut h l xs :=
  ⟨fun _ _ _ => rfl, fun _ _ _ => rfl, fun _ _ => rfl⟩

theorem trans (h12 : h.SameBut h₁ l xs) (h23 : h₁.SameBut h₂ l xs) : h.SameBut h₂ l xs where
  next r hl hxs := (h23.next r hl hxs).trans (h12.next r hl hxs)
  prev r hl hxs := (h23.prev r hl hxs).trans (h12.prev r hl hxs)
  count l' hl := (h23.count l' hl).trans (h12.count l' hl)

theorem mono (hs : h.SameBut h₁ l xs) (hsub : xs ⊆ ys) : h.SameBut h₁ l ys where
  next r hl hys := hs.next r hl fun m hm => hys m (hsub hm)
  prev r hl hys := hs.prev r hl fun m hm => hys m (hsub hm)
  count := hs.count

end SameBut

namespace Rep

variable {h : Heap L N} {D : Set L} {s : L → List N} {l : L} {n : N}

theorem toList (hr : h.Rep D s) (hl : l ∈ D) : h.toList l = s l := by
  rw [Heap.toList, hr.count l hl, Int.toNat_natCast]
  exact (hr.linked l hl).walk

/-- The sequences are determined by the heap. -/
theorem eq_toList (hr : h.Rep Set.univ s) : s = h.toList :=
  funext fun l => (hr.toList (Set.mem_univ l)).symm

/-- Being linked into a list, by pointers, is being a node of its sequence. -/
theorem onList_iff (hr : h.Rep D s) (hl : l ∈ D) : h.OnList l n ↔ n ∈ s l := by
  constructor
  · intro hh
    have key : ∀ q : Ref L N, Relation.ReflTransGen (fun a b => h.next a = some b) (.head l) q →
        q = .head l ∨ ∃ m ∈ s l, q = .node m := by
      intro q hq
      induction hq with
      | refl => exact Or.inl rfl
      | tail _ hstep ih => exact linked_next_closed (hr.linked l hl) ih hstep
    rcases key _ hh with e | ⟨m, hm, e⟩
    · cases e
    · cases e; exact hm
  · exact (hr.linked l hl).reach

theorem listIsEmpty_iff (hr : h.Rep D s) (hl : l ∈ D) : h.listIsEmpty l = true ↔ s l = [] := by
  simp [listIsEmpty, hr.count l hl]

/-! ## The operations -/

/-- A change that touches one list, through its own nodes and through nodes of no list, and makes it a circle
through some of these. -/
theorem frame [DecidableEq L] (hr : h.Rep D s) {h' : Heap L N} {xs ys : List N}
    (hlink : h'.Linked (.head l) xs (.head l)) (hcount : h'.count l = xs.length) (hnd : xs.Nodup)
    (hxs : xs ⊆ ys) (hys : ∀ m ∈ ys, m ∈ s l ∨ ∀ l', m ∉ s l') (hsame : h.SameBut h' l ys) :
    h'.Rep (insert l D) (Function.update s l xs) := by
  have one : ∀ l' m, m ∈ ys → m ∈ s l' → l' = l := fun l' m hm hm' => by
    rcases hys m hm with hh | hh
    · exact hr.disjoint hm' hh
    · exact absurd hm' (hh l')
  have other : ∀ l', l' ≠ l → ∀ r, r = .head l' ∨ (∃ m ∈ s l', r = .node m) →
      h'.next r = h.next r ∧ h'.prev r = h.prev r := by
    intro l' e r hr'
    have hhead : r ≠ .head l := by
      rintro rfl
      simp [Ne.symm e] at hr'
    have hnode : ∀ m ∈ ys, r ≠ .node m := by
      rintro m hm rfl
      rcases hr' with hh | ⟨k, hk, hh⟩
      · cases hh
      · cases hh
        exact e (one l' m hm hk)
    exact ⟨hsame.next r hhead hnode, hsame.prev r hhead hnode⟩
  refine ⟨fun l' hl' => ?_, fun l' hl' => ?_, fun l' => ?_, ?_, fun l' hl' => ?_⟩
  · by_cases e : l' = l
    · subst e; simpa using hlink
    · rw [Function.update_of_ne e]
      exact (hr.linked l' (hl'.resolve_left e)).congr (fun r h1 => (other l' e r h1).1)
        (fun r h1 => (other l' e r h1).2)
  · by_cases e : l' = l
    · subst e; simpa using hcount
    · rw [Function.update_of_ne e, hsame.count l' e, hr.count l' (hl'.resolve_left e)]
  · by_cases e : l' = l
    · subst e; simpa using hnd
    · rw [Function.update_of_ne e]; exact hr.nodup l'
  · intro l1 l2 m h1 h2
    by_cases e1 : l1 = l
    · by_cases e2 : l2 = l
      · rw [e1, e2]
      · subst e1
        rw [Function.update_self] at h1
        rw [Function.update_of_ne e2] at h2
        exact (one l2 m (hxs h1) h2).symm
    · rw [Function.update_of_ne e1] at h1
      by_cases e2 : l2 = l
      · subst e2
        rw [Function.update_self] at h2
        exact one l1 m (hxs h2) h1
      · rw [Function.update_of_ne e2] at h2
        exact hr.disjoint h1 h2
  · have e : l' ≠ l := fun e => hl' (Or.inl e)
    rw [Function.update_of_ne e]
    exact hr.support l' fun hD => hl' (Or.inr hD)

/-- The neighbours of a node. -/
theorem neighbours (hr : h.Rep D s) (hl : l ∈ D) {xs ys : List N} (e : s l = xs ++ n :: ys) :
    ∃ temp after, h.prev (.node n) = some temp ∧ h.next (.node n) = some after ∧
      (temp = .head l ∨ ∃ m ∈ xs, temp = .node m) ∧ (after = .head l ∨ ∃ m ∈ ys, after = .node m) := by
  have hlink := hr.linked l hl
  rw [e] at hlink
  obtain ⟨h1, h2⟩ := linked_append_cons.1 hlink
  obtain ⟨temp, htemp, hmt⟩ := h1.prev_end
  obtain ⟨after, hafter, hma⟩ := h2.next_start
  exact ⟨temp, after, htemp, hafter, hmt, hma⟩

/-- `peek` answers with the first node. -/
theorem peek (hr : h.Rep D s) (hl : l ∈ D) : h.peek l = (s l).head?.map .node := by
  have hlink := hr.linked l hl
  cases hs : s l with
  | nil => simp [Heap.peek, listIsEmpty, hr.count l hl, hs]
  | cons n xs =>
    rw [hs] at hlink
    have hcount : h.count l ≠ 0 := by rw [hr.count l hl, hs]; simp; omega
    simp [Heap.peek, listIsEmpty, hcount, hlink.1]

section Operations

variable [DecidableEq L]

theorem listInit_sameBut (h : Heap L N) (l : L) [DecidableEq N] : h.SameBut (h.listInit l) l [] := by
  constructor
  · intro r h1 _
    simp [Heap.listInit, setNext, setPrev, setCount, h1]
  · intro r h1 _
    simp [Heap.listInit, setNext, setPrev, setCount, h1]
  · intro l' e
    simp [Heap.listInit, setNext, setPrev, setCount, e]

/-- A list becomes an empty circle, whatever it was. -/
theorem listInit_any [DecidableEq N] (hr : h.Rep D s) (l : L) :
    (h.listInit l).Rep (insert l D) (Function.update s l []) := by
  refine hr.frame ?_ ?_ List.nodup_nil (List.nil_subset []) (by simp) (listInit_sameBut h l)
  · simp [Heap.listInit, setNext, setPrev, setCount, Linked]
  · simp [Heap.listInit, setNext, setPrev, setCount]

variable [DecidableEq N]

theorem listInit (hr : h.Rep Set.univ s) (hs : s l = []) : (h.listInit l).Rep Set.univ s := by
  have hinit := hr.listInit_any l
  rwa [← hs, Function.update_eq_self, Set.insert_eq_of_mem (Set.mem_univ l)] at hinit

theorem insertTail_sameBut (hr : h.Rep D s) (hl : l ∈ D) {h' : Heap L N}
    (hins : h.insertTail l n = some h') : h.SameBut h' l (n :: s l) := by
  obtain ⟨last, hlast, hmem⟩ := (hr.linked l hl).prev_end
  have hne : ∀ r, r ≠ .head l → (∀ m ∈ n :: s l, r ≠ .node m) → r ≠ last ∧ r ≠ .node n := by
    intro r h1 h2
    refine ⟨?_, h2 n (by simp)⟩
    rcases hmem with rfl | ⟨m, hm, rfl⟩
    · exact h1
    · exact h2 m (by simp [hm])
  simp [Heap.insertTail, setNext, setPrev, setCount, hlast] at hins
  subst hins
  constructor
  · intro r h1 h2
    obtain ⟨h3, h4⟩ := hne r h1 h2
    simp [h3, h4]
  · intro r h1 h2
    obtain ⟨-, h4⟩ := hne r h1 h2
    simp [h1, h4]
  · intro l' e
    simp [e]

theorem insertTail (hr : h.Rep D s) (hl : l ∈ D) (hn : ∀ l', n ∉ s l') :
    ∃ h', h.insertTail l n = some h' ∧ h'.Rep D (Function.update s l (s l ++ [n])) := by
  have hnd := hr.nodup l
  have hne : ∀ m ∈ s l, m ≠ n := fun m hm e => hn l (e ▸ hm)
  obtain ⟨last, hlast, hmem⟩ := (hr.linked l hl).prev_end
  have hlastn : last ≠ .node n := by
    rcases hmem with rfl | ⟨m, hm, rfl⟩
    · simp
    · simpa using hne m hm
  have hins : ∃ h', h.insertTail l n = some h' := by
    simp [Heap.insertTail, setNext, setPrev, setCount, hlast]
  obtain ⟨h', hins⟩ := hins
  have hsame := hr.insertTail_sameBut hl hins
  refine ⟨h', hins, ?_⟩
  rw [← Set.insert_eq_of_mem hl]
  simp [Heap.insertTail, setNext, setPrev, setCount, hlast] at hins
  subst hins
  refine hr.frame (linked_append_cons.2 ⟨(hr.linked l hl).retarget hnd (by simp) ?_ ?_ ?_, ?_⟩)
    ?_ ?_ ?_ ?_ hsame
  · intro u hu
    rw [hlast] at hu
    simp only [Option.some.injEq] at hu
    subst hu
    simp
  · intro r hr' hru
    have h1 : r ≠ last := fun e => hru (by rw [hlast, e])
    have h2 : r ≠ .node n := by
      rcases hr' with rfl | ⟨m, hm, rfl⟩
      · simp
      · simpa using hne m hm
    simp [h1, h2]
  · intro m hm
    simp [hne m hm]
  · simp [Linked, hlastn.symm]
  · simp [hr.count l hl]
  · refine List.nodup_append.2 ⟨hnd, List.nodup_singleton n, fun a ha b hb => ?_⟩
    rw [List.mem_singleton.1 hb]
    exact hne a ha
  · simp
  · intro m hm
    rcases List.mem_cons.1 hm with rfl | hm
    · exact Or.inr hn
    · exact Or.inl hm

theorem insertHead_sameBut (hr : h.Rep D s) (hl : l ∈ D) {h' : Heap L N}
    (hins : h.insertHead l n = some h') : h.SameBut h' l (n :: s l) := by
  obtain ⟨first, hfirst, hmem⟩ := (hr.linked l hl).next_start
  have hne : ∀ r, r ≠ .head l → (∀ m ∈ n :: s l, r ≠ .node m) → r ≠ first ∧ r ≠ .node n := by
    intro r h1 h2
    refine ⟨?_, h2 n (by simp)⟩
    rcases hmem with rfl | ⟨m, hm, rfl⟩
    · exact h1
    · exact h2 m (by simp [hm])
  simp [Heap.insertHead, setNext, setPrev, setCount, hfirst] at hins
  subst hins
  constructor
  · intro r h1 h2
    obtain ⟨-, h4⟩ := hne r h1 h2
    simp [h1, h4]
  · intro r h1 h2
    obtain ⟨h3, h4⟩ := hne r h1 h2
    simp [h3, h4]
  · intro l' e
    simp [e]

theorem insertHead (hr : h.Rep D s) (hl : l ∈ D) (hn : ∀ l', n ∉ s l') :
    ∃ h', h.insertHead l n = some h' ∧ h'.Rep D (Function.update s l (n :: s l)) := by
  have hnd := hr.nodup l
  have hne : ∀ m ∈ s l, m ≠ n := fun m hm e => hn l (e ▸ hm)
  have hlink := hr.linked l hl
  -- the first node, and the segment that starts there
  obtain ⟨first, hfirst, hmem⟩ := (hr.linked l hl).next_start
  have hfirstn : first ≠ .node n := by
    rcases hmem with rfl | ⟨m, hm, rfl⟩
    · simp
    · simpa using hne m hm
  have hins : ∃ h', h.insertHead l n = some h' := by
    simp [Heap.insertHead, setNext, setPrev, setCount, hfirst]
  obtain ⟨h', hins⟩ := hins
  have hsame := hr.insertHead_sameBut hl hins
  refine ⟨h', hins, ?_⟩
  rw [← Set.insert_eq_of_mem hl]
  simp [Heap.insertHead, setNext, setPrev, setCount, hfirst] at hins
  subst hins
  refine hr.frame ⟨by simp, by simp [hfirstn.symm], ?_⟩ ?_ ?_ ?_ ?_ hsame
  · cases e : s l with
    | nil =>
      rw [e] at hlink
      have : first = .head l := by simpa [hfirst] using hlink.1
      subst this
      simp [Linked]
    | cons m ys =>
      rw [e] at hlink hne hnd
      have : first = .node m := by simpa [hfirst] using hlink.1
      subst this
      have hm : m ≠ n := hne m (by simp)
      refine ⟨by simp, by simp, hlink.2.2.congr (fun r h1 => ?_) (fun r h1 => ?_)⟩
      · have h2 : r ≠ .head l := by rcases h1 with rfl | ⟨k, -, rfl⟩ <;> simp
        have h3 : r ≠ .node n := by
          rcases h1 with rfl | ⟨k, hk, rfl⟩
          · simpa using hm
          · simpa using hne k (by simp [hk])
        simp [h2, h3]
      · have h2 : r ≠ .node m := by
          rcases h1 with rfl | ⟨k, hk, rfl⟩
          · simp
          · intro e'; cases e'; exact (List.nodup_cons.1 hnd).1 hk
        have h3 : r ≠ .node n := by
          rcases h1 with rfl | ⟨k, hk, rfl⟩
          · simp
          · simpa using hne k (by simp [hk])
        simp [h2, h3]
  · simp [hr.count l hl]
  · exact List.nodup_cons.2 ⟨hn l, hnd⟩
  · exact List.Subset.refl _
  · intro m hm
    rcases List.mem_cons.1 hm with rfl | hm
    · exact Or.inr hn
    · exact Or.inl hm

theorem listRemove_sameBut (hr : h.Rep D s) (hl : l ∈ D) (hn : n ∈ s l) :
    h.SameBut (h.listRemove l n) l (s l) := by
  obtain ⟨xs, ys, e⟩ := List.append_of_mem hn
  obtain ⟨temp, after, htemp, hafter, hmt, hma⟩ := hr.neighbours hl e
  have hne : ∀ r, r ≠ .head l → (∀ m ∈ s l, r ≠ .node m) → r ≠ temp ∧ r ≠ after ∧ r ≠ .node n := by
    intro r h1 h2
    refine ⟨?_, ?_, h2 n hn⟩
    · rcases hmt with rfl | ⟨m, hm, rfl⟩
      · exact h1
      · exact h2 m (by simp [e, hm])
    · rcases hma with rfl | ⟨m, hm, rfl⟩
      · exact h1
      · exact h2 m (by simp [e, hm])
  simp only [Heap.listRemove, htemp, hafter, setNext, setPrev, setCount]
  constructor
  · intro r h1 h2
    obtain ⟨h3, -, h4⟩ := hne r h1 h2
    simp [h3, h4]
  · intro r h1 h2
    obtain ⟨-, h3, h4⟩ := hne r h1 h2
    simp [h3, h4]
  · intro l' e'
    simp [e']

theorem listRemove_unlinked (hr : h.Rep D s) (hl : l ∈ D) (hn : n ∈ s l) :
    (h.listRemove l n).Unlinked n := by
  obtain ⟨xs, ys, e⟩ := List.append_of_mem hn
  obtain ⟨temp, after, htemp, hafter, -⟩ := hr.neighbours hl e
  simp [Unlinked, Heap.listRemove, htemp, hafter, setNext, setPrev, setCount]

theorem listRemove (hr : h.Rep D s) (hl : l ∈ D) (hn : n ∈ s l) :
    (h.listRemove l n).Rep D (Function.update s l ((s l).erase n)) := by
  have hsame := hr.listRemove_sameBut hl hn
  have hnd := hr.nodup l
  have hlink := hr.linked l hl
  obtain ⟨xs, ys, e⟩ := List.append_of_mem hn
  rw [e] at hlink hnd
  obtain ⟨h1, h2⟩ := linked_append_cons.1 hlink
  have hdis := (List.nodup_append.1 hnd).2.2
  have hndy := (List.nodup_cons.1 (List.nodup_append.1 hnd).2.1)
  have hnx : n ∉ xs := fun hh => hdis n hh n (by simp) rfl
  have herase : (s l).erase n = xs ++ ys := by
    rw [e, List.erase_append_right _ hnx, List.erase_cons_head]
  obtain ⟨temp, after, htemp, hafter, hmt, hma⟩ := hr.neighbours hl e
  have htn : temp ≠ .node n := by
    rcases hmt with rfl | ⟨m, hm, rfl⟩
    · simp
    · intro e'; cases e'; exact hnx hm
  have han : after ≠ .node n := by
    rcases hma with rfl | ⟨m, hm, rfl⟩
    · simp
    · intro e'; cases e'; exact hndy.1 hm
  rw [herase, ← Set.insert_eq_of_mem hl]
  simp only [Heap.listRemove, htemp, hafter, setNext, setPrev, setCount] at hsame ⊢
  refine hr.frame ?_ ?_ ?_ ?_ (fun m hm => Or.inl hm) hsame
  · -- the segment before the node now ends at `after`
    have hseg : ∀ b, after = b → Linked (L := L) (N := N)
        ⟨Function.update (Function.update h.prev after (some temp)) (.node n) none,
          Function.update (Function.update h.next temp (some after)) (.node n) none,
          Function.update h.count l (h.count l - 1)⟩ (.head l) xs b := by
      rintro b rfl
      refine h1.retarget (List.nodup_append.1 hnd).1 (by simp) ?_ ?_ ?_
      · intro u hu
        rw [htemp] at hu
        simp only [Option.some.injEq] at hu
        subst hu
        simp [htn, han]
      · intro r hr' hru
        have h3 : r ≠ temp := fun e' => hru (by rw [htemp, e'])
        have h4 : r ≠ .node n := by
          rcases hr' with rfl | ⟨m, hm, rfl⟩
          · simp
          · intro e'; cases e'; exact hnx hm
        simp [h3, h4]
      · intro m hm
        have h3 : Ref.node (L := L) m ≠ after := by
          rcases hma with rfl | ⟨k, hk, rfl⟩
          · simp
          · intro e'; cases e'; exact hdis m hm m (by simp [hk]) rfl
        have h4 : m ≠ n := fun e' => hnx (e' ▸ hm)
        simp [h3, h4]
    cases ys with
    | nil =>
      have : after = .head l := by simpa [hafter] using h2.1
      rw [List.append_nil]
      exact hseg _ this
    | cons m zs =>
      have hm : after = .node m := by simpa [hafter] using h2.1
      refine linked_append_cons.2 ⟨hseg _ hm, h2.2.2.congr (fun r h3 => ?_) (fun r h3 => ?_)⟩
      · have h4 : r ≠ temp := by
          rcases hmt with rfl | ⟨k, hk, rfl⟩
          · rcases h3 with rfl | ⟨_, _, rfl⟩ <;> simp
          · rcases h3 with rfl | ⟨j, hj, rfl⟩
            · simpa using (hdis k hk m (by simp)).symm
            · simpa using (hdis k hk j (by simp [hj])).symm
        have h5 : r ≠ .node n := by
          rintro rfl
          rcases h3 with e' | ⟨j, hj, e'⟩
          · cases e'; exact hndy.1 (by simp)
          · cases e'; exact hndy.1 (by simp [hj])
        simp [h4, h5]
      · have h4 : r ≠ after := by
          rw [hm]
          rintro rfl
          rcases h3 with e' | ⟨j, hj, e'⟩
          · cases e'
          · cases e'; exact (List.nodup_cons.1 hndy.2).1 hj
        have h5 : r ≠ .node n := by
          rintro rfl
          rcases h3 with e' | ⟨j, hj, e'⟩
          · cases e'
          · cases e'; exact hndy.1 (by simp [hj])
        simp [h4, h5]
  · simp [hr.count l hl, e]; omega
  · exact herase ▸ (hr.nodup l).erase n
  · intro m hm
    rw [e]
    rcases List.mem_append.1 hm with hm | hm <;> simp [hm]

theorem pop_nil (hr : h.Rep D s) (hl : l ∈ D) (hs : s l = []) : h.pop l = some (none, h) := by
  simp [Heap.pop, listIsEmpty, hr.count l hl, hs]

/-- Popping the first node is removing it. -/
theorem pop_eq (hr : h.Rep D s) (hl : l ∈ D) {xs : List N} (hs : s l = n :: xs) :
    h.pop l = some (some (.node n), h.listRemove l n) := by
  have hlink := hr.linked l hl
  rw [hs] at hlink
  obtain ⟨h1, h2, h3⟩ := hlink
  obtain ⟨after, hafter, -⟩ := h3.next_start
  have hcount : h.count l ≠ 0 := by rw [hr.count l hl, hs]; simp; omega
  simp [Heap.pop, listIsEmpty, hcount, h1, hafter, Heap.listRemove, h2, setNext, setPrev, setCount]

theorem pop_cons (hr : h.Rep D s) (hl : l ∈ D) {xs : List N} (hs : s l = n :: xs) :
    ∃ h', h.pop l = some (some (.node n), h') ∧ h'.Rep D (Function.update s l xs) := by
  have hrem := hr.listRemove hl (n := n) (by rw [hs]; simp)
  rw [hs, List.erase_cons_head] at hrem
  exact ⟨h.listRemove l n, hr.pop_eq hl hs, hrem⟩

/-- Clearing a list unlinks its nodes one after the other. -/
theorem clearLoop (hr : h.Rep D s) (hl : l ∈ D) :
    ∃ h', Heap.clearLoop l (s l).length h = some (true, h') ∧ h'.Rep D (Function.update s l []) ∧
      h.SameBut h' l (s l) ∧ ∀ n ∈ s l, h'.Unlinked n := by
  generalize hn : (s l).length = m
  induction m generalizing h s with
  | zero =>
    have hs := List.eq_nil_of_length_eq_zero hn
    refine ⟨h, ?_, ?_, .refl h l _, by simp [hs]⟩
    · simp [Heap.clearLoop, hr.count l hl, hs]
    · rwa [← hs, Function.update_eq_self]
  | succ m ih =>
    cases hs : s l with
    | nil => simp [hs] at hn
    | cons p xs =>
      have hp : p ∈ s l := by simp [hs]
      have hpx : p ∉ xs := (List.nodup_cons.1 (hs ▸ hr.nodup l)).1
      have hrem := hr.listRemove hl hp
      have hsame := hr.listRemove_sameBut hl hp
      have hgone := hr.listRemove_unlinked hl hp
      rw [hs, List.erase_cons_head] at hrem
      rw [hs] at hsame
      obtain ⟨h', hloop, hr', hsame', hgone'⟩ := ih hrem (by simpa [hs] using hn)
      rw [Function.update_idem] at hr'
      rw [Function.update_self] at hsame' hgone'
      refine ⟨h', ?_, hr', hsame.trans (hsame'.mono (by simp)), fun n hn => ?_⟩
      · have hpos : h.count l > 0 := by
          rw [hr.count l hl, hs, List.length_cons]
          omega
        rw [Heap.clearLoop, if_pos hpos, hr.pop_eq hl hs]
        exact hloop
      · rcases List.mem_cons.1 hn with rfl | hn
        · -- the node that goes first is touched no more
          have hne : ∀ m ∈ xs, Ref.node (L := L) n ≠ .node m := by
            rintro m hm e
            cases e
            exact hpx hm
          exact ⟨(hsame'.next _ (by simp) hne).trans hgone.1, (hsame'.prev _ (by simp) hne).trans hgone.2⟩
        · exact hgone' n hn

theorem clearList_spec (hr : h.Rep D s) (hl : l ∈ D) :
    ∃ h', h.clearList l = some (true, h') ∧ h'.Rep D (Function.update s l []) ∧
      h.SameBut h' l (s l) ∧ ∀ n ∈ s l, h'.Unlinked n := by
  rw [Heap.clearList, hr.count l hl, Int.toNat_natCast]
  exact hr.clearLoop hl

theorem clearList (hr : h.Rep D s) (hl : l ∈ D) :
    ∃ h', h.clearList l = some (true, h') ∧ h'.Rep D (Function.update s l []) := by
  obtain ⟨h', hclear, hr', -⟩ := hr.clearList_spec hl
  exact ⟨h', hclear, hr'⟩

/-- `list_contains` comes round. -/
theorem listContains (hr : h.Rep D s) (hl : l ∈ D) (n : N) :
    h.listContains l n = some (decide (n ∈ s l)) := by
  rw [Heap.listContains, hr.count l hl, Int.toNat_natCast]
  exact (hr.linked l hl).containsLoop n

end Operations

end Rep

/-- Clearing a list whose counter is zero does nothing. -/
theorem clearList_of_count [DecidableEq L] [DecidableEq N] {h : Heap L N} {l : L} (hc : h.count l = 0) :
    h.clearList l = some (true, h) := by
  simp [clearList, clearLoop, hc]

/-- The empty heap has only empty circles. -/
theorem rep_empty (D : Set L) : (empty : Heap L N).Rep D (fun _ => []) :=
  ⟨fun _ _ => ⟨rfl, rfl⟩, fun _ _ => rfl, fun _ => List.nodup_nil, fun h => by simp at h,
    fun _ _ => rfl⟩

end Heap

end Intrusive
