import Mathlib.Data.List.Basic

/-!
# A lock with direct hand-off

A lock has an owner or is free, and keeps those who asked for it while it was held in a line; a release
gives it to the first of the line. Whoever is in line was entered by a contended request, and leaves by
a grant.
-/

/-- A lock that nobody waits for while it is free. -/
@[ext]
structure FifoLock (P : Type) where
  owner : Option P
  waiters : List P
  free_of_owner : owner = none → waiters = []

namespace FifoLock

variable {P : Type}

/-- What happens at a lock. -/
inductive Label (P : Type) where
  | stutter
  | take (p : P)
  | queue (p : P)
  | grant (p next : P)
  | free (p : P)

namespace Label

/-- The contended request of a step. -/
def request : Label P → Option P
  | queue p => some p
  | _ => none

/-- The grant of a contended request. -/
def granted : Label P → Option P
  | grant _ next => some next
  | _ => none

end Label

inductive Step : FifoLock P → Label P → FifoLock P → Prop where
  | stutter {a b : FifoLock P} (hb : b.owner = a.owner) (hw : b.waiters = a.waiters) :
      Step a .stutter b
  | take {a b : FifoLock P} {p : P} (ha : a.owner = none) (hb : b.owner = some p)
      (hw : b.waiters = []) : Step a (.take p) b
  | queue {a b : FifoLock P} {p : P} (ha : a.owner ≠ none) (hb : b.owner = a.owner)
      (hw : b.waiters = a.waiters ++ [p]) : Step a (.queue p) b
  | grant {a b : FifoLock P} {p next : P} (ha : a.owner = some p) (hne : next ≠ p)
      (hb : b.owner = some next) (hw : a.waiters = next :: b.waiters) : Step a (.grant p next) b
  | free {a b : FifoLock P} {p : P} (ha : a.owner = some p) (hw : a.waiters = [])
      (hb : b.owner = none) : Step a (.free p) b

/-- A step appends its request to the line and takes its grant from the front. -/
theorem Step.line {a b : FifoLock P} {l : Label P} (h : Step a l b) :
    a.waiters ++ l.request.toList = l.granted.toList ++ b.waiters := by
  cases h with
  | stutter hb hw => simp [Label.request, Label.granted, hw]
  | take ha hb hw => simp [Label.request, Label.granted, a.free_of_owner ha, hw]
  | queue ha hb hw => simp [Label.request, Label.granted, hw]
  | grant ha hne hb hw => simp [Label.request, Label.granted, hw]
  | free ha hw hb => simp [Label.request, Label.granted, hw, b.free_of_owner hb]

/-- The owner after a step that changes it: who took the free lock, or the head of the line. -/
theorem Step.owner {a b : FifoLock P} {l : Label P} (h : Step a l b) (hne : b.owner ≠ a.owner) :
    (∃ p, l = .take p ∧ a.owner = none ∧ b.owner = some p) ∨
    (∃ p, ((∃ n, l = .grant p n) ∨ l = .free p) ∧ a.owner = some p ∧
      b.owner = a.waiters.head?) := by
  cases h with
  | stutter hb hw => exact absurd hb hne
  | take ha hb hw => exact Or.inl ⟨_, rfl, ha, hb⟩
  | queue ha hb hw => exact absurd hb hne
  | grant ha hn hb hw => exact Or.inr ⟨_, Or.inl ⟨_, rfl⟩, ha, by rw [hw, hb]; rfl⟩
  | free ha hw hb => exact Or.inr ⟨_, Or.inr rfl, ha, by rw [hw, hb]; rfl⟩

/-- A change of owner of a held lock is the grant of the step. -/
theorem Step.granted_eq [DecidableEq P] {a b : FifoLock P} {l : Label P} (h : Step a l b) (ha : a.owner ≠ none) :
    l.granted = if b.owner = a.owner then none else b.owner := by
  cases h with
  | stutter hb hw => simp [Label.granted, hb]
  | take ha' hb hw => exact absurd ha' ha
  | queue ha' hb hw => simp [Label.granted, hb]
  | grant ha' hn hb hw => simp [Label.granted, hb, ha', hn]
  | free ha' hw hb => simp [Label.granted, hb]

end FifoLock
