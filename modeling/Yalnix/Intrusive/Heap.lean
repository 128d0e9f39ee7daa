import Mathlib.Logic.Function.Basic
import Mathlib.Data.Set.Basic

/-!
# Intrusive circular lists

A heap of doubly linked lists with a sentinel: every list `l : L` owns one sentinel node, every
element `n : N` embeds one node. The nodes carry `prev` and `next` pointers, a list carries a
separately maintained `count`.

The operations patch the pointers in the order of the C text. A pointer is `none` when it is `NULL`;
an operation that would dereference `NULL` has no result.
-/

namespace Intrusive

/-- The address of a list node: the sentinel of the list `l`, or the node embedded in `n`. -/
inductive Ref (L N : Type) where
  | head (l : L)
  | node (n : N)
deriving DecidableEq

/-- The nodes of all lists, and the counters of the lists. -/
structure Heap (L N : Type) where
  prev : Ref L N → Option (Ref L N)
  next : Ref L N → Option (Ref L N)
  count : L → Int

variable {L N : Type} [DecidableEq L] [DecidableEq N]

namespace Heap

/-- The heap in which every list is as `listInit` leaves it, and no node is linked. -/
def empty : Heap L N where
  prev := fun r => match r with
    | .head l => some (.head l)
    | .node _ => none
  next := fun r => match r with
    | .head l => some (.head l)
    | .node _ => none
  count := fun _ => 0

def setPrev (h : Heap L N) (r : Ref L N) (v : Option (Ref L N)) : Heap L N :=
  { h with prev := Function.update h.prev r v }

def setNext (h : Heap L N) (r : Ref L N) (v : Option (Ref L N)) : Heap L N :=
  { h with next := Function.update h.next r v }

def setCount (h : Heap L N) (l : L) (c : Int) : Heap L N :=
  { h with count := Function.update h.count l c }

/-- `list_init`. -/
def listInit (h : Heap L N) (l : L) : Heap L N :=
  let h := h.setCount l 0
  let h := h.setPrev (.head l) (some (.head l))
  h.setNext (.head l) (some (.head l))

/-- `insert_tail`. -/
def insertTail (h : Heap L N) (l : L) (n : N) : Option (Heap L N) := do
  let h := h.setPrev (.node n) (h.prev (.head l))
  let h := h.setNext (.node n) (some (.head l))
  let last ← h.prev (.head l)
  let h := h.setNext last (some (.node n))
  let h := h.setPrev (.head l) (some (.node n))
  return h.setCount l (h.count l + 1)

/-- `insert_head`. -/
def insertHead (h : Heap L N) (l : L) (n : N) : Option (Heap L N) := do
  let h := h.setPrev (.node n) (some (.head l))
  let h := h.setNext (.node n) (h.next (.head l))
  let first ← h.next (.head l)
  let h := h.setPrev first (some (.node n))
  let h := h.setNext (.head l) (some (.node n))
  return h.setCount l (h.count l + 1)

/-- `list_remove`: a node with a `NULL` link is left alone. The caller names the list whose counter
goes down, the links decide which list the node leaves. -/
def listRemove (h : Heap L N) (l : L) (n : N) : Heap L N :=
  match h.prev (.node n), h.next (.node n) with
  | some temp, some after =>
    let h := h.setNext temp (some after)
    let h := h.setPrev after (some temp)
    let h := h.setNext (.node n) none
    let h := h.setPrev (.node n) none
    h.setCount l (h.count l - 1)
  | _, _ => h

/-- `list_is_empty`. -/
def listIsEmpty (h : Heap L N) (l : L) : Bool :=
  h.count l = 0

/-- `pop`: the address of the first node, or `none` for an empty list. -/
def pop (h : Heap L N) (l : L) : Option (Option (Ref L N) × Heap L N) :=
  if h.listIsEmpty l then some (none, h)
  else do
    let ret ← h.next (.head l)
    let after ← h.next ret
    let h := h.setPrev after (some (.head l))
    let h := h.setNext (.head l) (some after)
    let h := h.setNext ret none
    let h := h.setPrev ret none
    return (some ret, h.setCount l (h.count l - 1))

/-- `peek`. -/
def peek (h : Heap L N) (l : L) : Option (Ref L N) :=
  if h.listIsEmpty l then none else h.next (.head l)

/-- The loop of `list_contains` from `curr` on, for at most `n` turns. -/
def containsLoop (h : Heap L N) (l : L) (m : N) : Nat → Option (Ref L N) → Option Bool
  | 0, _ => none
  | _ + 1, none => none
  | n + 1, some curr =>
    if curr = .head l then some false
    else if curr = .node m then some true
    else containsLoop h l m n (h.next curr)

/-- `list_contains`. The loop has come round when it has seen the sentinel and `count` nodes. -/
def listContains (h : Heap L N) (l : L) (m : N) : Option Bool :=
  h.containsLoop l m ((h.count l).toNat + 1) (h.next (.head l))

/-- The loop of `clear_list`, for at most `n` nodes: whether every `pop` gave a node. -/
def clearLoop (l : L) : Nat → Heap L N → Option (Bool × Heap L N)
  | 0, h => if h.count l > 0 then none else some (true, h)
  | n + 1, h =>
    if h.count l > 0 then do
      let (popped, h) ← h.pop l
      match popped with
      | none => return (false, h)
      | some _ => clearLoop l n h
    else some (true, h)

/-- `clear_list`. -/
def clearList (h : Heap L N) (l : L) : Option (Bool × Heap L N) := clearLoop l (h.count l).toNat h

/-- The node of `n` is linked into the list `l`: it is reached from the sentinel by `next`. -/
def OnList (h : Heap L N) (l : L) (n : N) : Prop :=
  Relation.ReflTransGen (fun a b => h.next a = some b) (.head l) (.node n)

/-- The nodes from `r` on, up to a sentinel, and `n` of them at most. -/
def walk (h : Heap L N) : Nat → Option (Ref L N) → List N
  | n + 1, some (.node m) => m :: walk h n (h.next (.node m))
  | _, _ => []

/-- The nodes of the list `l`, in order. -/
def toList (h : Heap L N) (l : L) : List N := h.walk (h.count l).toNat (h.next (.head l))

/-- The nodes `xs` link `a` to `b` in both directions. -/
def Linked (h : Heap L N) : Ref L N → List N → Ref L N → Prop
  | a, [], b => h.next a = some b ∧ h.prev b = some a
  | a, n :: xs, b =>
    h.next a = some (.node n) ∧ h.prev (.node n) = some a ∧ Linked h (.node n) xs b

/-- The node of `n` has no links. -/
def Unlinked (h : Heap L N) (n : N) : Prop := h.next (.node n) = none ∧ h.prev (.node n) = none

/-- A change that touches the links of the sentinel of `l` and of the nodes `xs`, and the counter of `l`. -/
structure SameBut (h h' : Heap L N) (l : L) (xs : List N) : Prop where
  next : ∀ r, r ≠ .head l → (∀ m ∈ xs, r ≠ .node m) → h'.next r = h.next r
  prev : ∀ r, r ≠ .head l → (∀ m ∈ xs, r ≠ .node m) → h'.prev r = h.prev r
  count : ∀ l', l' ≠ l → h'.count l' = h.count l'

/-- The lists of `D` are well-formed circles through the nodes of `s`: the counters are the lengths
and no node is on two lists, nor twice on one. -/
structure Rep (h : Heap L N) (D : Set L) (s : L → List N) : Prop where
  linked : ∀ l ∈ D, h.Linked (.head l) (s l) (.head l)
  count : ∀ l ∈ D, h.count l = (s l).length
  nodup : ∀ l, (s l).Nodup
  disjoint : ∀ {l l' n}, n ∈ s l → n ∈ s l' → l = l'
  support : ∀ l, l ∉ D → s l = []

/-- A heap whose lists are all well-formed circles. -/
def WellFormed (h : Heap L N) (D : Set L) : Prop := ∃ s, h.Rep D s

end Heap

end Intrusive
