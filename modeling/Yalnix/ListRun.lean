import Yalnix.Intrusive.Heap
import Yalnix.Transition.System
import Mathlib.Data.Fintype.Basic

/-!
# Runs of the list operations

Calls of `list.c` on any number of lists, next to the sequences that the lists stand for. At the start no list
has been initialised, and the pointers may be anything.
-/

namespace Yalnix

open Intrusive Transition

variable {L N : Type} [DecidableEq L] [DecidableEq N]

/-- A call of `list.c`. -/
inductive ListOp (L N : Type) where
  | listInit (l : L)
  | insertTail (l : L) (n : N)
  | insertHead (l : L) (n : N)
  | pop (l : L)
  | listRemove (l : L) (n : N)
  | peek (l : L)
  | listContains (l : L) (n : N)
  | clearList (l : L)
deriving DecidableEq

/-- What a call returns: nothing, a pointer that may be `NULL`, or whether it has found or done what it was
called for. -/
inductive ListAnswer (L N : Type) where
  | done
  | pointer (r : Option (Ref L N))
  | flag (b : Bool)
deriving DecidableEq

namespace ListOp

/-- The list that the call is given. -/
def list : ListOp L N → L
  | .listInit l | .insertTail l _ | .insertHead l _ | .pop l | .listRemove l _ | .peek l | .listContains l _
  | .clearList l => l

/-- The node that the call puts on the list. -/
def inserts : ListOp L N → Option N
  | .insertTail _ n | .insertHead _ n => some n
  | _ => none

/-- The call, on the pointers. -/
def onHeap (h : Heap L N) : ListOp L N → Option (ListAnswer L N × Heap L N)
  | .listInit l => some (.done, h.listInit l)
  | .insertTail l n => (h.insertTail l n).map fun h => (.done, h)
  | .insertHead l n => (h.insertHead l n).map fun h => (.done, h)
  | .pop l => (h.pop l).map fun (r, h) => (.pointer r, h)
  | .listRemove l n => some (.done, h.listRemove l n)
  | .peek l => some (.pointer (h.peek l), h)
  | .listContains l n => (h.listContains l n).map fun b => (.flag b, h)
  | .clearList l => (h.clearList l).map fun (b, h) => (.flag b, h)

end ListOp

/-! ## Sequences -/

/-- The lists that have been initialised, and the nodes on each. -/
structure Lists (L N : Type) where
  initialised : L → Bool
  seq : L → List N

namespace Lists

variable (a : Lists L N)

/-- No list has been initialised. -/
def none : Lists L N := ⟨fun _ => false, fun _ => []⟩

def set (l : L) (xs : List N) : Lists L N := { a with seq := Function.update a.seq l xs }

/-- The call, on the sequences. -/
def call : ListOp L N → ListAnswer L N × Lists L N
  | .listInit l =>
    (.done, ⟨Function.update a.initialised l true, Function.update a.seq l []⟩)
  | .insertTail l n => (.done, a.set l (a.seq l ++ [n]))
  | .insertHead l n => (.done, a.set l (n :: a.seq l))
  | .pop l => (.pointer ((a.seq l).head?.map .node), a.set l (a.seq l).tail)
  | .listRemove l n => (.done, a.set l ((a.seq l).erase n))
  | .peek l => (.pointer ((a.seq l).head?.map .node), a)
  | .listContains l n => (.flag (decide (n ∈ a.seq l)), a)
  | .clearList l => (.flag true, a.set l [])

/-- The list has been initialised; only a node on no list is inserted, and a node is removed only from the list
it is on. -/
def Allowed : ListOp L N → Prop
  | .listInit _ => True
  | .insertTail l n | .insertHead l n => a.initialised l = true ∧ ∀ l', n ∉ a.seq l'
  | .listRemove l n => a.initialised l = true ∧ n ∈ a.seq l
  | .pop l | .peek l | .listContains l _ | .clearList l => a.initialised l = true

instance [Fintype L] : (op : ListOp L N) → Decidable (a.Allowed op)
  | .listInit _ => inferInstanceAs (Decidable True)
  | .insertTail l n | .insertHead l n =>
    inferInstanceAs (Decidable (a.initialised l = true ∧ ∀ l', n ∉ a.seq l'))
  | .listRemove l n => inferInstanceAs (Decidable (a.initialised l = true ∧ n ∈ a.seq l))
  | .pop l | .peek l | .listContains l _ | .clearList l =>
    inferInstanceAs (Decidable (a.initialised l = true))

/-- The call takes the node from its list. -/
def Takes (n : N) : ListOp L N → Prop
  | .pop l => (a.seq l).head? = some n
  | .listRemove _ m => m = n
  | .clearList l => n ∈ a.seq l
  | _ => False

/-- The address is one of the list `l`: its sentinel, or a node on it. -/
def Own (l : L) (r : Ref L N) : Prop := r = .head l ∨ ∃ n ∈ a.seq l, r = .node n

end Lists

/-- The pointers and the sequences side by side. -/
def listMachine : System (Heap L N × Lists L N) (ListOp L N) where
  enabled s op := s.2.Allowed op
  step s op := (op.onHeap s.1).map fun r => (r.2, (s.2.call op).2)

instance [Fintype L] (s : Heap L N × Lists L N) (op : ListOp L N) :
    Decidable (listMachine.enabled s op) :=
  inferInstanceAs (Decidable (s.2.Allowed op))

/-! ## Refinement -/

/-- From the sentinel of each list and back to it, the `next` pointers lead through the nodes of its sequence
and the `prev` pointers through these in reverse. No node is met twice. -/
structure Refines (h : Heap L N) (a : Lists L N) : Prop where
  next : ∀ l, a.initialised l = true →
    List.IsChain (fun r q => h.next r = some q) (.head l :: ((a.seq l).map .node ++ [.head l]))
  prev : ∀ l, a.initialised l = true →
    List.IsChain (fun r q => h.prev r = some q) (.head l :: ((a.seq l).reverse.map .node ++ [.head l]))
  count : ∀ l, a.initialised l = true → h.count l = (a.seq l).length
  nodup : ∀ l, (a.seq l).Nodup
  disjoint : ∀ l l' n, n ∈ a.seq l → n ∈ a.seq l' → l = l'

/-- The call has a result, which is the one of the sequences. -/
structure Simulates (h : Heap L N) (a : Lists L N) (op : ListOp L N) (h' : Heap L N) : Prop where
  result : op.onHeap h = some ((a.call op).1, h')
  refines : Refines h' (a.call op).2
  unlinks : ∀ n, a.Takes n op → h'.Unlinked n
  /-- Nothing changes on another list. -/
  others : ∀ l, l ≠ op.list → (a.call op).2.seq l = a.seq l ∧ h'.count l = h.count l ∧
    ∀ r, a.Own l r → h'.next r = h.next r ∧ h'.prev r = h.prev r
  /-- Nor on a node that is on no list, but for the one that is inserted. -/
  loose : ∀ n, (∀ l, n ∉ a.seq l) → op.inserts ≠ some n →
    h'.next (.node n) = h.next (.node n) ∧ h'.prev (.node n) = h.prev (.node n)

/-- After the calls `t`: the node has been taken from its list, and not been inserted since. -/
def TakenOff (t : List ((Heap L N × Lists L N) × ListOp L N)) (n : N) : Prop :=
  Since (fun x => x.1.2.Takes n x.2) (fun x => x.2.inserts = some n) t

end Yalnix
