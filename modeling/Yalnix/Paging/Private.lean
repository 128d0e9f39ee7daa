import Yalnix.Paging.Memory
import Yalnix.Transition.System

/-!
# Private memories

Every process thinks that it has a memory of its own, in which nobody else stores. Tables that share no frame
give it that, whatever is moved, copied or mapped anew beneath.
-/

namespace Paging

open Transition

variable {ι β : Type}

/-- A memory as its process sees it: the byte at an address, if there is one. -/
abbrev Private (β : Type) := Nat → Option β

/-- Stores in their order: where each begins, and its bytes. -/
abbrev Stores (β : Type) := List (Nat × List β)

/-- The stores `xs`, through the table `t`. -/
def storeAll (size : Nat) (t : Table) (xs : Stores β) (fr : Frames β) : Option (Frames β) :=
  xs.foldlM (fun fr x => storeList size t x.1 x.2 fr) fr

/-- No frame is mapped twice, neither by two processes nor by one at two pages. -/
def Separate (tables : ι → Table) : Prop :=
  ∀ p q i j f, tables p i = some f → tables q j = some f → p = q ∧ i = j

/-- What each process finds in its memory. -/
def view (size : Nat) (tables : ι → Table) (fr : Frames β) : ι → Private β := fun p => load size (tables p) fr

/-! ## Memories without frames -/

/-- The byte `b` at an address that has one. -/
def put (addr : Nat) (b : β) (mem : Private β) : Option (Private β) :=
  (mem addr).map fun _ => Function.update mem addr (some b)

def putList : Nat → List β → Private β → Option (Private β)
  | _, [], mem => some mem
  | addr, b :: bs, mem => do
    let mem ← put addr b mem
    putList (addr + 1) bs mem

def putAll (xs : Stores β) (mem : Private β) : Option (Private β) :=
  xs.foldlM (fun mem x => putList x.1 x.2 mem) mem

/-- What happens to the memories of processes. -/
inductive PrivateEvent (ι β : Type) where
  | store (p : ι) (xs : Stores β)
  /-- A new process gets the memory of another. -/
  | copy (parent child : ι)
  | replace (p : ι) (mem : Private β)
  /-- There are more addresses than before. -/
  | extend (p : ι) (mem : Private β)
  | drop (p : ι)

/-- The process whose memory the event is about. -/
def PrivateEvent.owner : PrivateEvent ι β → ι
  | store p _ => p
  | copy _ child => child
  | replace p _ => p
  | extend p _ => p
  | drop p => p

/-- Each event changes one memory. -/
def privateMachine [DecidableEq ι] : System (ι → Private β) (PrivateEvent ι β) where
  enabled mems e := match e with
    | .copy _ child => mems child = fun _ => none
    | .extend p mem => ∀ a b, mems p a = some b → mem a = some b
    | _ => True
  step mems e := match e with
    | .store p xs => (putAll xs (mems p)).map (Function.update mems p)
    | .copy parent child => some (Function.update mems child (mems parent))
    | .replace p mem => some (Function.update mems p mem)
    | .extend p mem => some (Function.update mems p mem)
    | .drop p => some (Function.update mems p fun _ => none)

end Paging
