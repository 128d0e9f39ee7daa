import Mathlib.Logic.Function.Basic

/-!
# Paged memory

Bytes at virtual addresses, which a table maps page by page to the frames of physical memory. The flat
memory that a program thinks it has is one function of the address; a window of it is represented by
frames as long as no two of its pages share one.
-/

namespace Paging

/-- The contents of physical memory, by frame and offset. -/
abbrev Frames (β : Type) := Nat → Nat → β

/-- The frame of each page that is mapped. -/
abbrev Table := Nat → Option Nat

variable {β : Type} (size : Nat) (t : Table)

def load (fr : Frames β) (addr : Nat) : Option β :=
  (t (addr / size)).map fun f => fr f (addr % size)

def store (fr : Frames β) (addr : Nat) (b : β) : Option (Frames β) :=
  (t (addr / size)).map fun f => Function.update fr f (Function.update (fr f) (addr % size) b)

/-- The bytes `bs` from `addr` on, lowest address first. -/
def storeList : Nat → List β → Frames β → Option (Frames β)
  | _, [], fr => some fr
  | addr, b :: bs, fr => do
    let fr ← store size t fr addr b
    storeList (addr + 1) bs fr

/-- `n` bytes from `src` to `dst`, lowest address first. -/
def copy (dst src : Nat) : Nat → Frames β → Option (Frames β)
  | 0, fr => some fr
  | n + 1, fr => do
    let fr ← copy dst src n fr
    let b ← load size t fr (src + n)
    store size t fr (dst + n) b

/-- `old` with its first `n` bytes taken from `new`. -/
def overlay (n : Nat) (new old : Nat → β) : Nat → β := fun o => if o < n then new o else old o

/-- The bytes `bs` in a flat memory, from `addr` on. -/
def writeList (mem : Nat → β) (addr : Nat) (bs : List β) : Nat → β := fun a =>
  if addr ≤ a then bs.getD (a - addr) (mem a) else mem a

/-- The addresses from `lo` to `hi` are mapped, and their pages do not share a frame. -/
structure Window (lo hi : Nat) : Prop where
  mapped : ∀ a, lo ≤ a → a < hi → ∃ f, t (a / size) = some f
  apart : ∀ a b, lo ≤ a → a < hi → lo ≤ b → b < hi → t (a / size) = t (b / size) → a / size = b / size

/-- In the window the frames hold what the flat memory says. -/
def Represents (lo hi : Nat) (fr : Frames β) (mem : Nat → β) : Prop :=
  ∀ a, lo ≤ a → a < hi → load size t fr a = some (mem a)

end Paging
