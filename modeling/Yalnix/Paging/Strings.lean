import Yalnix.Paging.Memory
import Mathlib.Data.UInt

/-!
# Words, strings and argument vectors

What a program finds when it reads memory byte by byte: 32-bit words with the lowest byte first, strings
that end with a zero byte, and vectors of pointers to strings that end with a null pointer.
-/

namespace Paging

/-- A memory as it is read: the byte at an address, if there is one. -/
abbrev Reader := Nat → Option UInt8

/-- The bytes `bs` lie at `addr`. -/
def HoldsAt (read : Reader) (addr : Nat) (bs : List UInt8) : Prop :=
  ∀ i < bs.length, read (addr + i) = bs[i]?

/-- The bytes of a 32-bit word, lowest first. -/
def word (v : Nat) : List UInt8 :=
  [UInt8.ofNat v, UInt8.ofNat (v / 2 ^ 8), UInt8.ofNat (v / 2 ^ 16), UInt8.ofNat (v / 2 ^ 24)]

/-- The bytes of a string, with its terminator. -/
def terminated (s : List UInt8) : List UInt8 := s ++ [0]

/-- Strings one after the other. -/
def packed (ss : List (List UInt8)) : List UInt8 := ss.flatMap terminated

def readWord (read : Reader) (addr : Nat) : Option Nat := do
  let b₀ ← read addr
  let b₁ ← read (addr + 1)
  let b₂ ← read (addr + 2)
  let b₃ ← read (addr + 3)
  return b₀.toNat + 2 ^ 8 * b₁.toNat + 2 ^ 16 * b₂.toNat + 2 ^ 24 * b₃.toNat

/-- The string at `addr`, if it ends within `n` bytes. -/
def readString (read : Reader) (addr : Nat) : Nat → Option (List UInt8)
  | 0 => none
  | n + 1 => do
    let b ← read addr
    if b = 0 then return []
    else
      let s ← readString read (addr + 1) n
      return b :: s

/-- The strings of the vector at `p`, if it ends within `n` words and every string below `limit`. -/
def readVector (read : Reader) (limit p : Nat) : Nat → Option (List (List UInt8))
  | 0 => none
  | n + 1 => do
    let cp ← readWord read p
    if cp = 0 then return []
    else
      let s ← readString read cp (limit - cp)
      let ss ← readVector read limit (p + 4) n
      return s :: ss

/-- The strings `ss` lie one after the other from `cp` on, and the words from `p` on point to them. -/
def PackedAt (read : Reader) : Nat → Nat → List (List UInt8) → Prop
  | _, _, [] => True
  | p, cp, s :: ss => HoldsAt read p (word cp) ∧ HoldsAt read cp (terminated s) ∧
      PackedAt read (p + 4) (cp + (terminated s).length) ss

/-- A buffer of `size` bytes. -/
structure Buffer where
  size : Nat
  bytes : Nat → UInt8

namespace Buffer

variable (buf : Buffer)

def read : Reader := fun a => if a < buf.size then some (buf.bytes a) else none

/-- The bytes `bs` from offset `addr` on; they must not run over the end. -/
def write (addr : Nat) (bs : List UInt8) : Option Buffer :=
  if addr + bs.length ≤ buf.size then some { buf with bytes := writeList buf.bytes addr bs } else none

end Buffer

end Paging
