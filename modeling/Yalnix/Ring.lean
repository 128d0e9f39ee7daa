import Mathlib.Logic.Function.Basic
import Mathlib.Data.List.Basic

/-!
# Ring buffers

A buffer of `size` cells that is filled at one end and emptied at the other, both running around.
-/

namespace Ring

variable {α : Type} {size start m n : Nat} {buf : Nat → α}

/-- The `n` cells from `start` on. -/
def contents (size : Nat) (buf : Nat → α) (start n : Nat) : List α :=
  (List.range n).map fun j => buf ((start + j) % size)

@[simp] theorem length_contents : (contents size buf start n).length = n := by simp [contents]

/-- Two cells of the buffer are different. -/
theorem cell_ne (hm : m < n) (hn : n < size) : (start + m) % size ≠ (start + n) % size := by
  intro h
  have h1 := Nat.sub_mod_eq_zero_of_mod_eq h.symm
  rw [Nat.add_sub_add_left, Nat.mod_eq_of_lt (by omega)] at h1
  omega

/-- A cell written behind the contents is appended to them. -/
theorem contents_put (hn : n < size) (b : α) :
    contents size (Function.update buf ((start + n) % size) b) start (n + 1) =
      contents size buf start n ++ [b] := by
  rw [contents, List.range_succ, List.map_append, contents]
  congr 1
  · refine List.map_congr_left fun j hj => ?_
    rw [Function.update_of_ne (cell_ne (List.mem_range.1 hj) hn)]
  · simp

/-- The first cells, and the rest of them from the moved start on. -/
theorem contents_add :
    contents size buf start (m + n) =
      contents size buf start m ++ contents size buf ((start + m) % size) n := by
  rw [contents, List.range_add, List.map_append, List.map_map, contents, contents]
  congr 1
  refine List.map_congr_left fun j _ => ?_
  simp [Nat.add_assoc]

end Ring
