import Mathlib.Logic.Basic
import Mathlib.Data.List.Nodup

/-!
# Who owns a frame

Page tables map frames and a bitmap marks them. Every frame that is marked, but for some that are set apart, is
mapped by one entry.
-/

namespace Paging

/-- The frames that are marked are those set apart and those that an entry maps, and no two entries map the
same frame. -/
structure Owned {ι : Type} (apart marked : Nat → Prop) (maps : ι → Option Nat) : Prop where
  marked_iff : ∀ f, marked f ↔ apart f ∨ ∃ x, maps x = some f
  once : ∀ f x y, maps x = some f → maps y = some f → x = y
  notApart : ∀ f x, maps x = some f → ¬ apart f

end Paging
