import Yalnix.Paging.Ownership

/-!
# Taking and giving back frames

New entries may map frames that are not marked, when these are marked with it; entries that are dropped leave
their frames to be unmarked.
-/

namespace Paging

variable {ι : Type} {apart marked marked' : Nat → Prop} {maps maps' : ι → Option Nat}

namespace Owned

theorem marked_of_maps (h : Owned apart marked maps) {x : ι} {f : Nat} (hx : maps x = some f) : marked f :=
  (h.marked_iff f).2 (Or.inr ⟨x, hx⟩)

theorem congr (h : Owned apart marked maps) (hmarked : ∀ f, marked' f ↔ marked f)
    (hmaps : ∀ x, maps' x = maps x) : Owned apart marked' maps' where
  marked_iff f := by
    rw [hmarked, h.marked_iff]
    simp only [hmaps]
  once f x y hx hy := h.once f x y ((hmaps x).symm.trans hx) ((hmaps y).symm.trans hy)
  notApart f x hx := h.notApart f x ((hmaps x).symm.trans hx)

/-- The entries `xs`, which map nothing, get a frame each. -/
theorem gain (h : Owned apart marked maps) {xs : List ι} {g : ι → Nat} (hnone : ∀ x ∈ xs, maps x = none)
    (hnodup : (xs.map g).Nodup) (hfree : ∀ x ∈ xs, ¬ marked (g x))
    (hmarked : ∀ f, marked' f ↔ marked f ∨ f ∈ xs.map g) (hnew : ∀ x ∈ xs, maps' x = some (g x))
    (hkeep : ∀ x, x ∉ xs → maps' x = maps x) : Owned apart marked' maps' := by
  have hcases : ∀ f x, maps' x = some f → x ∈ xs ∧ g x = f ∨ x ∉ xs ∧ maps x = some f := by
    intro f x hx
    by_cases hmem : x ∈ xs
    · exact Or.inl ⟨hmem, Option.some.inj ((hnew x hmem).symm.trans hx)⟩
    · exact Or.inr ⟨hmem, (hkeep x hmem).symm.trans hx⟩
  refine ⟨fun f => ?_, fun f x y hx hy => ?_, fun f x hx => ?_⟩
  · rw [hmarked, h.marked_iff]
    constructor
    · rintro ((hf | ⟨x, hx⟩) | hf)
      · exact Or.inl hf
      · refine Or.inr ⟨x, ?_⟩
        rw [hkeep x fun hmem => ?_]
        · exact hx
        · rw [hnone x hmem] at hx
          cases hx
      · obtain ⟨x, hmem, rfl⟩ := List.mem_map.1 hf
        exact Or.inr ⟨x, hnew x hmem⟩
    · rintro (hf | ⟨x, hx⟩)
      · exact Or.inl (Or.inl hf)
      · rcases hcases f x hx with ⟨hmem, rfl⟩ | ⟨-, hold⟩
        · exact Or.inr (List.mem_map_of_mem hmem)
        · exact Or.inl (Or.inr ⟨x, hold⟩)
  · rcases hcases f x hx with ⟨hmem, rfl⟩ | ⟨-, hold⟩ <;> rcases hcases _ y hy with ⟨hmem', hg⟩ | ⟨-, hold'⟩
    · exact List.inj_on_of_nodup_map hnodup hmem hmem' hg.symm
    · exact absurd (h.marked_of_maps hold') (hfree x hmem)
    · exact absurd (h.marked_of_maps hold) (hg ▸ hfree y hmem')
    · exact h.once f x y hold hold'
  · rcases hcases f x hx with ⟨hmem, rfl⟩ | ⟨-, hold⟩
    · exact fun hap => hfree x hmem ((h.marked_iff _).2 (Or.inl hap))
    · exact h.notApart f x hold

/-- The entries in `S` map nothing any more, and their frames are not marked any more. -/
theorem release (h : Owned apart marked maps) {S : ι → Prop}
    (hmarked : ∀ f, marked' f ↔ marked f ∧ ¬ ∃ x, S x ∧ maps x = some f) (hgone : ∀ x, S x → maps' x = none)
    (hkeep : ∀ x, ¬ S x → maps' x = maps x) : Owned apart marked' maps' := by
  have hold : ∀ f x, maps' x = some f → ¬ S x ∧ maps x = some f := by
    intro f x hx
    by_cases hS : S x
    · rw [hgone x hS] at hx
      cases hx
    · exact ⟨hS, (hkeep x hS).symm.trans hx⟩
  refine ⟨fun f => ?_, fun f x y hx hy => h.once f x y (hold f x hx).2 (hold f y hy).2,
    fun f x hx => h.notApart f x (hold f x hx).2⟩
  rw [hmarked, h.marked_iff]
  constructor
  · rintro ⟨hf | ⟨x, hx⟩, hkept⟩
    · exact Or.inl hf
    · have hS : ¬ S x := fun hS => hkept ⟨x, hS, hx⟩
      exact Or.inr ⟨x, (hkeep x hS).trans hx⟩
  · rintro (hf | ⟨x, hx⟩)
    · refine ⟨Or.inl hf, ?_⟩
      rintro ⟨x, -, hx⟩
      exact h.notApart f x hx hf
    · obtain ⟨hS, hx⟩ := hold f x hx
      refine ⟨Or.inr ⟨x, hx⟩, ?_⟩
      rintro ⟨y, hy, hmaps⟩
      exact hS (h.once f x y hx hmaps ▸ hy)

end Owned

end Paging
