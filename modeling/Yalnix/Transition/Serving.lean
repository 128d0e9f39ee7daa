import Yalnix.Transition.System

/-!
# A line that is served in turns

With each turn the head of a line is taken. Ticks pass between the turns, and while somebody stands in line only so
many of them pass before the next turn. So whoever is in line has its turn after a bounded number of ticks.
-/

namespace Transition

variable {σ ε α : Type}

/-- `q` is the line, `turn` says which steps take its head, and `used` how much of the present turn is used up; no
turn is longer than `limit`. -/
structure Serving (S : System σ ε) (P : σ → ε → Prop) (I : σ → Prop) (q : σ → List α)
    (turn tick : σ × ε → Bool) (used : σ → Nat) (limit : Nat) : Prop where
  inv : ∀ s e s', I s → S.enabled s e → P s e → S.step s e = some s' → I s'
  line : ∀ s e s', I s → S.enabled s e → P s e → S.step s e = some s' →
    (q s).drop (turn (s, e)).toNat <+: q s'
  bound : ∀ s, used s ≤ limit
  disjoint : ∀ x, turn x = true → tick x = false
  /-- As long as somebody is in line a tick uses up a part of the turn, and no step but the next turn gives it
  back. -/
  uses : ∀ s e s', I s → S.enabled s e → P s e → S.step s e = some s' → turn (s, e) = false → q s ≠ [] →
    used s + (tick (s, e)).toNat ≤ used s'

/-- The element after `j` others that meet `p`. -/
theorem exists_split_of_countP {p : α → Bool} {j : Nat} {t : List α} (h : j < t.countP p) :
    ∃ t₁ x t₂, t = t₁ ++ x :: t₂ ∧ p x = true ∧ t₁.countP p = j := by
  induction t generalizing j with
  | nil => simp at h
  | cons y t ih =>
    rw [List.countP_cons] at h
    by_cases hy : p y = true
    · cases j with
      | zero => exact ⟨[], y, t, rfl, hy, rfl⟩
      | succ j =>
        obtain ⟨t₁, x, t₂, rfl, hx, hcount⟩ := ih (j := j) (by simpa [hy] using h)
        exact ⟨y :: t₁, x, t₂, rfl, hx, by simp [hy, hcount]⟩
    · obtain ⟨t₁, x, t₂, rfl, hx, hcount⟩ := ih (j := j) (by simpa [hy] using h)
      exact ⟨y :: t₁, x, t₂, rfl, hx, by simp [hy, hcount]⟩

theorem countP_snoc {p : α → Bool} {t : List α} {x : α} :
    (t ++ [x]).countP p = t.countP p + (p x).toNat := by
  cases h : p x <;> simp [h]

namespace Serving

variable {S : System σ ε} {P : σ → ε → Prop} {I : σ → Prop} {q : σ → List α} {turn tick : σ × ε → Bool}
  {used : σ → Nat} {limit : Nat}

/-- Who was in line is there still, unless it has had its turn. -/
theorem drop (h : Serving S P I q turn tick used limit) {a b : σ} {t : List (σ × ε)} (hrun : Run S P a t b)
    (ha : I a) : (q a).drop (t.countP turn) <+: q b :=
  hrun.drop ha fun s e s' hs hen hP hstep => ⟨h.inv s e s' hs hen hP hstep, h.line s e s' hs hen hP hstep⟩

/-- As long as the line that there was at the start is not used up, no turn is longer than `limit`. -/
theorem ticks_le (h : Serving S P I q turn tick used limit) {a b : σ} {t : List (σ × ε)}
    (hrun : Run S P a t b) (ha : I a) (hlen : t.countP turn < (q a).length) :
    t.countP tick ≤ t.countP turn * limit + used b := by
  induction hrun with
  | nil => simp
  | @snoc t b c e hrun hen hP hstep ih =>
    rw [countP_snoc] at hlen
    have hb : I b := hrun.invariant ha h.inv
    have hbefore := ih (by omega)
    -- somebody is in line before the step
    have hne : q b ≠ [] := by
      intro hnil
      have hprefix := (h.drop hrun ha).length_le
      rw [hnil, List.length_drop, List.length_nil] at hprefix
      omega
    rw [countP_snoc, countP_snoc]
    cases hturn : turn (b, e) with
    | true =>
      rw [h.disjoint _ hturn, Bool.toNat_true, Bool.toNat_false, Nat.add_mul]
      have := h.bound b
      omega
    | false =>
      have := h.uses b e c hb hen hP hstep hturn hne
      rw [Bool.toNat_false, Nat.add_zero]
      omega

/-- Who stands in line has its turn after those that stand before it, by the time the ticks are more than
`limit` for each of them and those of the turn that goes on. -/
theorem served (h : Serving S P I q turn tick used limit) {a b : σ} {t : List (σ × ε)}
    (hrun : Run S P a t b) (ha : I a) {j : Nat} {x : α} (hx : (q a)[j]? = some x)
    (hticks : j * limit + used b < t.countP tick) :
    ∃ t₁ y t₂, t = t₁ ++ y :: t₂ ∧ turn y = true ∧ t₁.countP turn = j ∧ (q y.1).head? = some x := by
  obtain ⟨hlen, -⟩ := List.getElem?_eq_some_iff.1 hx
  have hturns : j < t.countP turn := by
    by_contra hle
    have hle : t.countP turn ≤ j := Nat.le_of_not_lt hle
    have := h.ticks_le hrun ha (by omega)
    have := Nat.mul_le_mul_right limit hle
    omega
  obtain ⟨t₁, y, t₂, rfl, hy, hcount⟩ := exists_split_of_countP hturns
  refine ⟨t₁, y, t₂, rfl, hy, hcount, ?_⟩
  obtain ⟨-, hrun₁, -⟩ := hrun.split
  obtain ⟨ys, hys⟩ := h.drop hrun₁ ha
  rw [hcount, List.drop_eq_getElem?_toList_append, hx] at hys
  rw [← hys]
  rfl

end Serving

end Transition
