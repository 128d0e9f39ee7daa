import Yalnix.Transition.System

/-!
# Forward simulations

A machine is simulated by another when each of its steps is matched by one step of the other, or by none.
Then its runs are runs of the other.
-/

namespace Transition

variable {σ ε τ δ : Type}

/-- `R` relates the states of `S` with those of `T`, and `event` says which event of `T` matches a step of
`S`. -/
structure Simulation (S : System σ ε) (P : σ → ε → Prop) (T : System τ δ) (Q : τ → δ → Prop)
    (event : σ → ε → Option δ) (R : σ → τ → Prop) : Prop where
  /-- A step that no event matches stays related to the same state. -/
  silent : ∀ {a a' : σ} {e : ε} {b : τ}, R a b → S.enabled a e → P a e → S.step a e = some a' →
    event a e = none → R a' b
  /-- A step that an event matches goes with a step of `T`. -/
  matched : ∀ {a a' : σ} {e : ε} {b : τ} {d : δ}, R a b → S.enabled a e → P a e →
    S.step a e = some a' → event a e = some d →
    ∃ b', T.enabled b d ∧ Q b d ∧ T.step b d = some b' ∧ R a' b'

namespace Simulation

variable {S : System σ ε} {P : σ → ε → Prop} {T : System τ δ} {Q : τ → δ → Prop}
  {event : σ → ε → Option δ} {R : σ → τ → Prop}

/-- A run is matched by a run over the matching events, in their order. -/
theorem run (h : Simulation S P T Q event R) {a a' : σ} {b : τ} {t : List (σ × ε)}
    (hrun : Run S P a t a') (hR : R a b) :
    ∃ u b', Run T Q b u b' ∧ u.map Prod.snd = t.filterMap (fun x => event x.1 x.2) ∧ R a' b' := by
  induction hrun with
  | nil => exact ⟨[], b, .nil, rfl, hR⟩
  | @snoc t c c' e hrun hen hP hstep ih =>
    obtain ⟨u, b₁, hrun₁, hevents, hR₁⟩ := ih
    cases hevent : event c e with
    | none =>
      refine ⟨u, b₁, hrun₁, ?_, h.silent hR₁ hen hP hstep hevent⟩
      simp [hevents, hevent]
    | some d =>
      obtain ⟨b₂, hen₂, hQ₂, hstep₂, hR₂⟩ := h.matched hR₁ hen hP hstep hevent
      refine ⟨u ++ [(b₁, d)], b₂, hrun₁.snoc hen₂ hQ₂ hstep₂, ?_, hR₂⟩
      simp [hevents, hevent]

end Simulation

end Transition
