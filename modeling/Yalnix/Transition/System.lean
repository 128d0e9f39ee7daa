import Mathlib.Data.List.Basic
import Mathlib.Data.List.Induction
import Mathlib.Data.List.Infix

/-!
# Transition systems with partial steps

A state machine whose events may fail to have a result, its runs, and the two ways to prove something
of a whole run from what one step preserves.
-/

namespace Transition

/-- A machine: when an event can happen, and what it does. A step without a result ends the run. -/
structure System (σ ε : Type) where
  enabled : σ → ε → Prop
  step : σ → ε → Option σ

variable {σ ε : Type} (S : System σ ε) (P : σ → ε → Prop)

/-- The runs from `a` whose steps all meet `P`, with their trace: the state before each event, and the
event. -/
inductive Run (a : σ) : List (σ × ε) → σ → Prop where
  | nil : Run a [] a
  | snoc {t : List (σ × ε)} {b c : σ} {e : ε} (hrun : Run a t b) (hen : S.enabled b e) (hP : P b e)
      (hstep : S.step b e = some c) : Run a (t ++ [(b, e)]) c

variable {S P}

namespace Run

/-- What holds at the start, and is preserved by every step, holds at the end. -/
theorem invariant {I : σ → Prop} {a b : σ} {t : List (σ × ε)} (hrun : Run S P a t b) (hinit : I a)
    (hpres : ∀ s e s', I s → S.enabled s e → P s e → S.step s e = some s' → I s') : I b := by
  induction hrun with
  | nil => exact hinit
  | snoc _ hen hP hstep ih => exact hpres _ _ _ ih hen hP hstep

/-- The same for a relation between the trace and the state. -/
theorem traceInvariant {I : List (σ × ε) → σ → Prop} {a b : σ} {t : List (σ × ε)}
    (hrun : Run S P a t b) (hinit : I [] a)
    (hpres : ∀ t s e s', I t s → S.enabled s e → P s e → S.step s e = some s' →
      I (t ++ [(s, e)]) s') : I t b := by
  induction hrun with
  | nil => exact hinit
  | snoc _ hen hP hstep ih => exact hpres _ _ _ _ ih hen hP hstep

/-- What holds at the start and is preserved holds before every step. -/
theorem before {I : σ → Prop} {a b : σ} {t : List (σ × ε)} (hrun : Run S P a t b) (hinit : I a)
    (hpres : ∀ s e s', I s → S.enabled s e → P s e → S.step s e = some s' → I s') :
    ∀ x ∈ t, I x.1 ∧ S.enabled x.1 x.2 ∧ P x.1 x.2 := by
  induction hrun with
  | nil => simp
  | @snoc t b c e hrun hen hP hstep ih =>
    intro x hx
    rcases List.mem_append.1 hx with hx | hx
    · exact ih x hx
    · obtain rfl := List.mem_singleton.1 hx
      exact ⟨hrun.invariant hinit hpres, hen, hP⟩

/-- What has entered a line has left it, in the same order, or is in it. -/
theorem line {α : Type} {I : σ → Prop} {q : σ → List α} {enter leave : σ × ε → List α} {a b : σ}
    {t : List (σ × ε)} (hrun : Run S P a t b) (hinit : I a)
    (hpres : ∀ s e s', I s → S.enabled s e → P s e → S.step s e = some s' →
      I s' ∧ q s ++ enter (s, e) = leave (s, e) ++ q s') :
    q a ++ t.flatMap enter = t.flatMap leave ++ q b := by
  have hI : ∀ s e s', I s → S.enabled s e → P s e → S.step s e = some s' → I s' :=
    fun s e s' h hen hP hstep => (hpres s e s' h hen hP hstep).1
  induction hrun with
  | nil => simp
  | @snoc t b c e hrun hen hP hstep ih =>
    obtain ⟨-, hline⟩ := hpres b e c (hrun.invariant hinit hI) hen hP hstep
    rw [List.flatMap_append, List.flatMap_append, List.flatMap_singleton, List.flatMap_singleton,
      ← List.append_assoc, ih, List.append_assoc, hline, List.append_assoc]

/-- A run under a stronger condition is a run. -/
theorem mono {Q : σ → ε → Prop} {a b : σ} {t : List (σ × ε)} (hrun : Run S P a t b)
    (hPQ : ∀ s e, P s e → Q s e) : Run S Q a t b := by
  induction hrun with
  | nil => exact .nil
  | snoc _ hen hP hstep ih => exact ih.snoc hen (hPQ _ _ hP) hstep

/-- A run whose steps all meet a further condition. -/
theorem restrict {Q : σ → ε → Prop} {a b : σ} {t : List (σ × ε)} (hrun : Run S P a t b)
    (hQ : ∀ x ∈ t, Q x.1 x.2) : Run S (fun s e => P s e ∧ Q s e) a t b := by
  induction hrun with
  | nil => exact .nil
  | @snoc t b c e _ hen hP hstep ih =>
    have hbefore := ih fun x hx => hQ x (List.mem_append_left _ hx)
    exact hbefore.snoc hen ⟨hP, hQ (b, e) (by simp)⟩ hstep

theorem trans {a b c : σ} {t u : List (σ × ε)} (hab : Run S P a t b) (hbc : Run S P b u c) :
    Run S P a (t ++ u) c := by
  induction hbc with
  | nil => simpa using hab
  | snoc _ hen hP hstep ih => simpa using ih.snoc hen hP hstep

/-- The last step of a run. -/
theorem last {a c : σ} {t : List (σ × ε)} {x : σ × ε} (hrun : Run S P a (t ++ [x]) c) :
    Run S P a t x.1 ∧ S.enabled x.1 x.2 ∧ P x.1 x.2 ∧ S.step x.1 x.2 = some c := by
  generalize ht : t ++ [x] = t' at hrun
  cases hrun with
  | nil => simp at ht
  | snoc hrun hen hP hstep =>
    obtain ⟨rfl, hx⟩ := List.append_inj' ht rfl
    obtain rfl := List.singleton_inj.1 hx
    exact ⟨hrun, hen, hP, hstep⟩

theorem eq_of_nil {a b : σ} (hrun : Run S P a [] b) : b = a := by
  generalize ht : ([] : List (σ × ε)) = t at hrun
  cases hrun with
  | nil => rfl
  | snoc => simp at ht

/-- A step of a run, with what was before and after it. -/
theorem split {a c : σ} {t₁ t₂ : List (σ × ε)} {x : σ × ε} (hrun : Run S P a (t₁ ++ x :: t₂) c) :
    ∃ b, Run S P a t₁ x.1 ∧ S.enabled x.1 x.2 ∧ P x.1 x.2 ∧ S.step x.1 x.2 = some b ∧
      Run S P b t₂ c := by
  induction t₂ using List.reverseRecOn generalizing c with
  | nil =>
    obtain ⟨hbefore, hen, hP, hstep⟩ := hrun.last
    exact ⟨c, hbefore, hen, hP, hstep, .nil⟩
  | append_singleton t₂ y ih =>
    rw [← List.cons_append, ← List.append_assoc] at hrun
    obtain ⟨hbefore, hen, hP, hstep⟩ := hrun.last
    obtain ⟨b, hrun₁, hen₁, hP₁, hstep₁, hrun₂⟩ := ih hbefore
    exact ⟨b, hrun₁, hen₁, hP₁, hstep₁, hrun₂.snoc hen hP hstep⟩

/-- A run begins in the state of its first step. -/
theorem head {a c : σ} {t : List (σ × ε)} {x : σ × ε} (hrun : Run S P a (x :: t) c) : x.1 = a := by
  have hrun : Run S P a ([] ++ x :: t) c := hrun
  obtain ⟨b, hbefore, -⟩ := hrun.split
  exact hbefore.eq_of_nil

/-- The first step of a run. -/
theorem uncons {a c : σ} {t : List (σ × ε)} {x : σ × ε} (hrun : Run S P a (x :: t) c) :
    ∃ b, S.enabled a x.2 ∧ P a x.2 ∧ S.step a x.2 = some b ∧ Run S P b t c := by
  have hhead := hrun.head
  have hrun : Run S P a ([] ++ x :: t) c := hrun
  obtain ⟨b, -, hen, hP, hstep, hafter⟩ := hrun.split
  rw [hhead] at hen hP hstep
  exact ⟨b, hen, hP, hstep, hafter⟩

/-- What holds at the end, and before each step after which it holds, has held all along. -/
theorem allAlong {I Q : σ → Prop} {a b : σ} {t : List (σ × ε)} (hrun : Run S P a t b) (hinit : I a)
    (hpres : ∀ s e s', I s → S.enabled s e → P s e → S.step s e = some s' → I s' ∧ (Q s' → Q s)) (hQ : Q b) :
    Run S (fun s e => P s e ∧ ∀ s', S.step s e = some s' → Q s') a t b := by
  have hI : ∀ s e s', I s → S.enabled s e → P s e → S.step s e = some s' → I s' :=
    fun s e s' h hen hP hstep => (hpres s e s' h hen hP hstep).1
  induction hrun with
  | nil => exact .nil
  | @snoc t b c e hrun hen hP hstep ih =>
    obtain ⟨-, hback⟩ := hpres b e c (hrun.invariant hinit hI) hen hP hstep
    refine (ih (hback hQ)).snoc hen ⟨hP, fun s' hs' => ?_⟩ hstep
    obtain rfl := Option.some.inj (hstep.symm.trans hs')
    exact hQ

/-- A run in two parts. -/
theorem parts {a c : σ} {t₁ t₂ : List (σ × ε)} (hrun : Run S P a (t₁ ++ t₂) c) :
    ∃ b, Run S P a t₁ b ∧ Run S P b t₂ c := by
  cases t₂ with
  | nil => exact ⟨c, by simpa using hrun, .nil⟩
  | cons x t₂ =>
    obtain ⟨b, hbefore, hen, hP, hstep, hafter⟩ := hrun.split
    exact ⟨x.1, hbefore, (Run.nil.snoc (t := []) hen hP hstep).trans hafter⟩

/-- From the head of a line each step takes at most one, and it changes the line in no other way but at the
end: who was in the line is there still, unless it has been taken. -/
theorem drop {α : Type} {I : σ → Prop} {q : σ → List α} {takes : σ × ε → Bool} {a b : σ}
    {t : List (σ × ε)} (hrun : Run S P a t b) (hinit : I a)
    (hpres : ∀ s e s', I s → S.enabled s e → P s e → S.step s e = some s' →
      I s' ∧ (q s).drop (takes (s, e)).toNat <+: q s') :
    (q a).drop (t.countP takes) <+: q b := by
  have hI : ∀ s e s', I s → S.enabled s e → P s e → S.step s e = some s' → I s' :=
    fun s e s' h hen hP hstep => (hpres s e s' h hen hP hstep).1
  induction hrun with
  | nil => simp
  | @snoc t b c e hrun hen hP hstep ih =>
    obtain ⟨-, hkeep⟩ := hpres b e c (hrun.invariant hinit hI) hen hP hstep
    have hcount : (t ++ [(b, e)]).countP takes = t.countP takes + (takes (b, e)).toNat := by
      cases h : takes (b, e) <;> simp [h]
    rw [hcount, ← List.drop_drop]
    exact (List.IsPrefix.drop ih _).trans hkeep

end Run

/-! ## Since the last time -/

/-- Something in the trace meets `p`, and nothing after it meets `q`. -/
def Since {α : Type} (p q : α → Prop) (t : List α) : Prop :=
  ∃ t₁ x t₂, t = t₁ ++ x :: t₂ ∧ p x ∧ ∀ y ∈ t₂, ¬ q y

theorem since_nil {α : Type} {p q : α → Prop} : ¬ Since p q [] := by
  rintro ⟨t₁, x, t₂, ht, -⟩
  simp at ht

theorem since_snoc {α : Type} {p q : α → Prop} {t : List α} {x : α} :
    Since p q (t ++ [x]) ↔ p x ∨ Since p q t ∧ ¬ q x := by
  constructor
  · rintro ⟨t₁, y, t₂, ht, hp, hq⟩
    rcases List.eq_nil_or_concat t₂ with rfl | ⟨t₃, z, rfl⟩
    · obtain ⟨rfl, hx⟩ := List.append_inj' ht rfl
      obtain rfl := List.singleton_inj.1 hx
      exact Or.inl hp
    · rw [List.concat_eq_append, ← List.cons_append, ← List.append_assoc] at ht
      obtain ⟨rfl, hx⟩ := List.append_inj' ht rfl
      obtain rfl := List.singleton_inj.1 hx
      exact Or.inr ⟨⟨t₁, y, t₃, rfl, hp, fun w hw => hq w (by simp [hw])⟩, hq x (by simp)⟩
  · rintro (hp | ⟨⟨t₁, y, t₂, rfl, hp, hq⟩, hx⟩)
    · exact ⟨t, x, [], rfl, hp, by simp⟩
    · refine ⟨t₁, y, t₂ ++ [x], by simp, hp, fun z hz => ?_⟩
      rcases List.mem_append.1 hz with hz | hz
      · exact hq z hz
      · rwa [List.mem_singleton.1 hz]

/-- The trace of the events `es` from `a`, as far as they have results. -/
def System.trace (S : System σ ε) (a : σ) : List ε → List (σ × ε)
  | [] => []
  | e :: es => (a, e) :: match S.step a e with
    | some b => S.trace b es
    | none => []

/-- The state after the events `es`. -/
def System.exec (S : System σ ε) (a : σ) : List ε → Option σ
  | [] => some a
  | e :: es => (S.step a e).bind fun b => S.exec b es

theorem System.mem_trace {a : σ} {es : List ε} {x : σ × ε} (hx : x ∈ S.trace a es) : x.2 ∈ es := by
  induction es generalizing a with
  | nil => simp [System.trace] at hx
  | cons e es ih =>
    rw [System.trace, List.mem_cons] at hx
    rcases hx with rfl | hx
    · exact List.mem_cons_self
    · cases hstep : S.step a e with
      | none => simp [hstep] at hx
      | some b =>
        rw [hstep] at hx
        exact List.mem_cons_of_mem _ (ih hx)

theorem System.trace_append {a b : σ} {es es' : List ε} (hexec : S.exec a es = some b) :
    S.trace a (es ++ es') = S.trace a es ++ S.trace b es' := by
  induction es generalizing a with
  | nil =>
    obtain rfl : a = b := Option.some.inj hexec
    rfl
  | cons e es ih =>
    obtain ⟨c, hstep, hexec⟩ := Option.bind_eq_some_iff.1 hexec
    simp [System.trace, hstep, ih hexec]

/-- The events that come after the first. -/
theorem System.mem_tail_trace {a : σ} {e : ε} {es : List ε} {x : σ × ε}
    (hx : x ∈ (S.trace a (e :: es)).tail) : x.2 ∈ es := by
  rw [System.trace, List.tail_cons] at hx
  cases hstep : S.step a e with
  | none => simp [hstep] at hx
  | some b =>
    rw [hstep] at hx
    exact S.mem_trace hx

/-- Events that may happen one after the other are a run; whether one may happen can be judged by an
invariant of the steps. -/
theorem Run.exec {I : σ → Prop} {a b : σ} {es : List ε} (hinit : I a)
    (hpres : ∀ s e s', I s → S.enabled s e → P s e → S.step s e = some s' → I s')
    (hexec : S.exec a es = some b)
    (hok : ∀ x ∈ S.trace a es, I x.1 → S.enabled x.1 x.2 ∧ P x.1 x.2) :
    Run S P a (S.trace a es) b := by
  induction es generalizing a with
  | nil =>
    obtain rfl : a = b := Option.some.inj hexec
    exact .nil
  | cons e es ih =>
    obtain ⟨c, hstep, hexec⟩ := Option.bind_eq_some_iff.1 hexec
    have htrace : S.trace a (e :: es) = [(a, e)] ++ S.trace c es := by
      simp [System.trace, hstep]
    obtain ⟨hen, hP⟩ := hok (a, e) (by simp [htrace]) hinit
    rw [htrace]
    exact (Run.nil.snoc (t := []) hen hP hstep).trans
      (ih (hpres a e c hinit hen hP hstep) hexec fun x hx => hok x (by simp [htrace, hx]))

/-- The same when whether an event may happen needs no invariant. -/
theorem Run.ofExec {a b : σ} {es : List ε} (hexec : S.exec a es = some b)
    (hok : ∀ x ∈ S.trace a es, S.enabled x.1 x.2 ∧ P x.1 x.2) : Run S P a (S.trace a es) b :=
  Run.exec (I := fun _ => True) trivial (fun _ _ _ _ _ _ _ => trivial) hexec fun x hx _ => hok x hx

end Transition
