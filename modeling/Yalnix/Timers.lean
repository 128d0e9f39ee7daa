import Mathlib.Data.List.Basic

/-!
# Timers

Who waits for how many ticks, in the order in which the timers were set. A tick takes one from every
timer and ends those that have none left.
-/

namespace Timers

variable {α : Type}

inductive Event (α : Type) where
  | set (a : α) (n : Int)
  | tick

def Event.isTick : Event α → Bool
  | .tick => true
  | .set _ _ => false

/-- Who is done with the next tick. -/
def due (T : List (α × Int)) : List α := (T.filter (·.2 = 1)).map Prod.fst

def step (T : List (α × Int)) : Event α → List (α × Int)
  | .set a n => T ++ [(a, n)]
  | .tick => (T.filter (·.2 ≠ 1)).map fun x => (x.1, x.2 - 1)

def run (T : List (α × Int)) (es : List (Event α)) : List (α × Int) := es.foldl step T

/-- The number of ticks. -/
def ticks (es : List (Event α)) : Nat := es.countP Event.isTick

variable {T : List (α × Int)} {es : List (Event α)} {a b : α} {n m : Int}

@[simp] theorem run_nil : run T [] = T := rfl

@[simp] theorem run_cons (e : Event α) : run T (e :: es) = run (step T e) es := rfl

theorem run_append (es' : List (Event α)) : run T (es ++ es') = run (run T es) es' :=
  List.foldl_append

@[simp] theorem ticks_nil : ticks ([] : List (Event α)) = 0 := rfl

@[simp] theorem ticks_set : ticks (.set a n :: es) = ticks es :=
  List.countP_cons_of_neg (by simp [Event.isTick])

@[simp] theorem ticks_tick : ticks (.tick :: es) = ticks es + 1 :=
  List.countP_cons_of_pos rfl

/-! ## A timer -/

/-- A timer runs down by one a tick, as long as it has not ended. -/
theorem mem_run (h : (a, n) ∈ T) (hlt : ticks es < n) : (a, n - ticks es) ∈ run T es := by
  induction es generalizing T n with
  | nil => simpa using h
  | cons e es ih =>
    cases e with
    | set b m =>
      rw [ticks_set] at hlt ⊢
      exact ih (List.mem_append_left _ h) hlt
    | tick =>
      rw [ticks_tick] at hlt ⊢
      have hstep : (a, n - 1) ∈ step T .tick :=
        List.mem_map.2 ⟨(a, n), List.mem_filter.2 ⟨h, by simp; omega⟩, rfl⟩
      have := ih hstep (by omega)
      rwa [show n - 1 - (ticks es : Int) = n - ((ticks es + 1 : Nat) : Int) by omega] at this

/-- It ends with the tick that is its last. -/
theorem mem_due (h : (a, n) ∈ T) (hn : (ticks es : Int) + 1 = n) : a ∈ due (run T es) := by
  have hrun : (a, n - ticks es) ∈ run T es := mem_run h (by omega)
  rw [show n - (ticks es : Int) = 1 by omega] at hrun
  exact List.mem_map.2 ⟨(a, 1), List.mem_filter.2 ⟨hrun, by simp⟩, rfl⟩

/-- Nobody waits any more who had no more than these ticks to wait for, and was not set again. -/
theorem not_mem_run (hT : ∀ m, (a, m) ∈ T → 1 ≤ m ∧ m ≤ ticks es)
    (hset : ∀ m, Event.set a m ∉ es) : ∀ m, (a, m) ∉ run T es := by
  induction es generalizing T with
  | nil =>
    intro m hm
    have := hT m hm
    rw [ticks_nil] at this
    omega
  | cons e es ih =>
    refine ih (fun m hm => ?_) fun m hm => hset m (List.mem_cons_of_mem _ hm)
    cases e with
    | set b n =>
      rw [ticks_set] at hT
      rcases List.mem_append.1 hm with hm | hm
      · exact hT m hm
      · obtain ⟨rfl, rfl⟩ := Prod.mk.inj (List.mem_singleton.1 hm)
        exact absurd List.mem_cons_self (hset m)
    | tick =>
      rw [ticks_tick] at hT
      obtain ⟨⟨b, n⟩, hmem, heq⟩ := List.mem_map.1 hm
      obtain ⟨rfl, rfl⟩ := Prod.mk.inj heq
      obtain ⟨hmem, hne⟩ := List.mem_filter.1 hmem
      have hbound := hT n hmem
      have hne : n ≠ 1 := by simpa using hne
      omega

/-! ## Two timers -/

/-- Timers stay in the order in which they were set. -/
theorem sublist_run (h : [(a, n), (b, m)].Sublist T) (hn : ticks es < n) (hm : ticks es < m) :
    [(a, n - ticks es), (b, m - ticks es)].Sublist (run T es) := by
  induction es generalizing T n m with
  | nil => simpa using h
  | cons e es ih =>
    cases e with
    | set c l =>
      rw [ticks_set] at hn hm ⊢
      exact ih (h.trans (List.sublist_append_left _ _)) hn hm
    | tick =>
      rw [ticks_tick] at hn hm ⊢
      have hstep : [(a, n - 1), (b, m - 1)].Sublist (step T .tick) := by
        have hkeep := (h.filter (·.2 ≠ 1)).map fun x => (x.1, x.2 - 1)
        have hn1 : n ≠ 1 := by omega
        have hm1 : m ≠ 1 := by omega
        simpa [step, hn1, hm1] using hkeep
      have := ih hstep (by omega) (by omega)
      rwa [show n - 1 - (ticks es : Int) = n - ((ticks es + 1 : Nat) : Int) by omega,
        show m - 1 - (ticks es : Int) = m - ((ticks es + 1 : Nat) : Int) by omega] at this

/-- Timers that end with the same tick end in the order in which they were set. -/
theorem sublist_due (h : [(a, n), (b, n)].Sublist T) (hn : (ticks es : Int) + 1 = n) :
    [a, b].Sublist (due (run T es)) := by
  have hrun : [(a, n - ticks es), (b, n - ticks es)].Sublist (run T es) :=
    sublist_run h (by omega) (by omega)
  rw [show n - (ticks es : Int) = 1 by omega] at hrun
  simpa [due] using (hrun.filter (·.2 = 1)).map Prod.fst

end Timers
