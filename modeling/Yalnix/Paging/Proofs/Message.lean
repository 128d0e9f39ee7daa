import Yalnix.Paging.Message
import Yalnix.Paging.Proofs.Private

/-!
# What is sent is received

A piece of memory that has been stored is found again, and a queue holds what was put into it and has not been
taken out, in that order.
-/

namespace Paging

open Transition

variable {ι κ β : Type} {mem mem' : Private β} {addr n room : Nat} {bs xs ys : List β} {b : β}

/-! ## Pieces of memory -/

theorem length_fetch (h : fetch mem addr n = some bs) : bs.length = n := by
  induction n generalizing addr bs with
  | zero =>
    obtain rfl := Option.some.inj h
    rfl
  | succ n ih =>
    obtain ⟨b, -, hrest⟩ := Option.bind_eq_some_iff.1 h
    obtain ⟨cs, hcs, hbs⟩ := Option.bind_eq_some_iff.1 hrest
    obtain rfl := Option.some.inj hbs
    rw [List.length_cons, ih hcs]

/-- A piece of which every byte is known. -/
theorem fetch_of_load {data : Nat → β} (h : ∀ j < n, mem (addr + j) = some (data j)) :
    fetch mem addr n = some ((List.range n).map data) := by
  induction n generalizing addr data with
  | zero => rfl
  | succ n ih =>
    have hhead : mem addr = some (data 0) := h 0 (by omega)
    have htail : fetch mem (addr + 1) n = some ((List.range n).map fun j => data (j + 1)) := by
      apply ih
      intro j hj
      rw [Nat.add_assoc, Nat.add_comm 1]
      exact h (j + 1) (by omega)
    rw [fetch, hhead, htail, List.range_succ_eq_map, List.map_cons, List.map_map]
    rfl

/-- A byte changes no other. -/
theorem put_of_ne {a : Nat} (h : put addr b mem = some mem') (ha : a ≠ addr) : mem' a = mem a := by
  obtain ⟨old, -, rfl⟩ := Option.map_eq_some_iff.1 h
  exact Function.update_of_ne ha _ _

theorem put_self (h : put addr b mem = some mem') : mem' addr = some b := by
  obtain ⟨old, -, rfl⟩ := Option.map_eq_some_iff.1 h
  exact Function.update_self _ _ _

/-- Bytes change nothing below them. -/
theorem putList_below {a : Nat} (h : putList addr bs mem = some mem') (ha : a < addr) : mem' a = mem a := by
  induction bs generalizing addr mem with
  | nil =>
    obtain rfl := Option.some.inj h
    rfl
  | cons b bs ih =>
    obtain ⟨mem₁, hput, hrest⟩ := Option.bind_eq_some_iff.1 h
    rw [ih hrest (by omega), put_of_ne hput (by omega)]

/-- What has been stored is found again, whatever was stored behind it. -/
theorem fetch_putList (h : putList addr (xs ++ ys) mem = some mem') : fetch mem' addr xs.length = some xs := by
  induction xs generalizing addr mem with
  | nil => rfl
  | cons x xs ih =>
    obtain ⟨mem₁, hput, hrest⟩ := Option.bind_eq_some_iff.1 h
    have hhead : mem' addr = some x := by
      rw [putList_below hrest (by omega), put_self hput]
    rw [List.length_cons, fetch, hhead, ih hrest]
    rfl

/-! ## Queues -/

section Machine

variable [DecidableEq ι] [DecidableEq κ] {s s' : Network ι κ β} {e : MessageEvent ι κ β} {c : κ}

/-- What was in the queue and what is put into it is what is taken out and what stays. -/
theorem message_line (hstep : (messageMachine room).step s e = some s') :
    s.2 c ++ e.puts c s = e.takes c s ++ s'.2 c := by
  cases e with
  | own d =>
    obtain ⟨mems, -, rfl⟩ := Option.map_eq_some_iff.1 hstep
    exact List.append_nil _
  | send p c' addr n =>
    obtain ⟨bs, hbs, rfl⟩ := Option.map_eq_some_iff.1 hstep
    by_cases hc : c' = c
    · subst hc
      simp [MessageEvent.puts, MessageEvent.takes, hbs]
    · simp [MessageEvent.puts, MessageEvent.takes, hc, Ne.symm hc]
  | receive p c' addr n rest =>
    obtain ⟨mems, -, rfl⟩ := Option.map_eq_some_iff.1 hstep
    by_cases hc : c' = c
    · subst hc
      simp [MessageEvent.puts, MessageEvent.takes]
    · simp [MessageEvent.puts, MessageEvent.takes, hc, Ne.symm hc]

/-- Whoever has received bytes finds them in its memory. -/
theorem fetch_received {p : ι} {rest : List β}
    (hstep : (messageMachine room).step s (.receive p c addr n rest) = some s') :
    fetch (s'.1 p) addr (min n (s.2 c).length) = some ((s.2 c).take n) := by
  obtain ⟨mems, hstore, rfl⟩ := Option.map_eq_some_iff.1 hstep
  obtain ⟨mem, hput, rfl⟩ := Option.map_eq_some_iff.1 hstore
  obtain ⟨mem', hlist, hmem⟩ := Option.bind_eq_some_iff.1 hput
  obtain rfl := Option.some.inj hmem
  show fetch (Function.update s.1 p mem' p) addr _ = _
  rw [Function.update_self, ← List.length_take]
  exact fetch_putList hlist

/-- No queue holds more than it has room for. -/
theorem message_room (h : ∀ c, (s.2 c).length ≤ room) (hen : (messageMachine room).enabled s e)
    (hstep : (messageMachine room).step s e = some s') : ∀ c, (s'.2 c).length ≤ room := by
  intro c
  have hline := congrArg List.length (message_line (c := c) hstep)
  rw [List.length_append, List.length_append] at hline
  have hfits : (s.2 c).length + (e.puts c s).length ≤ room := by
    cases e with
    | own d => exact h c
    | receive p c' addr n rest => exact h c
    | send p c' addr n =>
      obtain ⟨bs, hbs, -⟩ := Option.map_eq_some_iff.1 hstep
      by_cases hc : c' = c
      · subst hc
        simp only [MessageEvent.puts, if_true, hbs, Option.getD_some, length_fetch hbs]
        exact hen
      · simp only [MessageEvent.puts, if_neg hc]
        exact h c
  omega

end Machine

end Paging
