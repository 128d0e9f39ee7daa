import Yalnix.PipeRun

/-!
# The writes in a history

The log of the writes under each event, and the place of the write that a blocked writer is in.
-/

namespace Yalnix

variable {i : Nat} {h evs : List PipeEvent} {e : PipeEvent} {ws : List Write}

theorem acceptedBytes_append : acceptedBytes i (h ++ evs) = acceptedBytes i h ++ acceptedBytes i evs :=
  List.flatMap_append

theorem deliveredBytes_append :
    deliveredBytes i (h ++ evs) = deliveredBytes i h ++ deliveredBytes i evs :=
  List.flatMap_append

theorem writeLog_append : writeLog i (h ++ evs) = evs.foldl (logEvent i) (writeLog i h) :=
  List.foldl_append

/-- Events at other pipes. -/
theorem history_other (hevs : ∀ e ∈ evs, e.slot ≠ i) :
    acceptedBytes i (h ++ evs) = acceptedBytes i h ∧
      deliveredBytes i (h ++ evs) = deliveredBytes i h ∧ writeLog i (h ++ evs) = writeLog i h := by
  have hlog : ∀ ws, evs.foldl (logEvent i) ws = ws := by
    induction evs with
    | nil => exact fun _ => rfl
    | cons e evs ih =>
      intro ws
      have he := hevs e (by simp)
      have : logEvent i ws e = ws := by cases e <;> simp_all [logEvent, PipeEvent.slot]
      rw [List.foldl_cons, this]
      exact ih (fun e he => hevs e (by simp [he])) ws
  have hacc : acceptedBytes i evs = [] := List.flatMap_eq_nil_iff.2 fun e he => by
    have := hevs e he
    cases e <;> simp_all [PipeEvent.slot]
  have hdel : deliveredBytes i evs = [] := List.flatMap_eq_nil_iff.2 fun e he => by
    have := hevs e he
    cases e <;> simp_all [PipeEvent.slot]
  rw [acceptedBytes_append, deliveredBytes_append, writeLog_append, hlog, hacc, hdel,
    List.append_nil, List.append_nil]
  exact ⟨rfl, rfl, rfl⟩

/-- Bytes go to the newest write of their writer. -/
theorem acceptFor_eq {w : PcbPtr} {bytes : List UInt8} {newer older : List Write} {r : Write}
    (hr : r.writer = w) (hnewer : ∀ x ∈ newer, x.writer ≠ w) :
    acceptFor w bytes (newer ++ r :: older) =
      newer ++ { r with accepted := r.accepted ++ bytes } :: older := by
  induction newer with
  | nil => simp [acceptFor, hr]
  | cons x newer ih =>
    rw [List.cons_append, acceptFor, if_neg (hnewer x (by simp)),
      ih fun y hy => hnewer y (by simp [hy])]
    rfl

/-- The last of the elements that `f` keeps. -/
theorem filter_map_split {α β : Type} {f : α → Bool} {g : α → β} {l : List α} {ys : List β} {y : β}
    (hl : (l.filter f).map g = ys ++ [y]) : ∃ l₁ x l₂, l = l₁ ++ x :: l₂ ∧ f x = true ∧ g x = y ∧
      (∀ z ∈ l₂, f z = false) ∧ (l₁.filter f).map g = ys := by
  induction l generalizing ys with
  | nil => simp at hl
  | cons a l ih =>
    by_cases ha : f a = true
    · rw [List.filter_cons_of_pos ha, List.map_cons] at hl
      cases ys with
      | nil =>
        simp only [List.nil_append, List.cons.injEq, List.map_eq_nil_iff,
          List.filter_eq_nil_iff] at hl
        exact ⟨[], a, l, rfl, ha, hl.1, fun z hz => by simpa using hl.2 z hz, rfl⟩
      | cons b ys =>
        simp only [List.cons_append, List.cons.injEq] at hl
        obtain ⟨l₁, x, l₂, rfl, hx, hy, hl₂, hys⟩ := ih hl.2
        exact ⟨a :: l₁, x, l₂, rfl, hx, hy, hl₂, by simp [ha, hl.1, hys]⟩
    · rw [List.filter_cons_of_neg ha] at hl
      obtain ⟨l₁, x, l₂, rfl, hx, hy, hl₂, hys⟩ := ih hl
      exact ⟨a :: l₁, x, l₂, rfl, hx, hy, hl₂, by simp [ha, hys]⟩

/-- The write of the first blocked writer: all older writes are done, and the writer has no newer one. -/
theorem firstWrite {w : PcbPtr} {xs : List PcbPtr}
    (hblocked : (ws.filter (!·.done)).map Write.writer = (w :: xs).reverse)
    (hnewest : ws.Pairwise fun r r' => r'.writer = r.writer → r'.done = true) :
    ∃ newer r older, ws = newer ++ r :: older ∧ r.done = false ∧ r.writer = w ∧
      (∀ x ∈ older, x.done = true) ∧ (∀ x ∈ newer, x.writer ≠ w) ∧
      (newer.filter (!·.done)).map Write.writer = xs.reverse := by
  rw [List.reverse_cons] at hblocked
  obtain ⟨newer, r, older, rfl, hr, hw, holder, hmap⟩ := filter_map_split hblocked
  have hr : r.done = false := by simpa using hr
  refine ⟨newer, r, older, rfl, hr, hw, fun x hx => by simpa using holder x hx, fun x hx e => ?_,
    hmap⟩
  have := (List.pairwise_append.1 hnewest).2.2 x hx r (by simp) (by rw [hw, e])
  rw [hr] at this
  cases this

end Yalnix
