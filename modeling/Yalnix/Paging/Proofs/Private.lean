import Yalnix.Paging.Private
import Yalnix.Paging.Proofs.Memory

/-!
# What is in a private memory

A store through the table of one process is a store into its memory, and the others do not see it.
-/

namespace Paging

open Transition

variable {ι β : Type} {size addr : Nat} {t w : Table} {fr fr' : Frames β} {tables : ι → Table} {f : Nat}
  {mem mem' : Private β} {xs : Stores β} {bs : List β} {b : β} {p : ι}

/-! ## Frames that a store leaves alone -/

theorem store_kept (h : store size t fr addr b = some fr') (hf : ∀ i, t i ≠ some f) : fr' f = fr f := by
  obtain ⟨g, hg, rfl⟩ := Option.map_eq_some_iff.1 h
  apply Function.update_of_ne
  rintro rfl
  exact hf _ hg

theorem storeList_kept (h : storeList size t addr bs fr = some fr') (hf : ∀ i, t i ≠ some f) :
    fr' f = fr f := by
  induction bs generalizing addr fr with
  | nil =>
    obtain rfl := Option.some.inj h
    rfl
  | cons b bs ih =>
    obtain ⟨fr₁, hstore, hrest⟩ := Option.bind_eq_some_iff.1 h
    rw [ih hrest, store_kept hstore hf]

theorem storeAll_kept (h : storeAll size t xs fr = some fr') (hf : ∀ i, t i ≠ some f) : fr' f = fr f := by
  induction xs generalizing fr with
  | nil =>
    obtain rfl := Option.some.inj h
    rfl
  | cons x xs ih =>
    obtain ⟨fr₁, hstore, hrest⟩ := Option.bind_eq_some_iff.1 h
    rw [ih hrest, storeList_kept hstore hf]

/-- What has not changed in the frames of a table is read as before. -/
theorem load_kept (h : ∀ i f, t i = some f → fr' f = fr f) : load size t fr' = load size t fr := by
  funext a
  unfold load
  cases ht : t (a / size) with
  | none => rfl
  | some f =>
    rw [Option.map_some, Option.map_some, h _ f ht]

/-- More pages hide nothing. -/
theorem load_mono {t' : Table} (h : ∀ i f, t i = some f → t' i = some f) {a : Nat}
    (hb : load size t fr a = some b) : load size t' fr a = some b := by
  unfold load at hb ⊢
  obtain ⟨f, hf, rfl⟩ := Option.map_eq_some_iff.1 hb
  rw [h _ f hf, Option.map_some]

/-- What is copied page by page is read as the original. -/
theorem load_copied {t' : Table} (hpos : 0 < size) (hnone : ∀ i, t i = none → t' i = none)
    (hcopy : ∀ i f, t i = some f → ∃ g, t' i = some g ∧ ∀ o < size, fr' g o = fr f o) :
    load size t' fr' = load size t fr := by
  funext a
  unfold load
  cases ht : t (a / size) with
  | none => rw [hnone _ ht]; rfl
  | some f =>
    obtain ⟨g, hg, hbytes⟩ := hcopy _ f ht
    rw [hg, Option.map_some, Option.map_some, hbytes _ (Nat.mod_lt a hpos)]

/-! ## A store is a store -/

/-- The table `w` lets a process write at pages that it reads through `t`, and `t` maps no frame twice. -/
structure Writes (w t : Table) : Prop where
  sub : ∀ i f, w i = some f → t i = some f
  once : ∀ i j f, t i = some f → t j = some f → i = j

theorem store_put (h : Writes w t) (hstore : store size w fr addr b = some fr') :
    put addr b (load size t fr) = some (load size t fr') := by
  obtain ⟨f, hw, rfl⟩ := Option.map_eq_some_iff.1 hstore
  have hf := h.sub _ f hw
  unfold put
  rw [load_of_mapped hf, Option.map_some]
  refine congrArg some (funext fun a => ?_)
  by_cases ha : a = addr
  · subst ha
    rw [Function.update_self, load_of_mapped hf, Function.update_self, Function.update_self]
  rw [Function.update_of_ne ha]
  unfold load
  cases ht : t (a / size) with
  | none => rfl
  | some g =>
    rw [Option.map_some, Option.map_some]
    by_cases hg : g = f
    · subst hg
      have hpage : a / size = addr / size := h.once _ _ g ht hf
      -- in the page of `addr`, only the byte at `addr` is new
      have hoff : a % size ≠ addr % size := by
        intro hoff
        apply ha
        rw [← Nat.div_add_mod a size, ← Nat.div_add_mod addr size, hpage, hoff]
      rw [Function.update_self, Function.update_of_ne hoff]
    · rw [Function.update_of_ne hg]

theorem storeList_put (h : Writes w t) (hstore : storeList size w addr bs fr = some fr') :
    putList addr bs (load size t fr) = some (load size t fr') := by
  induction bs generalizing addr fr with
  | nil =>
    obtain rfl := Option.some.inj hstore
    rfl
  | cons b bs ih =>
    obtain ⟨fr₁, hfirst, hrest⟩ := Option.bind_eq_some_iff.1 hstore
    rw [putList, store_put h hfirst]
    exact ih hrest

theorem storeAll_put (h : Writes w t) (hstore : storeAll size w xs fr = some fr') :
    putAll xs (load size t fr) = some (load size t fr') := by
  induction xs generalizing fr with
  | nil =>
    obtain rfl := Option.some.inj hstore
    rfl
  | cons x xs ih =>
    obtain ⟨fr₁, hfirst, hrest⟩ := Option.bind_eq_some_iff.1 hstore
    rw [putAll, List.foldlM_cons, storeList_put h hfirst]
    exact ih hrest

/-! ## Of all processes -/

namespace Separate

theorem writes (h : Separate tables) (hsub : ∀ i f, w i = some f → tables p i = some f) :
    Writes w (tables p) :=
  ⟨hsub, fun i j f hi hj => (h p p i j f hi hj).2⟩

/-- Only in the memory of `p` is something new, if only its frames have changed. -/
theorem view_eq [DecidableEq ι] (h : Separate tables)
    (hkept : ∀ f, (∀ i, tables p i ≠ some f) → fr' f = fr f) :
    view size tables fr' = Function.update (view size tables fr) p (load size (tables p) fr') := by
  funext q
  by_cases hq : q = p
  · subst hq
    rw [Function.update_self]
    rfl
  · rw [Function.update_of_ne hq]
    apply load_kept
    intro i f hi
    apply hkept
    intro j hj
    exact hq (h q p i j f hi hj).1

/-- Stores through the table of `p` are stores into the memory of `p`. -/
theorem store_step [DecidableEq ι] (h : Separate tables) (hsub : ∀ i f, w i = some f → tables p i = some f)
    (hstore : storeAll size w xs fr = some fr') :
    privateMachine.step (view size tables fr) (.store p xs) = some (view size tables fr') := by
  have hput : putAll xs (view size tables fr p) = some (load size (tables p) fr') :=
    storeAll_put (h.writes hsub) hstore
  have hview : view size tables fr' = Function.update (view size tables fr) p (load size (tables p) fr') := by
    apply h.view_eq
    intro f hf
    apply storeAll_kept hstore
    intro i hi
    exact hf i (hsub i f hi)
  show (putAll xs (view size tables fr p)).map _ = _
  rw [hput, hview]
  rfl

end Separate

/-! ## Runs -/

/-- Whoever no event is about keeps its memory. -/
theorem private_kept [DecidableEq ι] {P : (ι → Private β) → PrivateEvent ι β → Prop}
    {mems mems' : ι → Private β} {u : List ((ι → Private β) × PrivateEvent ι β)}
    (hrun : Run privateMachine P mems u mems') (hno : ∀ e ∈ u.map Prod.snd, e.owner ≠ p) :
    mems' p = mems p := by
  have hrun := hrun.restrict (Q := fun _ e => e.owner ≠ p) fun x hx => hno x.2 (List.mem_map_of_mem hx)
  refine hrun.invariant (I := fun mems' => mems' p = mems p) rfl ?_
  rintro mems₁ e mems₂ hsame - ⟨-, howner⟩ hstep
  rw [← hsame]
  cases e with
  | store q xs =>
    obtain ⟨mem, -, rfl⟩ := Option.map_eq_some_iff.1 hstep
    exact Function.update_of_ne (Ne.symm howner) _ _
  | copy parent child =>
    obtain rfl := Option.some.inj hstep
    exact Function.update_of_ne (Ne.symm howner) _ _
  | replace q mem =>
    obtain rfl := Option.some.inj hstep
    exact Function.update_of_ne (Ne.symm howner) _ _
  | extend q mem =>
    obtain rfl := Option.some.inj hstep
    exact Function.update_of_ne (Ne.symm howner) _ _
  | drop q =>
    obtain rfl := Option.some.inj hstep
    exact Function.update_of_ne (Ne.symm howner) _ _

end Paging
