import Yalnix.Paging.Memory
import Mathlib.Data.List.GetD

/-!
# What stores and copies do

A copy from one page to another changes one frame; stores into a window are writes to the flat memory
that it represents.
-/

namespace Paging

variable {β : Type} {size : Nat} {t : Table} {fr fr' : Frames β} {addr lo hi f g n p q : Nat}
  {mem : Nat → β}

theorem load_of_mapped (h : t (addr / size) = some f) : load size t fr addr = some (fr f (addr % size)) := by
  unfold load
  rw [h]
  rfl

theorem store_of_mapped {b : β} (h : t (addr / size) = some f) : store size t fr addr b =
    some (Function.update fr f (Function.update (fr f) (addr % size) b)) := by
  unfold store
  rw [h]
  rfl

/-! ## Copying a page -/

theorem page_div (hn : n < size) : (p * size + n) / size = p := by
  rw [Nat.mul_comm, Nat.mul_add_div (by omega), Nat.div_eq_of_lt hn, Nat.add_zero]

theorem page_mod (hn : n < size) : (p * size + n) % size = n := by
  rw [Nat.mul_comm, Nat.mul_add_mod, Nat.mod_eq_of_lt hn]

/-- The first `n` bytes of page `p` become those of page `q`. -/
theorem copy_page (hp : t p = some f) (hq : t q = some g) (hne : f ≠ g) (hn : n ≤ size) :
    copy size t (p * size) (q * size) n fr =
      some (Function.update fr f (overlay n (fr g) (fr f))) := by
  induction n with
  | zero =>
    have hnone : overlay 0 (fr g) (fr f) = fr f := by
      funext o
      simp [overlay]
    rw [hnone, Function.update_eq_self]
    rfl
  | succ n ih =>
    have hlt : n < size := by omega
    have hsrc : t ((q * size + n) / size) = some g := by rw [page_div hlt, hq]
    have hdst : t ((p * size + n) / size) = some f := by rw [page_div hlt, hp]
    rw [copy, ih (by omega)]
    simp only [Option.bind_eq_bind, Option.bind_some]
    rw [load_of_mapped hsrc, page_mod hlt]
    simp only [Option.bind_some]
    rw [store_of_mapped hdst, page_mod hlt, Function.update_idem, Function.update_self,
      Function.update_of_ne hne.symm]
    have hnext : Function.update (overlay n (fr g) (fr f)) n (fr g n) = overlay (n + 1) (fr g) (fr f) := by
      funext o
      unfold overlay
      by_cases e : o = n
      · subst e
        simp
      · rw [Function.update_of_ne e]
        by_cases ho : o < n
        · rw [if_pos ho, if_pos (by omega)]
        · rw [if_neg ho, if_neg (by omega)]
    rw [hnext]

theorem overlay_of_lt {new old : Nat → β} {o : Nat} (h : o < n) : overlay n new old o = new o := by
  unfold overlay
  rw [if_pos h]

/-! ## Windows -/

/-- A store into a window is seen at its own address only. -/
theorem Window.load_store (hw : Window size t lo hi) {a : Nat} {b : β} (hlo : lo ≤ addr)
    (hhi : addr < hi) (ha : lo ≤ a) (ha' : a < hi) (h : store size t fr addr b = some fr') :
    load size t fr' a = if a = addr then some b else load size t fr a := by
  obtain ⟨f, hf⟩ := hw.mapped addr hlo hhi
  obtain ⟨g, hg⟩ := hw.mapped a ha ha'
  rw [store_of_mapped hf] at h
  obtain rfl := Option.some.inj h
  rw [load_of_mapped hg, load_of_mapped hg]
  by_cases e : g = f
  · subst e
    have hpage := hw.apart a addr ha ha' hlo hhi (hg.trans hf.symm)
    rw [Function.update_self]
    by_cases hoff : a % size = addr % size
    · have hsame : a = addr := by
        rw [← Nat.div_add_mod a size, ← Nat.div_add_mod addr size, hpage, hoff]
      rw [if_pos hsame, hoff, Function.update_self]
    · rw [Function.update_of_ne hoff, if_neg fun e => hoff (by rw [e])]
  · have hne : a ≠ addr := fun e' => e (Option.some.inj (hg.symm.trans (by rw [e', hf])))
    rw [Function.update_of_ne e, if_neg hne]

theorem writeList_nil : writeList mem addr [] = mem := by
  funext a
  simp [writeList]

theorem writeList_cons {b : β} {bs : List β} :
    writeList mem addr (b :: bs) = writeList (Function.update mem addr b) (addr + 1) bs := by
  funext a
  unfold writeList
  by_cases ha : addr + 1 ≤ a
  · obtain ⟨d, rfl⟩ : ∃ d, a = addr + 1 + d := ⟨a - (addr + 1), by omega⟩
    rw [if_pos (by omega), if_pos ha, show addr + 1 + d - addr = d + 1 by omega,
      show addr + 1 + d - (addr + 1) = d by omega, List.getD_cons_succ,
      Function.update_of_ne (by omega)]
  · rw [if_neg ha]
    by_cases e : a = addr
    · subst e
      simp
    · rw [if_neg (by omega), Function.update_of_ne e]

theorem writeList_of_lt {bs : List β} {a : Nat} (h : a < addr) : writeList mem addr bs a = mem a := by
  unfold writeList
  rw [if_neg (by omega)]

theorem writeList_of_ge {bs : List β} {a : Nat} (h : addr + bs.length ≤ a) :
    writeList mem addr bs a = mem a := by
  unfold writeList
  rw [if_pos (by omega), List.getD_eq_default _ _ (by omega)]

/-- Inside the range the bytes are those of the list. -/
theorem writeList_getElem {bs : List β} {i : Nat} (h : i < bs.length) :
    writeList mem addr bs (addr + i) = bs[i] := by
  unfold writeList
  rw [if_pos (by omega), show addr + i - addr = i by omega, List.getD_eq_getElem _ _ h]

/-- The bytes of a list can be stored in a window, and then it represents the flat memory with the list
written to it. -/
theorem Represents.storeList (hw : Window size t lo hi) {bs : List β} (hr : Represents size t lo hi fr mem)
    (hlo : lo ≤ addr) (hhi : addr + bs.length ≤ hi) :
    ∃ fr', Paging.storeList size t addr bs fr = some fr' ∧
      Represents size t lo hi fr' (writeList mem addr bs) := by
  induction bs generalizing fr mem addr with
  | nil => exact ⟨fr, rfl, by rwa [writeList_nil]⟩
  | cons b bs ih =>
    rw [List.length_cons] at hhi
    obtain ⟨f, hf⟩ := hw.mapped addr hlo (by omega)
    have hstore : store size t fr addr b = _ := store_of_mapped hf
    generalize Function.update fr f (Function.update (fr f) (addr % size) b) = fr₁ at hstore
    have hr₁ : Represents size t lo hi fr₁ (Function.update mem addr b) := by
      intro a ha ha'
      rw [hw.load_store hlo (by omega) ha ha' hstore]
      by_cases e : a = addr
      · subst e
        rw [if_pos rfl, Function.update_self]
      · rw [if_neg e, Function.update_of_ne e]
        exact hr a ha ha'
    have hlo₁ : lo ≤ addr + 1 := by omega
    obtain ⟨fr₂, hlist, hr₂⟩ := ih hr₁ hlo₁ (by omega)
    refine ⟨fr₂, ?_, ?_⟩
    · rw [Paging.storeList, hstore]
      exact hlist
    · rwa [writeList_cons]

end Paging
