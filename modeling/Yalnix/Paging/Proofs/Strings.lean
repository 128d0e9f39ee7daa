import Yalnix.Paging.Strings
import Yalnix.Paging.Proofs.Memory

/-!
# Reading back what was written

Words and strings are read back from the bytes they were written as, a store leaves the rest of a window
alone, and a vector of packed strings is read back as those strings.
-/

namespace Paging

variable {read read' : Reader} {addr p cp n limit : Nat} {bs cs s : List UInt8} {ss : List (List UInt8)}

theorem length_terminated : (terminated s).length = s.length + 1 := by
  simp [terminated]

theorem length_word {v : Nat} : (word v).length = 4 := rfl

theorem packed_cons : packed (s :: ss) = terminated s ++ packed ss := rfl

theorem packed_take_drop {i : Nat} :
    (packed (ss.take i)).length + (packed (ss.drop i)).length = (packed ss).length := by
  unfold packed
  rw [← List.length_append, ← List.flatMap_append, List.take_append_drop]

/-! ## Bytes in their place -/

theorem holdsAt_append :
    HoldsAt read addr (bs ++ cs) ↔ HoldsAt read addr bs ∧ HoldsAt read (addr + bs.length) cs := by
  unfold HoldsAt
  rw [List.length_append]
  constructor
  · intro h
    constructor
    · intro i hi
      rw [h i (by omega), List.getElem?_append_left hi]
    · intro i hi
      rw [Nat.add_assoc, h (bs.length + i) (by omega), List.getElem?_append_right (by omega),
        Nat.add_sub_cancel_left]
  · rintro ⟨hbs, hcs⟩ i hi
    by_cases hlt : i < bs.length
    · rw [hbs i hlt, List.getElem?_append_left hlt]
    · obtain ⟨d, rfl⟩ : ∃ d, i = bs.length + d := ⟨i - bs.length, by omega⟩
      rw [← Nat.add_assoc, hcs d (by omega), List.getElem?_append_right (by omega),
        Nat.add_sub_cancel_left]

/-- Only the bytes in the range count. -/
theorem HoldsAt.congr (h : HoldsAt read addr bs)
    (hsame : ∀ a, addr ≤ a → a < addr + bs.length → read' a = read a) : HoldsAt read' addr bs := by
  intro i hi
  rw [hsame (addr + i) (by omega) (by omega)]
  exact h i hi

theorem holdsAt_cons {b : UInt8} :
    HoldsAt read addr (b :: bs) ↔ read addr = some b ∧ HoldsAt read (addr + 1) bs := by
  have happend := @holdsAt_append read addr [b] bs
  rw [List.singleton_append] at happend
  rw [happend]
  refine and_congr_left fun _ => ?_
  constructor
  · intro h
    exact h 0 (by simp)
  · intro h i hi
    obtain rfl : i = 0 := by simpa using hi
    exact h

/-! ## Words -/

theorem readWord_of_holds {v : Nat} (hv : v < 2 ^ 32) (h : HoldsAt read addr (word v)) :
    readWord read addr = some v := by
  have h₀ : read addr = some (UInt8.ofNat v) := h 0 (by simp [length_word])
  have h₁ : read (addr + 1) = some (UInt8.ofNat (v / 2 ^ 8)) := h 1 (by simp [length_word])
  have h₂ : read (addr + 2) = some (UInt8.ofNat (v / 2 ^ 16)) := h 2 (by simp [length_word])
  have h₃ : read (addr + 3) = some (UInt8.ofNat (v / 2 ^ 24)) := h 3 (by simp [length_word])
  unfold readWord
  rw [h₀, h₁, h₂, h₃]
  simp only [Option.bind_eq_bind, Option.bind_some, Option.pure_def, UInt8.toNat_ofNat']
  congr 1
  omega

/-! ## Strings -/

/-- A string is read back if it fits. -/
theorem readString_of_holds (hclean : 0 ∉ s) (hn : s.length < n) (h : HoldsAt read addr (terminated s)) :
    readString read addr n = some s := by
  induction s generalizing addr n with
  | nil =>
    obtain ⟨n, rfl⟩ : ∃ d, n = d + 1 := ⟨n - 1, by simp at hn; omega⟩
    have hend : read addr = some 0 := (holdsAt_cons.1 h).1
    rw [readString, hend]
    rfl
  | cons b s ih =>
    obtain ⟨n, rfl⟩ : ∃ d, n = d + 1 := ⟨n - 1, by simp at hn; omega⟩
    rw [List.length_cons] at hn
    rw [List.mem_cons, not_or] at hclean
    obtain ⟨hb, hrest⟩ := holdsAt_cons.1 h
    have hne : ¬ b = 0 := fun e => hclean.1 e.symm
    rw [readString, hb]
    simp only [Option.bind_eq_bind, Option.bind_some, if_neg hne]
    rw [ih hclean.2 (by omega) hrest]
    rfl

/-- What is read as a string has no zero byte in it. -/
theorem readString_clean (h : readString read addr n = some s) : 0 ∉ s := by
  induction n generalizing addr s with
  | zero => cases h
  | succ n ih =>
    rw [readString] at h
    simp only [Option.bind_eq_bind, Option.bind_eq_some_iff] at h
    obtain ⟨b, -, h⟩ := h
    by_cases hb : b = 0
    · rw [if_pos hb] at h
      obtain rfl := Option.some.inj h
      exact List.not_mem_nil
    · rw [if_neg hb] at h
      simp only [Option.bind_eq_some_iff] at h
      obtain ⟨s', hs', h⟩ := h
      obtain rfl := Option.some.inj h
      rw [List.mem_cons, not_or]
      exact ⟨fun e => hb e.symm, ih hs'⟩

theorem readVector_clean (h : readVector read limit p n = some ss) : ∀ s ∈ ss, 0 ∉ s := by
  induction n generalizing p ss with
  | zero => cases h
  | succ n ih =>
    rw [readVector] at h
    simp only [Option.bind_eq_bind, Option.bind_eq_some_iff] at h
    obtain ⟨cp, -, h⟩ := h
    by_cases hcp : cp = 0
    · rw [if_pos hcp] at h
      obtain rfl := Option.some.inj h
      intro s hs
      cases hs
    · rw [if_neg hcp] at h
      simp only [Option.bind_eq_some_iff] at h
      obtain ⟨s, hs, ss', hss', h⟩ := h
      obtain rfl := Option.some.inj h
      intro s' hmem
      rcases List.mem_cons.1 hmem with rfl | hmem
      · exact readString_clean hs
      · exact ih hss' s' hmem

/-! ## Vectors -/

theorem PackedAt.congr (h : PackedAt read p cp ss)
    (hwords : ∀ a, p ≤ a → a < p + 4 * ss.length → read' a = read a)
    (hstrings : ∀ a, cp ≤ a → a < cp + (packed ss).length → read' a = read a) :
    PackedAt read' p cp ss := by
  induction ss generalizing p cp with
  | nil => trivial
  | cons s ss ih =>
    rw [List.length_cons] at hwords
    rw [packed_cons, List.length_append] at hstrings
    obtain ⟨hword, hstring, hrest⟩ := h
    refine ⟨?_, ?_, ?_⟩
    · apply hword.congr
      intro a ha ha'
      rw [length_word] at ha'
      exact hwords a ha (by omega)
    · apply hstring.congr
      intro a ha ha'
      exact hstrings a ha (by omega)
    · apply ih hrest
      · intro a ha ha'
        exact hwords a (by omega) (by omega)
      · intro a ha ha'
        exact hstrings a (by omega) (by omega)

/-- The `i`th pointer points past the strings before. -/
theorem PackedAt.pointer {i : Nat} (h : PackedAt read p cp ss) (hi : i < ss.length) :
    HoldsAt read (p + 4 * i) (word (cp + (packed (ss.take i)).length)) := by
  induction ss generalizing p cp i with
  | nil => cases hi
  | cons s ss ih =>
    obtain ⟨hword, -, hrest⟩ := h
    cases i with
    | zero => exact hword
    | succ i =>
      rw [List.take_succ_cons, packed_cons, List.length_append, ← Nat.add_assoc,
        show p + 4 * (i + 1) = p + 4 + 4 * i by omega]
      exact ih hrest (by simpa using hi)

/-- Packed strings are read back as a vector, if a null pointer comes after the pointers to them. -/
theorem readVector_of_packed (hclean : ∀ s ∈ ss, 0 ∉ s) (hpos : 0 < cp)
    (hlimit : cp + (packed ss).length ≤ limit) (hword : limit ≤ 2 ^ 32) (hn : ss.length < n)
    (h : PackedAt read p cp ss) (hnull : HoldsAt read (p + 4 * ss.length) (word 0)) :
    readVector read limit p n = some ss := by
  induction ss generalizing p cp n with
  | nil =>
    obtain ⟨n, rfl⟩ : ∃ d, n = d + 1 := ⟨n - 1, by simp at hn; omega⟩
    have hend : readWord read p = some 0 := readWord_of_holds (by decide) hnull
    rw [readVector, hend]
    rfl
  | cons s ss ih =>
    obtain ⟨n, rfl⟩ : ∃ d, n = d + 1 := ⟨n - 1, by simp at hn; omega⟩
    obtain ⟨hptr, hstring, hrest⟩ := h
    rw [packed_cons, List.length_append, length_terminated] at hlimit
    rw [List.length_cons] at hn hnull
    have hs : readString read cp (limit - cp) = some s :=
      readString_of_holds (hclean s List.mem_cons_self) (by omega) hstring
    have hss : readVector read limit (p + 4) n = some ss := by
      refine ih (fun s' hs' => hclean s' (List.mem_cons_of_mem s hs')) ?_ ?_ (by omega) hrest ?_
      · omega
      · rw [length_terminated]
        omega
      · rwa [show p + 4 + 4 * ss.length = p + 4 * (ss.length + 1) by omega]
    rw [readVector, readWord_of_holds (by omega) hptr]
    simp only [Option.bind_eq_bind, Option.bind_some]
    rw [if_neg (by omega), hs, hss]
    rfl

/-! ## Buffers -/

namespace Buffer

variable {buf : Buffer}

/-- A write that fits is read back, and changes nothing else. -/
theorem write_fits (h : addr + bs.length ≤ buf.size) : ∃ buf', buf.write addr bs = some buf' ∧
    buf'.size = buf.size ∧ HoldsAt buf'.read addr bs ∧
    ∀ a, a < addr → buf'.read a = buf.read a := by
  refine ⟨_, if_pos h, rfl, ?_, ?_⟩
  · intro i hi
    unfold read
    rw [if_pos (by show addr + i < buf.size; omega)]
    show some (writeList buf.bytes addr bs (addr + i)) = _
    rw [writeList_getElem hi, List.getElem?_eq_getElem hi]
  · intro a ha
    unfold read
    show (if a < buf.size then some (writeList buf.bytes addr bs a) else none) = _
    rw [writeList_of_lt ha]

end Buffer

/-! ## Windows -/

variable {size lo hi : Nat} {t : Table}

/-- Bytes can be stored in a window; they are read back there, and the rest of the window is left alone. -/
theorem Window.storeList (hw : Window size t lo hi) (fr : Frames UInt8) (hlo : lo ≤ addr)
    (hhi : addr + bs.length ≤ hi) :
    ∃ fr', Paging.storeList size t addr bs fr = some fr' ∧ HoldsAt (load size t fr') addr bs ∧
      ∀ a, lo ≤ a → a < hi → ¬ (addr ≤ a ∧ a < addr + bs.length) →
        load size t fr' a = load size t fr a := by
  -- the flat memory of the window
  have hr : Represents size t lo hi fr fun a => (load size t fr a).getD 0 := by
    intro a ha ha'
    obtain ⟨f, hf⟩ := hw.mapped a ha ha'
    simp only [load_of_mapped hf, Option.getD_some]
  obtain ⟨fr', hstore, hr'⟩ := hr.storeList hw hlo hhi
  refine ⟨fr', hstore, ?_, ?_⟩
  · intro i hi'
    rw [hr' (addr + i) (by omega) (by omega), writeList_getElem hi', List.getElem?_eq_getElem hi']
  · intro a ha ha' hout
    rw [hr' a ha ha', hr a ha ha']
    by_cases hlt : a < addr
    · rw [writeList_of_lt hlt]
    · rw [writeList_of_ge (by omega)]

end Paging
