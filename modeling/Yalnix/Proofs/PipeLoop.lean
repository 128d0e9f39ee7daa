import Yalnix.PipeShape
import Mathlib.Tactic.Ring

/-!
# The copy loops

The loops that move bytes between a kernel buffer and the ring buffer of a pipe take a prefix of the
contents, and append to them.
-/

namespace Yalnix

variable {hw : Hardware} {pipe : Pipe}

/-- The loop takes the first `n` bytes. -/
theorem readLoop_eq (dec : Int) (dest : Nat → UInt8) (i n : Nat)
    (hlt : pipe.read_pos < hw.PIPE_BUFFER_LEN) :
    readLoop hw dec pipe dest i n =
      ({ pipe with
          read_pos := (pipe.read_pos + n) % hw.PIPE_BUFFER_LEN
          bytes_in_buffer := pipe.bytes_in_buffer - n * dec },
        fun j => if i ≤ j ∧ j < i + n then
          pipe.buffer ((pipe.read_pos + (j - i)) % hw.PIPE_BUFFER_LEN) else dest j,
        Ring.contents hw.PIPE_BUFFER_LEN pipe.buffer pipe.read_pos n) := by
  induction n generalizing pipe dest i with
  | zero =>
    refine Prod.ext ?_ (Prod.ext ?_ rfl)
    · simp [readLoop, Nat.mod_eq_of_lt hlt]
    · funext j
      exact (if_neg (by omega)).symm
  | succ n ih =>
    have hnext : (pipe.stepRead hw dec).read_pos < hw.PIPE_BUFFER_LEN := Nat.mod_lt _ hw.pipe_pos
    rw [readLoop, ih _ _ hnext]
    have hadd : ∀ m, ((pipe.stepRead hw dec).read_pos + m) % hw.PIPE_BUFFER_LEN =
        (pipe.read_pos + (m + 1)) % hw.PIPE_BUFFER_LEN := fun m => by
      simp [Pipe.stepRead, Nat.add_assoc, Nat.add_comm 1]
    have hbytes : (pipe.stepRead hw dec).bytes_in_buffer - n * dec =
        pipe.bytes_in_buffer - (n + 1 : Nat) * dec := by
      show pipe.bytes_in_buffer - dec - n * dec = _
      push_cast
      ring
    refine Prod.ext ?_ (Prod.ext ?_ ?_)
    · show ({ pipe.stepRead hw dec with read_pos := _, bytes_in_buffer := _ } : Pipe) = _
      rw [hadd, hbytes]
      rfl
    · funext j
      show (if i + 1 ≤ j ∧ j < i + 1 + n then _ else _) = if i ≤ j ∧ j < i + (n + 1) then _ else _
      by_cases h1 : i + 1 ≤ j ∧ j < i + 1 + n
      · rw [if_pos h1, if_pos (by omega), hadd, show j - (i + 1) + 1 = j - i by omega]
        rfl
      · rw [if_neg h1]
        by_cases h2 : j = i
        · subst h2
          rw [Function.update_self, if_pos (by omega), Nat.sub_self, Nat.add_zero,
            Nat.mod_eq_of_lt hlt]
        · rw [Function.update_of_ne h2, if_neg (by omega)]
    · show pipe.buffer pipe.read_pos :: Ring.contents _ pipe.buffer _ n = _
      rw [Nat.add_comm n 1, Ring.contents_add]
      simp [Ring.contents, Pipe.stepRead, Nat.mod_eq_of_lt hlt]

/-! ## Taking and putting bytes -/

/-- The pipe without its first `n` bytes. -/
def Pipe.drop (hw : Hardware) (pipe : Pipe) (n : Nat) : Pipe :=
  { pipe with
    read_pos := (pipe.read_pos + n) % hw.PIPE_BUFFER_LEN
    bytes_in_buffer := pipe.bytes_in_buffer - n }

/-- The pipe with the bytes `out` put behind its contents. -/
def Pipe.putAll (hw : Hardware) (pipe : Pipe) (out : List UInt8) : Pipe :=
  out.foldl (fun pipe b => pipe.put hw b) pipe

theorem Pipe.Valid.drop (h : pipe.Valid hw) {n : Nat} (hn : n ≤ pipe.bytes_in_buffer) :
    (pipe.drop hw n).Valid hw where
  nonneg := by show 0 ≤ pipe.bytes_in_buffer - n; omega
  le := by have := h.le; show pipe.bytes_in_buffer - n ≤ _; omega
  read_lt := Nat.mod_lt _ hw.pipe_pos
  write_eq := by
    show pipe.write_pos = ((pipe.read_pos + n) % _ + (pipe.bytes_in_buffer - n).toNat) % _
    rw [Nat.mod_add_mod, h.write_eq]
    congr 1
    omega

/-- What is taken and what stays are the contents. -/
theorem Pipe.Valid.contents_drop (h : pipe.Valid hw) {n : Nat} (hn : n ≤ pipe.bytes_in_buffer) :
    Ring.contents hw.PIPE_BUFFER_LEN pipe.buffer pipe.read_pos n ++ (pipe.drop hw n).contents hw =
      pipe.contents hw := by
  have hsum : pipe.bytes_in_buffer.toNat = n + (pipe.bytes_in_buffer - n).toNat := by
    have := h.nonneg
    omega
  show _ = Ring.contents _ pipe.buffer pipe.read_pos pipe.bytes_in_buffer.toNat
  rw [hsum, Ring.contents_add]
  rfl

theorem Pipe.Valid.put (h : pipe.Valid hw) (b : UInt8)
    (hroom : pipe.bytes_in_buffer < hw.PIPE_BUFFER_LEN) :
    (pipe.put hw b).Valid hw ∧ (pipe.put hw b).contents hw = pipe.contents hw ++ [b] := by
  have h0 := h.nonneg
  have hnat : (pipe.bytes_in_buffer + 1).toNat = pipe.bytes_in_buffer.toNat + 1 := by omega
  refine ⟨⟨?_, ?_, h.read_lt, ?_⟩, ?_⟩
  · show 0 ≤ pipe.bytes_in_buffer + 1; omega
  · show pipe.bytes_in_buffer + 1 ≤ _; omega
  · show (pipe.write_pos + 1) % _ = (pipe.read_pos + (pipe.bytes_in_buffer + 1).toNat) % _
    rw [h.write_eq, hnat, Nat.mod_add_mod]
    rfl
  · show Ring.contents _ (Function.update pipe.buffer pipe.write_pos b) pipe.read_pos
      (pipe.bytes_in_buffer + 1).toNat = _
    rw [hnat, h.write_eq]
    exact Ring.contents_put (by omega) b

theorem Pipe.Valid.putAll (h : pipe.Valid hw) (out : List UInt8)
    (hroom : pipe.bytes_in_buffer + out.length ≤ hw.PIPE_BUFFER_LEN) :
    (pipe.putAll hw out).Valid hw ∧ (pipe.putAll hw out).contents hw = pipe.contents hw ++ out ∧
      (pipe.putAll hw out).bytes_in_buffer = pipe.bytes_in_buffer + out.length := by
  induction out generalizing pipe with
  | nil => simp [Pipe.putAll, h]
  | cons b out ih =>
    simp only [List.length_cons] at hroom
    obtain ⟨hv, hc⟩ := h.put b (by omega)
    obtain ⟨h1, h2, h3⟩ := ih hv (by
      show pipe.bytes_in_buffer + 1 + out.length ≤ _
      omega)
    refine ⟨h1, ?_, ?_⟩
    · show ((pipe.put hw b).putAll hw out).contents hw = _
      rw [h2, hc, List.append_assoc]
      rfl
    · show ((pipe.put hw b).putAll hw out).bytes_in_buffer = _
      rw [h3]
      show pipe.bytes_in_buffer + 1 + out.length = _
      simp only [List.length_cons]
      omega

/-! ## Soundness -/

theorem Pipe.Valid.sound (h : pipe.Valid hw) : pipe.Sound hw := ⟨h.nonneg, h.read_lt⟩

theorem Pipe.Sound.drop {n : Nat} (hn : (n : Int) ≤ pipe.bytes_in_buffer) :
    (pipe.drop hw n).Sound hw :=
  ⟨by show 0 ≤ pipe.bytes_in_buffer - n; omega, Nat.mod_lt _ hw.pipe_pos⟩

/-- Bytes that are put are counted, and leave `read_pos` alone. -/
theorem putAll_fields (pipe : Pipe) (out : List UInt8) :
    (pipe.putAll hw out).bytes_in_buffer = pipe.bytes_in_buffer + out.length ∧
      (pipe.putAll hw out).read_pos = pipe.read_pos := by
  induction out generalizing pipe with
  | nil => simp [Pipe.putAll]
  | cons b out ih =>
    obtain ⟨hbytes, hread⟩ := ih (pipe.put hw b)
    refine ⟨hbytes.trans ?_, hread⟩
    show pipe.bytes_in_buffer + 1 + out.length = _
    rw [List.length_cons]
    omega

@[simp] theorem putAll_bytes (pipe : Pipe) (out : List UInt8) :
    (pipe.putAll hw out).bytes_in_buffer = pipe.bytes_in_buffer + out.length := (putAll_fields pipe out).1

theorem Pipe.Sound.putAll (h : pipe.Sound hw) (out : List UInt8) :
    (pipe.putAll hw out).Sound hw := by
  have hfields : (pipe.putAll hw out).bytes_in_buffer = _ ∧ (pipe.putAll hw out).read_pos = _ :=
    putAll_fields pipe out
  have := h.nonneg
  exact ⟨by omega, hfields.2 ▸ h.read_lt⟩

/-! ## The loop of a writer -/

/-- The loop puts bytes until the buffer is full or the source is used up. -/
theorem writeLoop_eq {room : Pipe → Int → Bool} {src : Nat → UInt8} {len : Int} {loc : Int} {n : Nat}
    {written : Int}
    (hroom : ∀ p w, p.bytes_in_buffer - w = pipe.bytes_in_buffer - written →
      (room p w = true ↔ p.bytes_in_buffer < hw.PIPE_BUFFER_LEN))
    (hloc : 0 ≤ loc) (hn : n = (len - loc).toNat) :
    ∀ m, m = min (hw.PIPE_BUFFER_LEN - pipe.bytes_in_buffer).toNat n →
    writeLoop hw room src len pipe written loc n =
      (pipe.putAll hw ((List.range m).map fun j => src (loc.toNat + j)), loc + m,
        (List.range m).map fun j => src (loc.toNat + j)) := by
  induction n generalizing pipe loc written with
  | zero =>
    rintro m rfl
    simp [writeLoop, Pipe.putAll]
  | succ n ih =>
    rintro m hm
    rw [writeLoop]
    by_cases hfull : pipe.bytes_in_buffer < hw.PIPE_BUFFER_LEN
    · rw [if_pos ⟨(hroom pipe written rfl).2 hfull, by omega⟩]
      obtain ⟨m, rfl⟩ : ∃ m', m = m' + 1 := ⟨m - 1, by omega⟩
      have hput : (pipe.put hw (src loc.toNat)).bytes_in_buffer = pipe.bytes_in_buffer + 1 := rfl
      have hrest : writeLoop hw room src len (pipe.put hw (src loc.toNat)) (written + 1) (loc + 1) n =
          _ := ih (fun p w hpw => hroom p w (by rw [hput] at hpw; omega)) (by omega) (by omega) m
        (by rw [hput]; omega)
      simp only [hrest]
      have hsrc : (List.range (m + 1)).map (fun j => src (loc.toNat + j)) =
          src loc.toNat :: (List.range m).map fun j => src ((loc + 1).toNat + j) := by
        rw [List.range_succ_eq_map, List.map_cons, List.map_map]
        refine congrArg _ (List.map_congr_left fun j _ => ?_)
        show src (loc.toNat + (j + 1)) = _
        congr 1
        omega
      rw [hsrc]
      refine Prod.ext rfl (Prod.ext ?_ rfl)
      show loc + 1 + (m : Int) = loc + ((m + 1 : Nat) : Int)
      omega
    · rw [if_neg (fun hh => hfull ((hroom pipe written rfl).1 hh.1))]
      obtain rfl : m = 0 := by omega
      simp [Pipe.putAll]

end Yalnix
