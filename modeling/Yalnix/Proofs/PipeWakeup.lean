import Yalnix.Proofs.RingRun

/-!
# No lost wake-up on a pipe

As long as every write fits what the waiting readers take, writers wait for a full buffer and readers for
an empty one.
-/

namespace Yalnix

open Intrusive Transition

variable {hw : Hardware} {k k' k₀ : Kernel} {s s' : QueueId → List PcbPtr} {i j n : Nat}

/-! ## The lengths -/

/-- What the process `p` does keeps the lengths, as long as those of `p` are right where it waits afterwards. -/
theorem PipeLengths.touch (h : PipeLengths k s i) {p : PcbPtr} (hne : ∀ q, q ≠ p → k'.pcb q = k.pcb q)
    (hs : ∀ v, v.slot = i → ∀ q ∈ s' (.wait v), q ≠ p → q ∈ s (.wait v))
    (hr : p ∈ s' (.wait (.pipeReaders i)) → 0 ≤ (k'.pcb p).pipe_len)
    (hwr : p ∈ s' (.wait (.pipeWriters i)) → (k'.pcb p).write_loc < (k'.pcb p).pipe_len) :
    PipeLengths k' s' i := by
  refine ⟨fun r hmem => ?_, fun w hmem => ?_⟩
  · by_cases e : r = p
    · subst e
      exact hr hmem
    · rw [hne r e]
      exact h.reader r (hs (.pipeReaders i) rfl r hmem e)
  · by_cases e : w = p
    · subst e
      exact hwr hmem
    · rw [hne w e]
      exact h.writer w (hs (.pipeWriters i) rfl w hmem e)

/-- A step at the pipe in slot `i` keeps the lengths at every pipe. -/
theorem PipeLengths.drainStep (h : PipeLengths k s j) (hi : PipeShape hw k s i) (hc : Coherent k s)
    (hstep : DrainStep hw i k s k' s') : PipeLengths k' s' j := by
  cases hstep.cases hi with
  | serve hs hp hpos hout hat =>
    exact h.touch hat.others (fun v _ q hq _ => mem_of_mem_woken hs hq)
      (fun hr => absurd rfl (ne_of_mem_woken hc hs hr)) fun hr => absurd rfl (ne_of_mem_woken hc hs hr)
  | finish hs hp hout hdone hat =>
    exact h.touch hat.others (fun v _ q hq _ => mem_of_mem_woken hs hq)
      (fun hr => absurd rfl (ne_of_mem_woken hc hs hr)) fun hr => absurd rfl (ne_of_mem_woken hc hs hr)
  | @refill w xs pipe out hs hp hout hleft hat =>
    refine h.touch hat.others (fun v _ q hq _ => hq) (fun hr => ?_) fun _ => ?_
    · rw [hat.pcb]
      exact h.reader w hr
    · rw [hat.pcb]
      exact hleft

theorem PipeLengths.drain (h : PipeLengths k s j) (hi : PipeShape hw k s i) (hc : Coherent k s)
    (hd : Drain hw i k s k' s') : PipeLengths k' s' j :=
  (hd.invariant (I := fun k s => Coherent k s ∧ PipeShape hw k s i ∧ PipeLengths k s j)
    (fun _ _ _ _ h hstep => ⟨hstep.coherent, h.2.1.drainStep h.2.1 h.1 hstep,
      h.2.2.drainStep h.2.1 h.1 hstep⟩) ⟨hc, hi, h⟩).2.2

/-- What the drain loops keep at the pipe in slot `i`. -/
structure DrainInv (hw : Hardware) (k : Kernel) (s : QueueId → List PcbPtr) (i : Nat) : Prop where
  coherent : Coherent k s
  shape : PipeShape hw k s i
  valid : PipesValid hw k
  lengths : PipeLengths k s i

theorem DrainInv.drainStep (h : DrainInv hw k s i) (hstep : DrainStep hw i k s k' s') :
    DrainInv hw k' s' i :=
  ⟨hstep.coherent, h.shape.drainStep h.shape h.coherent hstep, h.valid.drainStep h.shape hstep,
    h.lengths.drainStep h.shape h.coherent hstep⟩

theorem DrainInv.drain (h : DrainInv hw k s i) (hd : Drain hw i k s k' s') : DrainInv hw k' s' i :=
  hd.invariant (I := fun k s => DrainInv hw k s i) (fun _ _ _ _ h hstep => h.drainStep hstep) h

theorem NoLostWakeup.congr (h : NoLostWakeup hw k s i) (hp : k'.pipe i = k.pipe i)
    (hs : ∀ v : WaitList, v.slot = i → s' (.wait v) = s (.wait v)) : NoLostWakeup hw k' s' i := by
  intro pipe hpipe
  rw [hs (.pipeWriters i) rfl, hs (.pipeReaders i) rfl]
  exact h pipe (hp ▸ hpipe)

/-! ## How the drain loops end -/

/-- Without a writer, readers wait for an empty buffer. -/
theorem DrainInv.noLost_of_drained (h : DrainInv hw k s i) (hs : s (.wait (.pipeWriters i)) = [])
    (hd : Drained k s i) : NoLostWakeup hw k s i := by
  intro pipe hp
  refine ⟨fun hne => absurd hs hne, fun hne => ?_⟩
  rcases hd with hr | hb
  · exact absurd hr hne
  · have := hb pipe hp
    have := (h.shape.sound pipe hp).nonneg
    omega

/-- What a fill leaves in the buffer. -/
theorem DrainInv.bytes_fill (h : DrainInv hw k s i) {w : PcbPtr} {xs : List PcbPtr} {pipe : Pipe}
    {k₁ : Kernel} (hs : s (.wait (.pipeWriters i)) = w :: xs) (hp : k.pipe i = some pipe)
    (hrun : fillFromWriter hw k i pipe w = some k₁) :
    (k₁.pcb w).write_loc = (k.pcb w).write_loc + pours hw k w pipe ∧
      (k₁.pcb w).pipe_len = (k.pcb w).pipe_len ∧
      ∃ pipe', k₁.pipe i = some pipe' ∧
        pipe'.bytes_in_buffer = pipe.bytes_in_buffer + pours hw k w pipe := by
  obtain ⟨k₂, out, hrun', hout, hat⟩ := h.shape.poured (w := w) (by simp [hs]) hp
  obtain rfl := Option.some.inj (hrun.symm.trans hrun')
  refine ⟨by rw [hat.pcb], by rw [hat.pcb], _, hat.object, ?_⟩
  rw [putAll_bytes, hout]

/-- What a reader leaves in the buffer. -/
theorem DrainInv.bytes_serve (h : DrainInv hw k s i) {r : PcbPtr} {xs : List PcbPtr} {pipe : Pipe}
    {k₁ : Kernel} (hs : s (.wait (.pipeReaders i)) = r :: xs) (hp : k.pipe i = some pipe)
    (hrun : serveReader hw k i pipe r = some k₁) : ∃ pipe', k₁.pipe i = some pipe' ∧
      pipe'.bytes_in_buffer =
        pipe.bytes_in_buffer - min (k.pcb r).pipe_len pipe.bytes_in_buffer := by
  have hmem : r ∈ s (.wait (.pipeReaders i)) := by simp [hs]
  have hlen := h.lengths.reader r hmem
  have := (h.shape.sound pipe hp).nonneg
  obtain ⟨k₂, out, hrun', -, hat⟩ := h.shape.served hmem hp
  obtain rfl := Option.some.inj (hrun.symm.trans hrun')
  refine ⟨_, hat.object, ?_⟩
  show pipe.bytes_in_buffer - ((takes k r pipe).toNat : Int) = _
  unfold takes
  omega

/-- Without a reader, `SyncDrainWriters` ends without a writer or with a full buffer. -/
theorem drainWriters_full (n : Nat) : ∀ k s, DrainInv hw k s i → s (.wait (.pipeReaders i)) = [] →
    ∀ k', syncDrainWriters hw n k i = some k' → ∃ s', Drain hw i k s k' s' ∧
      NoLostWakeup hw k' s' i := by
  induction n with
  | zero => exact fun k s _ _ k' h => by cases h
  | succ n ih =>
    intro k s hinv hr k' h
    cases hinv.coherent.writersTurn h with
    | none hs hp hexit =>
      rcases hexit with ⟨-, hne, -⟩ | ⟨-, rfl⟩
      · exact absurd hr hne
      · exact ⟨s, .refl _ _, hinv.noLost_of_drained hs (Or.inl hr)⟩
    | @refill w xs pipe pipe' k₁ q hs hp hrun hleft hstep hp' hexit =>
      obtain ⟨hloc, hlen, pipe₁, hp₁, hbytes⟩ := hinv.bytes_fill hs hp hrun
      have hle := (hinv.valid i pipe hp).le
      unfold pours at hloc hbytes
      rcases hexit with ⟨-, hne, -⟩ | ⟨-, rfl⟩
      · exact absurd hr hne
      · refine ⟨s, .head hstep (.refl _ _), fun pipe₂ hp₂ => ⟨fun _ => ?_, fun hne => absurd hr hne⟩⟩
        obtain rfl : pipe₁ = pipe₂ := Option.some.inj (hp₁.symm.trans hp₂)
        omega
    | finish hs hp hrun hdone hstep hrest =>
      obtain ⟨s', hd, hn⟩ := ih _ _ (hinv.drainStep hstep) (by rw [woken_ne (by simp)]; exact hr) k' hrest
      exact ⟨s', .head hstep hd, hn⟩

/-! ## A write that fits -/

/-- What the waiting readers ask for, read off the sequences. -/
def requests (k : Kernel) (s : QueueId → List PcbPtr) (i : Nat) : List Nat :=
  (s (.wait (.pipeReaders i))).map fun r => (k.pcb r).pipe_len.toNat

/-- The bytes that the writer `w` has left are used up by `n` fillings, or nothing is taken of the last
one. -/
def Fits (hw : Hardware) (k : Kernel) (w : PcbPtr) (x : Nat × Nat) : Prop :=
  (k.pcb w).pipe_len - (k.pcb w).write_loc ≤ hw.PIPE_BUFFER_LEN * x.1 ∨ x.2 = hw.PIPE_BUFFER_LEN

theorem refills_of_lt {N avail r : Nat} (h : r < avail) (rs : List Nat) :
    refills N avail (r :: rs) = refills N (avail - r) rs := by
  rw [refills.eq_def]
  exact if_pos h

theorem refills_of_ge {N avail r r' : Nat} (h : ¬ r < avail) (rs : List Nat) :
    refills N avail (r :: r' :: rs) =
      ((refills N N (r' :: rs)).1 + 1, (refills N N (r' :: rs)).2) := by
  rw [refills.eq_def]
  exact if_neg h

/-- The drain loops with a single writer whose bytes fit. -/
theorem drain_fits (n : Nat) : ∀ k s, DrainInv hw k s i →
    ∀ w pipe, s (.wait (.pipeWriters i)) = [w] → k.pipe i = some pipe → ∀ k',
    (∀ avail : Nat, pipe.bytes_in_buffer = avail → 0 < avail →
      Fits hw k w (refills hw.PIPE_BUFFER_LEN avail (requests k s i)) →
      syncDrainReaders hw n k i = some k' →
        ∃ s', Drain hw i k s k' s' ∧ NoLostWakeup hw k' s' i) ∧
    (∀ x, pipe.bytes_in_buffer = 0 → s (.wait (.pipeReaders i)) ≠ [] →
      x = refills hw.PIPE_BUFFER_LEN hw.PIPE_BUFFER_LEN (requests k s i) →
      Fits hw k w (x.1 + 1, x.2) →
      syncDrainReaders hw n k i = some k' ∨ syncDrainWriters hw n k i = some k' →
        ∃ s', Drain hw i k s k' s' ∧ NoLostWakeup hw k' s' i) := by
  induction n with
  | zero => exact fun k s _ w pipe _ _ k' => ⟨fun _ _ _ _ h => (by cases h),
      fun _ _ _ _ _ h => (by rcases h with h | h <;> cases h)⟩
  | succ n ih =>
    intro k s hinv w pipe hw' hp k'
    have hmem : w ∈ s (.wait (.pipeWriters i)) := by simp [hw']
    have hleft := hinv.lengths.writer w hmem
    have hN := hw.pipe_pos
    constructor
    · intro avail hbytes hpos hfits h
      cases hinv.coherent.readersTurn h with
      | none hs hp' heq =>
        -- the rest of the filling stays
        subst heq
        refine ⟨s, .refl _ _, fun pipe' hp' => ⟨fun _ => ?_, fun hne => absurd hs hne⟩⟩
        obtain rfl : pipe = pipe' := Option.some.inj (hp.symm.trans hp')
        rcases hfits with hfits | hfits
        · simp [requests, hs, refills] at hfits
          omega
        · simp [requests, hs, refills] at hfits
          omega
      | @serve r xs pipe₁ k₁ q hs hp₁ hpos₁ hrun hstep hrest =>
        obtain rfl : pipe = pipe₁ := Option.some.inj (hp.symm.trans hp₁)
        obtain ⟨pipe', hp', hbytes'⟩ := hinv.bytes_serve hs hp hrun
        obtain ⟨-, -, hframe⟩ := serveReader_frame hrun
        have hinv' := hinv.drainStep hstep
        have hw'' : woken s (.pipeReaders i) r xs (.wait (.pipeWriters i)) = [w] := by
          rw [woken_ne (by simp), hw']
        have hlen : 0 ≤ (k.pcb r).pipe_len := hinv.lengths.reader r (by simp [hs])
        generalize hK : ({ k₁.setState r .processReady with queues := q } : Kernel) = K at *
        have hpcb : ∀ p, p ≠ r → K.pcb p = k.pcb p := fun p hpr => by
          rw [← hK]
          simp [Kernel.setState, Kernel.modifyPcb, hpr, hframe p hpr]
        have hpK : K.pipe i = some pipe' := by rw [← hK]; exact hp'
        have hne : w ≠ r := by
          rintro rfl
          have := hinv.coherent.unique hmem (show w ∈ s (.wait (.pipeReaders i)) by simp [hs])
          simp at this
        have hreq : requests k s i =
            (k.pcb r).pipe_len.toNat :: requests K (woken s (.pipeReaders i) r xs) i := by
          unfold requests
          rw [hs, List.map_cons, woken_self]
          refine congrArg _ (List.map_congr_left fun x hx => ?_)
          rw [hpcb x (ne_of_mem_woken hinv.coherent hs (v := .pipeReaders i) (by simpa using hx))]
        rw [hreq] at hfits
        obtain ⟨ih1, ih2⟩ := ih K _ hinv' w pipe' hw'' hpK k'
        by_cases hlt : (k.pcb r).pipe_len.toNat < avail
        · rw [refills_of_lt hlt] at hfits
          unfold Fits at hfits
          rw [← hpcb w hne] at hfits
          obtain ⟨s', hd, hn⟩ := ih1 _ (by omega) (by omega) hfits hrest
          exact ⟨s', .head hstep hd, hn⟩
        · cases hxs : xs with
          | nil =>
            -- the buffer is empty, and nobody waits any more
            subst hxs
            rw [show requests K (woken s (.pipeReaders i) r []) i = [] by simp [requests],
              refills.eq_def] at hfits
            simp only [if_neg hlt] at hfits
            rcases hfits with hfits | hfits
            · simp only [Nat.cast_zero, mul_zero] at hfits
              omega
            · simp only at hfits
              omega
          | cons r' xs' =>
            have hreq' : ∃ a as, requests K (woken s (.pipeReaders i) r xs) i = a :: as := by
              simp [requests, hxs]
            obtain ⟨a, as, hreq'⟩ := hreq'
            rw [hreq', refills_of_ge hlt, ← hreq'] at hfits
            unfold Fits at hfits
            rw [← hpcb w hne] at hfits
            obtain ⟨s', hd, hn⟩ := ih2 _ (by omega) (by rw [woken_self, hxs]; simp) rfl hfits
              (Or.inl hrest)
            exact ⟨s', .head hstep hd, hn⟩
      | empty hs hp' hzero hrest =>
        obtain rfl : pipe = _ := Option.some.inj (hp.symm.trans hp')
        omega
    · rintro x hbytes hs rfl hfits (h | h)
      · cases hinv.coherent.readersTurn h with
        | none hs' => exact absurd hs' hs
        | @serve r xs pipe₁ k₁ q hs' hp₁ hpos₁ hrun hstep hrest =>
          obtain rfl : pipe = pipe₁ := Option.some.inj (hp.symm.trans hp₁)
          omega
        | empty hs' hp' hzero hrest =>
          exact (ih k s hinv w pipe hw' hp k').2 _ hbytes hs rfl hfits (Or.inr hrest)
      · cases hinv.coherent.writersTurn h with
        | none hs' => simp [hw'] at hs'
        | @refill w₁ xs pipe₁ pipe' k₁ q hs' hp₁ hrun hlt hstep hp' hexit =>
          obtain rfl : pipe = pipe₁ := Option.some.inj (hp.symm.trans hp₁)
          obtain ⟨hloc, hlen, pipe₂, hp₂, hbytes'⟩ := hinv.bytes_fill hs' hp hrun
          unfold pours at hloc hbytes'
          obtain rfl : pipe' = pipe₂ := Option.some.inj (hp'.symm.trans hp₂)
          obtain ⟨rfl, rfl⟩ : w = w₁ ∧ [] = xs := by simpa using hw'.symm.trans hs'
          obtain ⟨-, -, hframe⟩ := fillFromWriter_frame hrun
          rcases hexit with ⟨-, -, hrest⟩ | ⟨hz | hz, -⟩
          · have hreq : requests { k₁ with queues := q } s i = requests k s i := by
              refine List.map_congr_left fun x hx => ?_
              have hne : x ≠ w := by
                rintro rfl
                have := hinv.coherent.unique hx hmem
                simp at this
              show (k₁.pcb x).pipe_len.toNat = _
              rw [hframe x hne]
            have hfits' : Fits hw { k₁ with queues := q } w
                (refills hw.PIPE_BUFFER_LEN hw.PIPE_BUFFER_LEN (requests k s i)) := by
              unfold Fits at hfits ⊢
              rw [Nat.cast_add, Nat.cast_one, mul_add, mul_one] at hfits
              show (k₁.pcb w).pipe_len - (k₁.pcb w).write_loc ≤ _ ∨ _
              rw [hloc, hlen]
              rcases hfits with hfits | hfits
              · exact Or.inl (by omega)
              · exact Or.inr hfits
            rw [← hreq] at hfits'
            obtain ⟨s', hd, hn⟩ := (ih _ s (hinv.drainStep hstep) w pipe' hw' hp' k').1
              hw.PIPE_BUFFER_LEN (by omega) hN hfits' hrest
            exact ⟨s', .head hstep hd, hn⟩
          · omega
          · exact absurd hz hs
        | @finish w₁ xs pipe₁ k₁ k₂ hs' hp₁ hrun hdone hstep hrest =>
          obtain ⟨rfl, rfl⟩ : w = w₁ ∧ [] = xs := by simpa using hw'.symm.trans hs'
          obtain ⟨s', hd, hdr⟩ := (drain_steps n _ _ hstep.coherent).1 k' hrest
          exact ⟨s', .head hstep hd, ((hinv.drainStep hstep).drain hd).noLost_of_drained
            (hd.nil woken_self) hdr⟩

/-! ## The calls -/

/-- An operation at another pipe. -/
theorem NoLostWakeup.other (h : NoLostWakeup hw k s i) {k₁ : Kernel} {s₁ : QueueId → List PcbPtr}
    (hj : i ≠ j) (hp : k₁.pipe i = k.pipe i)
    (hs : ∀ v : WaitList, v.slot = i → s₁ (.wait v) = s (.wait v)) (hd : Drain hw j k₁ s₁ k' s') :
    NoLostWakeup hw k' s' i :=
  have hother := hd.other hj
  h.congr (hother.1.trans hp) fun v hv => (hother.2 v hv).trans (hs v hv)

/-- Both halves of the invariant. -/
structure WakeInv (hw : Hardware) (k : Kernel) (s : QueueId → List PcbPtr) (i : Nat) : Prop where
  lengths : PipeLengths k s i
  noLost : NoLostWakeup hw k s i

theorem WakeInv.read (hi : WakeInv hw k s i) (h : ShapeInv hw k s) (hv : PipesValid hw k)
    (hfree : ∀ l, k.current_process ∉ s l) (hidle : k.current_process ≠ k.idle_process)
    {id len rc : Int} {buf : BufPtr} (hlen : 0 ≤ len)
    (hrun : syncReadPipe hw k id buf len = some (rc, k')) :
    ∃ s', Coherent k' s' ∧ WakeInv hw k' s' i := by
  have hn := hi.noLost
  cases readPipe_cases h.coherent hv hfree hidle hlen hrun with
  | error => exact ⟨s, h.coherent, hi⟩
  | @blocked j pipe q hp hempty hc =>
    have hmem : ∀ v : WaitList, ∀ n ∈ Function.update s (.wait (.pipeReaders j))
        (s (.wait (.pipeReaders j)) ++ [k.current_process]) (.wait v), n ≠ k.current_process →
        n ∈ s (.wait v) := by
      intro v n hn hne
      by_cases e : v = .pipeReaders j
      · subst e
        simpa [hne] using hn
      · rwa [Function.update_of_ne (by simpa using e)] at hn
    refine ⟨_, hc, hi.lengths.touch (fun q hq => by simp [readBlocked, hq]) (fun v _ => hmem v)
      (fun _ => by simpa [readBlocked] using hlen) (fun hw' => ?_), ?_⟩
    · rw [Function.update_of_ne (by simp)] at hw'
      exact absurd hw' (hfree _)
    by_cases e : i = j
    · subst e
      intro pipe' hp'
      obtain rfl : pipe = pipe' := Option.some.inj (hp.symm.trans hp')
      rw [Function.update_of_ne (by simp)]
      exact ⟨(hn pipe hp).1, fun _ => hempty⟩
    · refine hn.congr rfl fun v hv => Function.update_of_ne ?_ _ _
      rintro he
      obtain rfl : v = .pipeReaders j := by simpa using he
      exact e hv.symm
  | @taken j m n pipe k' hp hne hm hdrain =>
    obtain ⟨hc₁, -, hshape₁, hother⟩ := h.readTake hfree hp buf len
    have hvalid₁ := hv.readTake hp hlen hother
    rw [readTake_eq hm] at hc₁ hshape₁ hvalid₁
    have hlengths₁ : PipeLengths (readNow hw k j pipe buf len m) s i :=
      hi.lengths.touch (fun q hq => by simp [readNow, hq]) (fun v _ q hq _ => hq)
        (fun hr => absurd hr (hfree _)) fun hr => absurd hr (hfree _)
    by_cases e : i = j
    · subst e
      have hr : s (.wait (.pipeReaders i)) = [] := by
        by_contra hr
        exact hne ((hn pipe hp).2 hr)
      obtain ⟨s', hd, hn'⟩ :=
        drainWriters_full n _ s ⟨hc₁, hshape₁ i, hvalid₁, hlengths₁⟩ hr k' hdrain
      exact ⟨s', hd.coherent hc₁, hlengths₁.drain (hshape₁ i) hc₁ hd, hn'⟩
    · obtain ⟨s', hd, -⟩ := (drain_steps n _ s hc₁).1 k' hdrain
      refine ⟨s', hd.coherent hc₁, hlengths₁.drain (hshape₁ j) hc₁ hd,
        hn.other e ?_ (fun _ _ => rfl) hd⟩
      simp [Kernel.pipe, readNow, Kernel.setObject, e]

/-- The bytes in the buffer after the caller has put its first `m` bytes. -/
theorem bytes_writeNow {pipe : Pipe} {buf : BufPtr} {len : Int} {m : Nat} {pcb : Pcb}
    {q : Heap QueueId PcbPtr} (hp : k.pipe i = some pipe) :
    ∃ pipe', (writeNow hw k i pipe buf len m pcb q).pipe i = some pipe' ∧
      pipe'.bytes_in_buffer = pipe.bytes_in_buffer + m :=
  ⟨_, pipe_setObject hp _, by simp⟩

/-- A write after which the caller waits. -/
theorem PipeLengths.writeBlocked (h : PipeLengths k s i) (hfree : ∀ l, k.current_process ∉ s l)
    {pipe : Pipe} {buf : BufPtr} {len : Int} {m : Nat} {q : Heap QueueId PcbPtr} (hlt : (m : Int) < len) :
    PipeLengths (writeNow hw k j pipe buf len m (pcbBlockedWrite (k.pcb k.current_process) j buf len m) q)
      (Function.update s (.wait (.pipeWriters j)) (s (.wait (.pipeWriters j)) ++ [k.current_process])) i := by
  refine h.touch (p := k.current_process) (fun q hq => by simp [writeNow, hq]) (fun v _ n hn hne => ?_)
    (fun hr => ?_) fun _ => by simpa [writeNow, pcbBlockedWrite] using hlt
  · by_cases e : v = .pipeWriters j
    · subst e
      simpa [hne] using hn
    · rwa [Function.update_of_ne (by simpa using e)] at hn
  · rw [Function.update_of_ne (by simp)] at hr
    exact absurd hr (hfree _)

theorem WakeInv.write (hi : WakeInv hw k s i) (h : ShapeInv hw k s) (hv : PipesValid hw k)
    (hfree : ∀ l, k.current_process ∉ s l) (hidle : k.current_process ≠ k.idle_process)
    {id len rc : Int} {buf : BufPtr} (hlive : k.kbufFreed buf = false)
    (hfits : WriteFits hw i k (.call k.current_process (.writePipe id buf len)))
    (hrun : syncWritePipe hw k id buf len = some (rc, k')) :
    ∃ s', Coherent k' s' ∧ WakeInv hw k' s' i := by
  have hN := hw.pipe_pos
  have hn := hi.noLost
  cases writePipe_cases h.coherent hfree hidle hrun with
  | error hno => exact ⟨s, h.coherent, hi⟩
  | @blocked j m n pipe q k₁ k' hopen hp hm hlt hk₁ hc hdrain =>
    obtain ⟨-, hshape₁, -⟩ := h.writeBlocked hfree hp hlive hk₁ hc
    have hvalid₁ : PipesValid hw k₁ := hk₁ ▸ hv.writeNow hp hm
    have hlengths₁ : PipeLengths k₁ (Function.update s (.wait (.pipeWriters j))
        (s (.wait (.pipeWriters j)) ++ [k.current_process])) i := by
      rw [hk₁]
      exact hi.lengths.writeBlocked hfree hlt
    by_cases e : i = j
    · subst e
      obtain ⟨pipe', hp', hbytes⟩ := bytes_writeNow hp
      rw [← hk₁] at hp'
      have := (hv i pipe hp).le
      by_cases hr : s (.wait (.pipeReaders i)) = []
      · obtain rfl := hc.drainReaders_nil (by simpa using hr) hdrain
        refine ⟨_, hc, hlengths₁, fun pipe₁ hp₁ => ⟨fun _ => ?_, fun hne => absurd hr (by simpa using hne)⟩⟩
        obtain rfl : pipe' = pipe₁ := Option.some.inj (hp'.symm.trans hp₁)
        omega
      · -- the buffer was empty, and nobody else writes
        have hzero := (hn pipe hp).2 hr
        have hnil : s (.wait (.pipeWriters i)) = [] := by
          by_contra hne
          have := (hn pipe hp).1 hne
          omega
        have hcurr : k₁.pcb k.current_process =
            pcbBlockedWrite (k.pcb k.current_process) i buf len m := by
          rw [hk₁]
          simp [writeNow]
        have hreq : requests k₁ (Function.update s (.wait (.pipeWriters i))
            (s (.wait (.pipeWriters i)) ++ [k.current_process])) i = requests k s i := by
          unfold requests
          rw [Function.update_of_ne (by simp)]
          refine List.map_congr_left fun x hx => ?_
          have hne : x ≠ k.current_process := fun e => hfree _ (e ▸ hx)
          rw [hk₁]
          simp [writeNow, hne]
        have hfit : Fits hw k₁ k.current_process
            (refills hw.PIPE_BUFFER_LEN hw.PIPE_BUFFER_LEN (requests k s i)) := by
          unfold Fits
          rw [hcurr]
          show len - m ≤ _ ∨ _
          have hfits := hfits (i, len) rfl rfl
          have hk : k.requests i = requests k s i := by
            rw [Kernel.requests, h.coherent.queue_eq, requests]
          rw [hk] at hfits
          rcases hfits with hfits | hfits
          · rw [mul_add, mul_one] at hfits
            exact Or.inl (by omega)
          · exact Or.inr hfits
        rw [← hreq] at hfit
        obtain ⟨s', hd, hn'⟩ := (drain_fits n k₁ _ ⟨hc, hshape₁ i, hvalid₁, hlengths₁⟩ k.current_process
          pipe' (by simp [hnil]) hp' k').1 hw.PIPE_BUFFER_LEN (by omega) hN hfit hdrain
        exact ⟨s', hd.coherent hc, hlengths₁.drain (hshape₁ i) hc hd, hn'⟩
    · obtain ⟨s', hd, -⟩ := (drain_steps n _ _ hc).2 k' hdrain
      refine ⟨s', hd.coherent hc, hlengths₁.drain (hshape₁ j) hc hd,
        hn.other e ?_ (fun v hv => Function.update_of_ne ?_ _ _) hd⟩
      · rw [hk₁]
        simp [Kernel.pipe, writeNow, Kernel.setObject, e]
      · rintro he
        obtain rfl : v = .pipeWriters j := by simpa using he
        exact e hv.symm
  | @done j m n pipe k₁ k' hopen hp hm hlt hk₁ hdrain =>
    subst hk₁
    obtain ⟨hc₁, -, hshape₁, -⟩ := h.writeDone hfree hp buf len m
    have hvalid₁ : PipesValid hw (writeNow hw k j pipe buf len m
      (pcbDoneWrite (k.pcb k.current_process) len m) k.queues) := hv.writeNow hp hm
    have hlengths₁ : PipeLengths (writeNow hw k j pipe buf len m
        (pcbDoneWrite (k.pcb k.current_process) len m) k.queues) s i :=
      hi.lengths.touch (fun q hq => by simp [writeNow, hq]) (fun v _ q hq _ => hq)
        (fun hr => absurd hr (hfree _)) fun hr => absurd hr (hfree _)
    obtain ⟨s', hd, hdr⟩ := (drain_steps n _ s hc₁).2 k' hdrain
    refine ⟨s', hd.coherent hc₁, hlengths₁.drain (hshape₁ j) hc₁ hd, ?_⟩
    by_cases e : i = j
    · subst e
      obtain ⟨pipe', hp', hbytes⟩ : ∃ pipe', (writeNow hw k i pipe buf len m
          (pcbDoneWrite (k.pcb k.current_process) len m) k.queues).pipe i = some pipe' ∧
          pipe'.bytes_in_buffer = pipe.bytes_in_buffer + m := bytes_writeNow hp
      by_cases hr : s (.wait (.pipeReaders i)) = []
      · obtain rfl := hc₁.drainReaders_nil hr hdrain
        have hs' : s' = s := (hd.coherent hc₁).queue_eq.symm.trans hc₁.queue_eq
        rw [hs']
        refine fun pipe₁ hp₁ => ⟨fun hne => ?_, fun hne => absurd hr hne⟩
        obtain rfl : pipe' = pipe₁ := Option.some.inj (hp'.symm.trans hp₁)
        have := (hn pipe hp).1 hne
        omega
      · have hzero := (hn pipe hp).2 hr
        have hnil : s (.wait (.pipeWriters i)) = [] := by
          by_contra hne
          have := (hn pipe hp).1 hne
          omega
        have hinv₁ : DrainInv hw _ s i := ⟨hc₁, hshape₁ i, hvalid₁, hlengths₁⟩
        exact (hinv₁.drain hd).noLost_of_drained (hd.nil hnil) hdr
    · refine hn.other e ?_ (fun _ _ => rfl) hd
      simp [Kernel.pipe, writeNow, Kernel.setObject, e]

/-- Nobody waits at a pipe that is not there. -/
theorem SyncTable.pipeWaiters_nil (h : SyncTable k s) {v : WaitList} (hv : v.type = .pipe)
    (hnone : k.pipe v.slot = none) : s (.wait v) = [] := by
  refine List.eq_nil_iff_forall_not_mem.2 fun p hp => ?_
  obtain ⟨o, ho, hfit⟩ := h.fits v p hp
  rw [Kernel.pipe, ho] at hnone
  cases v with
  | lockWaiters => cases hv
  | cvarWaiters => cases hv
  | _ =>
    cases hobj : o.object with
    | pipe => simp [hobj, SyncObject.asPipe] at hnone
    | _ => simp [hobj, WaitList.Fits] at hfit

/-- What leaves the pipes and their wait lists alone. -/
theorem WakeInv.frame (hi : WakeInv hw k s i) (ht : SyncTable k s) (hf : PipeFrame k k')
    (hs : ∀ v : WaitList, v.type = .pipe → s' (.wait v) = s (.wait v)) : WakeInv hw k' s' i := by
  have hrequest : ∀ n, (k'.pcb n).pipe_len = (k.pcb n).pipe_len ∧
      (k'.pcb n).write_loc = (k.pcb n).write_loc := fun n => by
    have h := hf.request n
    simp only [Pcb.request, Prod.mk.injEq] at h
    exact h.2
  refine ⟨⟨fun r hr => ?_, fun w hw' => ?_⟩, fun pipe hp => ?_⟩
  · rw [hs (.pipeReaders i) rfl] at hr
    rw [(hrequest r).1]
    exact hi.lengths.reader r hr
  · rw [hs (.pipeWriters i) rfl] at hw'
    rw [(hrequest w).1, (hrequest w).2]
    exact hi.lengths.writer w hw'
  · rw [hs (.pipeWriters i) rfl, hs (.pipeReaders i) rfl]
    rcases hf.pipe i with hold | ⟨hnone, -⟩
    · exact hi.noLost pipe (hold ▸ hp)
    · have hreaders := ht.pipeWaiters_nil (v := .pipeReaders i) rfl hnone
      have hwriters := ht.pipeWaiters_nil (v := .pipeWriters i) rfl hnone
      exact ⟨fun hne => absurd hwriters hne, fun hne => absurd hreaders hne⟩

/-- One event. -/
theorem WakeInv.step (hi : WakeInv hw k s i) (h : ShapeInv hw k s) (hv : PipesValid hw k)
    (hlive : ∀ b, k.kbufFreed b = false) {e : SyncEvent} (hen : (syncMachine hw).enabled k e)
    (hlen : ReadsNonneg e) (hfits : WriteFits hw i k e)
    (hstep : (syncMachine hw).step k e = some k') : ∃ s', Coherent k' s' ∧ WakeInv hw k' s' i := by
  cases e with
  | schedule caller =>
    obtain ⟨s', h', hf, hs⟩ := h.schedule hstep
    exact ⟨s', h'.coherent, hi.frame h.table hf fun v _ => hs v⟩
  | store buf bytes =>
    obtain rfl := Option.some.inj hstep
    exact ⟨s, h.coherent.congr rfl rfl fun _ => rfl, ⟨hi.lengths.reader, hi.lengths.writer⟩, hi.noLost⟩
  | call p c =>
    obtain ⟨⟨rc, k₁⟩, hrun, rfl⟩ := Option.map_eq_some_iff.1 hstep
    obtain ⟨hfree, hidle⟩ := hen
    have hfree := h.coherent.offQueues_iff.1 hfree
    have hp := h.setCurrent p
    have hv : PipesValid hw { k with current_process := p } := hv
    have hi : WakeInv hw { k with current_process := p } s i :=
      ⟨⟨hi.lengths.reader, hi.lengths.writer⟩, hi.noLost⟩
    cases c with
    | readPipe id buf len => exact hi.read hp hv hfree hidle (hlen (id, len) rfl) hrun
    | writePipe id buf len => exact hi.write hp hv hfree hidle (hlive buf) hfits hrun
    | _ =>
      obtain ⟨s', h', hf, hs⟩ := hp.other hfree hidle rfl hrun
      exact ⟨s', h'.coherent, hi.frame hp.table hf hs⟩

/-! ## The run -/

/-- No lost wake-up, over every run whose writes on the pipe fit: writers wait for a full buffer, and
never while a reader waits. -/
theorem no_lost_wakeup (h₀ : SyncStart k₀) {t : List (Kernel × SyncEvent)}
    (hrun : Run (syncMachine hw) (fun k e => ReadsNonneg e ∧ WriteFits hw i k e) k₀ t k)
    {pipe : Pipe} (hp : k.pipe i = some pipe) :
    (k.queue (.wait (.pipeWriters i)) ≠ [] → pipe.bytes_in_buffer = hw.PIPE_BUFFER_LEN) ∧
    ¬ (k.queue (.wait (.pipeReaders i)) ≠ [] ∧ k.queue (.wait (.pipeWriters i)) ≠ []) := by
  have hstart : WakeInv hw k₀ k₀.queue i := by
    refine ⟨⟨fun r hr => ?_, fun w hw' => ?_⟩, fun pipe hp => by simp [Kernel.pipe, h₀.noObject i] at hp⟩
    · simp [h₀.noWaiter] at hr
    · simp [h₀.noWaiter] at hw'
  obtain ⟨s, hinv, -, -, hi⟩ := hrun.invariant
    (I := fun k => ∃ s, ShapeInv hw k s ∧ (∀ b, k.kbufFreed b = false) ∧ PipesValid hw k ∧ WakeInv hw k s i)
    ⟨_, h₀.shapeInv, h₀.noneFreed, fun j pipe hp => by simp [Kernel.pipe, h₀.noObject j] at hp, hstart⟩ (by
      rintro k e k' ⟨s, hinv, hlive, hv, hi⟩ hen ⟨hlen, hfits⟩ hstep
      have hforward : ReadsForward k e := fun a ha _ hneg => absurd (hlen a ha) (by omega)
      obtain ⟨s', hinv', hfreed⟩ := hinv.step hlive hen hstep
      obtain ⟨s₁, hc₁, hi'⟩ := hi.step hinv hv hlive hen hlen hfits hstep
      obtain rfl : s₁ = s' := hc₁.queue_eq.symm.trans hinv'.coherent.queue_eq
      exact ⟨s₁, hinv', fun b => hfreed ▸ hlive b, hv.step hinv hlive hen hforward hstep, hi'⟩)
  rw [hinv.coherent.queue_eq]
  obtain ⟨hw', hr⟩ := hi.noLost pipe hp
  refine ⟨hw', fun hboth => ?_⟩
  obtain ⟨h1, h2⟩ := hboth
  have := hw.pipe_pos
  have := hw' h2
  have := hr h1
  omega

/-- The process `103` writes three bytes and waits, while nobody reads. -/
def fullEvents : List SyncEvent :=
  [.call 102 (.initPipe 8 true fun _ => 0), .call 103 (.writePipe 0 1 3)]

def fullEventsKernel : Kernel :=
  ((syncMachine .small).exec Boot.smallProcesses fullEvents).get (by decide)

theorem fullEvents_run : Run (syncMachine .small)
    (fun k e => ReadsNonneg e ∧ WriteFits .small 0 k e) Boot.smallProcesses
    ((syncMachine .small).trace Boot.smallProcesses fullEvents) fullEventsKernel :=
  Boot.smallProcesses_syncStart.shapeExec (Option.some_get _).symm (by decide +kernel)

theorem no_lost_wakeup_small : (fullEventsKernel.pipe 0).map Pipe.bytes_in_buffer = some 2 := by
  obtain ⟨pipe, hp⟩ : ∃ pipe, fullEventsKernel.pipe 0 = some pipe :=
    Option.isSome_iff_exists.1 (by decide)
  have hwriters : fullEventsKernel.queue (.wait (.pipeWriters 0)) ≠ [] := by decide
  have hfull := (no_lost_wakeup Boot.smallProcesses_syncStart fullEvents_run hp).1 hwriters
  rw [hp, Option.map_some, hfull]
  rfl

/-- Without the condition: the reader that waits takes two bytes of three, and the writer stays blocked
at an empty buffer. -/
theorem no_lost_wakeup_fails : ¬ ∀ (hw : Hardware) (k₀ k : Kernel) (t : List (Kernel × SyncEvent))
    (i : Nat) (pipe : Pipe), SyncStart k₀ → Run (syncMachine hw) PipeCall k₀ t k →
    k.pipe i = some pipe → k.queue (.wait (.pipeWriters i)) ≠ [] →
    pipe.bytes_in_buffer = hw.PIPE_BUFFER_LEN := by
  intro h
  obtain ⟨pipe, hp⟩ : ∃ pipe, pipeEventsKernel.pipe 0 = some pipe :=
    Option.isSome_iff_exists.1 (by decide)
  have hwriters : pipeEventsKernel.queue (.wait (.pipeWriters 0)) ≠ [] := by decide
  have hfull := h .small _ _ _ 0 pipe Boot.smallProcesses_syncStart pipeEvents_run hp hwriters
  have hempty : (pipeEventsKernel.pipe 0).map Pipe.bytes_in_buffer = some 0 := by decide
  rw [hp, Option.map_some, hfull] at hempty
  revert hempty
  decide

end Yalnix
