import Yalnix.Blocking
import Yalnix.Proofs.DrainRun
import Yalnix.Proofs.PipeWakeup

/-!
# How much a drain takes

The waiting readers need a number of refills that their requests alone decide, and the writers are all
done when that many fillings take what they have left.
-/

namespace Yalnix

open Intrusive

variable {hw : Hardware} {k k' : Kernel} {s s' : QueueId → List PcbPtr} {i : Nat}

/-! ## The steps by their lists -/

section Woken

variable {v u : WaitList} {p q : PcbPtr} {xs ys : List PcbPtr}

theorem woken_ne_self (hs : s (.wait v) = p :: xs) : woken s v p xs ≠ s := by
  intro e
  have hxs : woken s v p xs (.wait v) = s (.wait v) := by rw [e]
  rw [woken_self, hs] at hxs
  simp at hxs

theorem woken_ne_woken (hs : s (.wait v) = p :: xs) (hne : v ≠ u) : woken s v p xs ≠ woken s u q ys := by
  intro e
  have hxs : woken s v p xs (.wait v) = woken s u q ys (.wait v) := by rw [e]
  rw [woken_self, woken_ne hne, hs] at hxs
  simp at hxs

end Woken

/-- A step that takes the first reader off its list serves it. -/
theorem DrainStep.served {r : PcbPtr} {xs : List PcbPtr} (hstep : DrainStep hw i k s k' s')
    (hs' : s' = woken s (.pipeReaders i) r xs) (h : PipeShape hw k s i)
    (hs : s (.wait (.pipeReaders i)) = r :: xs) {pipe : Pipe} (hp : k.pipe i = some pipe) :
    ∃ out pcb, AtPipe i r k k' pcb (pipe.drop hw (takes k r pipe).toNat) (.delivered i r out) := by
  cases hstep.cases h with
  | @serve r₁ ys pipe₁ out hr hp₁ hpos hout hat =>
    obtain ⟨rfl, rfl⟩ : r = r₁ ∧ xs = ys := by simpa using hs.symm.trans hr
    obtain rfl : pipe = pipe₁ := Option.some.inj (hp.symm.trans hp₁)
    exact ⟨out, _, hat⟩
  | finish hs₁ => exact absurd hs' (woken_ne_woken hs₁ (by simp))
  | refill => exact absurd hs'.symm (woken_ne_self hs)

/-- A step that takes the first writer off its list finishes it. -/
theorem DrainStep.finished {w : PcbPtr} {xs : List PcbPtr} (hstep : DrainStep hw i k s k' s')
    (hs' : s' = woken s (.pipeWriters i) w xs) (h : PipeShape hw k s i)
    (hs : s (.wait (.pipeWriters i)) = w :: xs) {pipe : Pipe} (hp : k.pipe i = some pipe) :
    ∃ out pcb, out.length = pours hw k w pipe ∧
      (k.pcb w).pipe_len ≤ (k.pcb w).write_loc + pours hw k w pipe ∧
      AtPipe i w k k' pcb (pipe.putAll hw out) (.accepted i w out) := by
  cases hstep.cases h with
  | serve hr => exact absurd hs' (woken_ne_woken hr (by simp))
  | @finish w₁ ys pipe₁ out hs₁ hp₁ hout hdone hat =>
    obtain ⟨rfl, rfl⟩ : w = w₁ ∧ xs = ys := by simpa using hs.symm.trans hs₁
    obtain rfl : pipe = pipe₁ := Option.some.inj (hp.symm.trans hp₁)
    exact ⟨out, _, hout, hdone, hat⟩
  | refill => exact absurd hs'.symm (woken_ne_self hs)

/-- A step that leaves the lists refills the buffer. -/
theorem DrainStep.refilled (hstep : DrainStep hw i k s k' s') (hs' : s' = s) (h : PipeShape hw k s i)
    {w : PcbPtr} {xs : List PcbPtr} (hs : s (.wait (.pipeWriters i)) = w :: xs) {pipe : Pipe}
    (hp : k.pipe i = some pipe) : ∃ out, out.length = pours hw k w pipe ∧
      (k.pcb w).write_loc + pours hw k w pipe < (k.pcb w).pipe_len ∧
      AtPipe i w k k' { k.pcb w with write_loc := (k.pcb w).write_loc + pours hw k w pipe }
        (pipe.putAll hw out) (.accepted i w out) := by
  cases hstep.cases h with
  | serve hr => exact absurd hs' (woken_ne_self hr)
  | finish hs₁ => exact absurd hs' (woken_ne_self hs₁)
  | @refill w₁ ys pipe₁ out hs₁ hp₁ hout hleft hat =>
    obtain ⟨rfl, rfl⟩ : w = w₁ ∧ xs = ys := by simpa using hs.symm.trans hs₁
    obtain rfl : pipe = pipe₁ := Option.some.inj (hp.symm.trans hp₁)
    exact ⟨out, hout, hleft, hat⟩

/-! ## What the writers have left -/

/-- What the waiting writers have left, read off the sequences. -/
def pending (k : Kernel) (s : QueueId → List PcbPtr) (i : Nat) : Nat :=
  ((s (.wait (.pipeWriters i))).map fun w => (k.pcb w).left).sum

theorem pending_nil (hs : s (.wait (.pipeWriters i)) = []) : pending k s i = 0 := by
  simp [pending, hs]

theorem pending_cons {w : PcbPtr} {xs : List PcbPtr} (hs : s (.wait (.pipeWriters i)) = w :: xs) :
    pending k s i = (k.pcb w).left + (xs.map fun w => (k.pcb w).left).sum := by
  simp [pending, hs]

theorem map_left_congr {xs : List PcbPtr} (h : ∀ w ∈ xs, k'.pcb w = k.pcb w) :
    (xs.map fun w => (k'.pcb w).left) = xs.map fun w => (k.pcb w).left :=
  List.map_congr_left fun w hw => by rw [h w hw]

theorem pending_congr (hs : s' (.wait (.pipeWriters i)) = s (.wait (.pipeWriters i)))
    (h : ∀ w ∈ s (.wait (.pipeWriters i)), k'.pcb w = k.pcb w) : pending k' s' i = pending k s i := by
  rw [pending, hs, map_left_congr h, pending]

theorem requests_congr (hs : s' (.wait (.pipeReaders i)) = s (.wait (.pipeReaders i)))
    (h : ∀ r ∈ s (.wait (.pipeReaders i)), k'.pcb r = k.pcb r) : requests k' s' i = requests k s i := by
  rw [requests, hs, requests]
  exact List.map_congr_left fun r hr => by rw [h r hr]

/-- A writer that leaves takes what it had left with it. -/
theorem pending_finish (hc : Coherent k s) {w : PcbPtr} {xs : List PcbPtr}
    (hs : s (.wait (.pipeWriters i)) = w :: xs) (hne : ∀ q, q ≠ w → k'.pcb q = k.pcb q) :
    pending k s i = (k.pcb w).left + pending k' (woken s (.pipeWriters i) w xs) i := by
  rw [pending_cons hs, pending, woken_self]
  refine congrArg _ (congrArg _ (map_left_congr fun q hq => hne q ?_)).symm
  exact ne_of_mem_woken hc hs (v := .pipeWriters i) (by simpa using hq)

/-- A writer that goes on has `m` bytes less left. -/
theorem pending_refill (hc : Coherent k s) {w : PcbPtr} {xs : List PcbPtr} {m : Nat}
    (hs : s (.wait (.pipeWriters i)) = w :: xs) (hne : ∀ q, q ≠ w → k'.pcb q = k.pcb q)
    (hw' : (k.pcb w).left = (k'.pcb w).left + m) : pending k s i = pending k' s i + m := by
  have hsame : (xs.map fun w => (k'.pcb w).left) = xs.map fun w => (k.pcb w).left :=
    map_left_congr fun q hq => hne q
      (ne_of_mem_woken hc hs (v := .pipeWriters i) (by simpa using hq))
  rw [pending_cons hs, pending_cons hs, hsame, hw']
  omega

theorem queue_ne_nil_of_pending (hc : Coherent k s) (h : 0 < pending k s i) :
    k.queue (.wait (.pipeWriters i)) ≠ [] := by
  rw [hc.queue_eq]
  intro hs
  rw [pending_nil hs] at h
  omega

/-! ## The loops -/

/-- From a buffer with `free` places free, the writers are all done when these and the refills take what
they have left; from one with `avail` bytes, the refills must. -/
theorem drain_uses (n : Nat) : ∀ k s, Coherent k s → PipeShape hw k s i →
    ∀ pipe, k.pipe i = some pipe → ∀ k',
    (∀ free : Nat, pipe.bytes_in_buffer + free = hw.PIPE_BUFFER_LEN → s (.wait (.pipeReaders i)) ≠ [] →
      syncDrainWriters hw n k i = some k' ∨
        (pipe.bytes_in_buffer = 0 ∧ syncDrainReaders hw n k i = some k') →
      (k'.queue (.wait (.pipeWriters i)) = [] ↔ pending k s i ≤ free +
        hw.PIPE_BUFFER_LEN * (refills hw.PIPE_BUFFER_LEN hw.PIPE_BUFFER_LEN (requests k s i)).1)) ∧
    (∀ avail : Nat, pipe.bytes_in_buffer = avail → 0 < avail → 0 < pending k s i →
      syncDrainReaders hw n k i = some k' →
      (k'.queue (.wait (.pipeWriters i)) = [] ↔ pending k s i ≤
        hw.PIPE_BUFFER_LEN * (refills hw.PIPE_BUFFER_LEN avail (requests k s i)).1)) := by
  induction n with
  | zero => exact fun k s _ _ pipe _ k' =>
      ⟨fun _ _ _ h => (by rcases h with h | ⟨-, h⟩ <;> cases h), fun _ _ _ _ h => (by cases h)⟩
  | succ n ih =>
    intro k s hc h pipe hp k'
    have hne : ∀ r w, r ∈ s (.wait (.pipeReaders i)) → w ∈ s (.wait (.pipeWriters i)) → r ≠ w := by
      rintro r w hr hw rfl
      have := hc.unique hr hw
      simp at this
    constructor
    · rintro free hfree hr (hrun | ⟨hzero, hrun⟩)
      · cases hs : s (.wait (.pipeWriters i)) with
        | nil =>
          obtain ⟨s', hd, -⟩ := (drain_steps _ _ s hc).1 k' hrun
          rw [(hd.coherent hc).queue_eq, hd.nil hs, pending_nil hs]
          exact iff_of_true rfl (Nat.zero_le _)
        | cons w xs =>
          have hmem : w ∈ s (.wait (.pipeWriters i)) := by simp [hs]
          rcases writersTurn_cons hc h hs hp with ⟨k₁, hstep, hturn⟩ |
            ⟨k₁, pipe₁, hstep, hp₁, hpos, hturn⟩
          · -- `w` is done, and the next one goes on
            obtain ⟨out, pcb, hout, hdone, hat⟩ := hstep.finished rfl h hs hp
            have hreaders : woken s (.pipeWriters i) w xs (.wait (.pipeReaders i)) =
                s (.wait (.pipeReaders i)) := woken_ne (by simp)
            have hreq : requests k₁ (woken s (.pipeWriters i) w xs) i = requests k s i :=
              requests_congr hreaders fun r hr => hat.others r (hne r w hr hmem)
            have hpours : pours hw k w pipe = (k.pcb w).left ∧ (k.pcb w).left ≤ free := by
              unfold pours Pcb.left at *
              omega
            rw [hturn n] at hrun
            have hiff := (ih k₁ _ hstep.coherent (h.drainStep h hc hstep) _ hat.object k').1
              (free - (k.pcb w).left) (by rw [putAll_bytes]; omega) (by rwa [hreaders]) (Or.inl hrun)
            rw [hiff, hreq, pending_finish hc hs hat.others]
            omega
          · -- the buffer is full
            obtain ⟨out, hout, hleft, hat⟩ := hstep.refilled rfl h hs hp
            obtain rfl := Option.some.inj (hat.object.symm.trans hp₁)
            have hreq : requests k₁ s i = requests k s i :=
              requests_congr rfl fun r hr => hat.others r (hne r w hr hmem)
            have hpours : pours hw k w pipe = free := by
              unfold pours at *
              omega
            have hw₁ : (k.pcb w).left = (k₁.pcb w).left + free := by
              rw [hat.pcb]
              unfold Pcb.left
              simp only
              omega
            have hpend := pending_refill hc hs hat.others hw₁
            have hpos₁ : 0 < pending k₁ s i := by
              have hcons := pending_cons (k := k₁) hs
              have : 0 < (k₁.pcb w).left := by
                rw [hat.pcb]
                unfold Pcb.left
                simp only
                omega
              omega
            rw [hturn n, if_pos hr] at hrun
            have hiff := (ih k₁ s hstep.coherent (h.drainStep h hc hstep) _ hat.object k').2
              hw.PIPE_BUFFER_LEN (by rw [putAll_bytes]; omega) hw.pipe_pos hpos₁ hrun
            rw [hiff, hreq, hpend]
            omega
      · rw [readersTurn_empty hc hr hp (by omega) n] at hrun
        exact (ih k s hc h pipe hp k').1 free hfree hr (Or.inl hrun)
    · intro avail hbytes hpos hpend hrun
      cases hs : s (.wait (.pipeReaders i)) with
      | nil =>
        rw [readersTurn_nil hc hs hp n] at hrun
        obtain rfl := Option.some.inj hrun
        refine iff_of_false (queue_ne_nil_of_pending hc hpend) ?_
        simp only [requests, hs, List.map_nil, refills]
        omega
      | cons r xs =>
        have hmem : r ∈ s (.wait (.pipeReaders i)) := by simp [hs]
        obtain ⟨k₁, hstep, hturn⟩ := readersTurn_cons hc h hs hp (by omega)
        obtain ⟨out, pcb, hat⟩ := hstep.served rfl h hs hp
        have hpend₁ : pending k₁ (woken s (.pipeReaders i) r xs) i = pending k s i :=
          pending_congr (woken_ne (by simp)) fun w hw => hat.others w (hne r w hmem hw).symm
        have hreq : requests k s i =
            (k.pcb r).pipe_len.toNat :: requests k₁ (woken s (.pipeReaders i) r xs) i := by
          unfold requests
          rw [hs, List.map_cons, woken_self]
          refine congrArg _ (List.map_congr_left fun x hx => ?_)
          rw [hat.others x (ne_of_mem_woken hc hs (v := .pipeReaders i) (by simpa using hx))]
        have hbytes₁ : (pipe.drop hw (takes k r pipe).toNat).bytes_in_buffer =
            (avail - (k.pcb r).pipe_len.toNat : Nat) := by
          show pipe.bytes_in_buffer - ((takes k r pipe).toNat : Int) = _
          unfold takes
          omega
        rw [hturn n] at hrun
        obtain ⟨ih1, ih2⟩ := ih k₁ _ hstep.coherent (h.drainStep h hc hstep) _ hat.object k'
        by_cases hlt : (k.pcb r).pipe_len.toNat < avail
        · rw [hreq, refills_of_lt hlt, ← hpend₁]
          exact ih2 _ hbytes₁ (by omega) (by omega) hrun
        · cases hxs : xs with
          | nil =>
            -- nobody waits any more, and the writers stay
            have hnil : woken s (.pipeReaders i) r xs (.wait (.pipeReaders i)) = [] := by
              rw [woken_self, hxs]
            obtain rfl := hstep.coherent.drainReaders_nil hnil hrun
            refine iff_of_false (queue_ne_nil_of_pending hstep.coherent (by omega)) ?_
            rw [hreq, requests, hnil, List.map_nil, refills.eq_def]
            simp only [if_neg hlt]
            omega
          | cons r' xs' =>
            have hne₁ : woken s (.pipeReaders i) r xs (.wait (.pipeReaders i)) ≠ [] := by
              rw [woken_self, hxs]
              simp
            obtain ⟨a, as, hreq'⟩ : ∃ a as, requests k₁ (woken s (.pipeReaders i) r xs) i = a :: as := by
              simp [requests, hxs]
            have hiff := ih1 hw.PIPE_BUFFER_LEN (by omega) hne₁ (Or.inr ⟨by omega, hrun⟩)
            rw [hiff, hreq, hreq', refills_of_ge hlt, ← hreq', hpend₁, mul_add, mul_one]
            omega

end Yalnix
