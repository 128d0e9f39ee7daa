import Yalnix.ReadOrder
import Yalnix.Proofs.RingRun

/-!
# Reads in order

A new read cannot overtake one that waits, because who waits does so at an empty buffer; the drain loops
serve from the head of the line.
-/

namespace Yalnix

open Intrusive Transition

variable {hw : Hardware} {k k' k₀ : Kernel} {s s' : QueueId → List PcbPtr} {i j : Nat}
  {h evs : List PipeEvent}

/-! ## The history -/

theorem reads_append : reads i (h ++ evs) = reads i h ++ reads i evs := List.flatMap_append

theorem served_append : served i (h ++ evs) = served i h ++ served i evs := List.flatMap_append

theorem available_append : available i (h ++ evs) = available i h + available i evs := by
  unfold available
  rw [acceptedBytes_append, deliveredBytes_append, List.length_append, List.length_append]
  omega

/-- Events at other pipes. -/
theorem reads_other (hevs : ∀ e ∈ evs, e.slot ≠ i) :
    reads i evs = [] ∧ served i evs = [] ∧ available i evs = 0 := by
  obtain ⟨hacc, hdel, -⟩ := history_other (h := []) hevs
  refine ⟨List.flatMap_eq_nil_iff.2 fun e he => ?_, List.flatMap_eq_nil_iff.2 fun e he => ?_, ?_⟩
  · have := hevs e he
    cases e <;> simp_all [PipeEvent.slot]
  · have := hevs e he
    cases e <;> simp_all [PipeEvent.slot]
  · rw [List.nil_append] at hacc hdel
    unfold available
    rw [hacc, hdel]
    rfl

/-- An event that delivers nothing of the pipe. -/
theorem ServedInOrder.snoc_other {e : PipeEvent} (ho : ServedInOrder i h)
    (he : ∀ r out, e ≠ .delivered i r out) : ServedInOrder i (h ++ [e]) := by
  intro h₁ r out h₂ heq
  rcases List.eq_nil_or_concat h₂ with rfl | ⟨h₃, e', rfl⟩
  · obtain ⟨-, hlast⟩ := List.append_inj' heq rfl
    exact absurd (List.singleton_inj.1 hlast) (he r out)
  · rw [List.concat_eq_append, ← List.cons_append, ← List.append_assoc] at heq
    exact ho h₁ r out h₃ (List.append_inj' heq rfl).1

/-- A delivery to the oldest read that waits. -/
theorem ServedInOrder.snoc {r : PcbPtr} {out : List UInt8} {len : Int} (ho : ServedInOrder i h)
    (hread : (reads i h)[(served i h).length]? = some (r, len))
    (hout : (out.length : Int) = min len (available i h)) :
    ServedInOrder i (h ++ [.delivered i r out]) := by
  intro h₁ r' out' h₂ heq
  rcases List.eq_nil_or_concat h₂ with rfl | ⟨h₃, e', rfl⟩
  · obtain ⟨rfl, hlast⟩ := List.append_inj' heq rfl
    obtain ⟨-, rfl, rfl⟩ := PipeEvent.delivered.inj (List.singleton_inj.1 hlast)
    exact ⟨len, hread, hout⟩
  · rw [List.concat_eq_append, ← List.cons_append, ← List.append_assoc] at heq
    exact ho h₁ r' out' h₃ (List.append_inj' heq rfl).1

/-- Events that deliver nothing of the pipe. -/
theorem ServedInOrder.append (ho : ServedInOrder i h)
    (hevs : ∀ e ∈ evs, ∀ r out, e ≠ .delivered i r out) : ServedInOrder i (h ++ evs) := by
  induction evs generalizing h with
  | nil => simpa using ho
  | cons e evs ih =>
    have hrest := ih (ho.snoc_other (hevs e (by simp))) fun e' he' => hevs e' (by simp [he'])
    simpa using hrest

/-- The first one in line has the oldest read that is not served. -/
theorem ReadsOf.head (hr : ReadsOf i k s) {r : PcbPtr} {xs : List PcbPtr}
    (hs : s (.wait (.pipeReaders i)) = r :: xs) :
    (reads i k.pipeHistory)[(served i k.pipeHistory).length]? = some (r, (k.pcb r).pipe_len) := by
  obtain ⟨done, heq, hlen⟩ := hr
  rw [heq, hs, ← hlen]
  simp

/-! ## What leaves a pipe alone -/

theorem ReadInv.other (hinv : ReadInv k s j) (hp : k'.pipe j = k.pipe j)
    (hhist : k'.pipeHistory = k.pipeHistory ++ evs) (hevs : ∀ e ∈ evs, e.slot ≠ j)
    (hs : s' (.wait (.pipeReaders j)) = s (.wait (.pipeReaders j)))
    (hlen : ∀ r ∈ s (.wait (.pipeReaders j)), (k'.pcb r).pipe_len = (k.pcb r).pipe_len) :
    ReadInv k' s' j := by
  obtain ⟨hreads, hserved, havail⟩ := reads_other hevs
  refine ⟨fun hn e he => ?_, fun pipe hpipe => ?_, ?_, fun r hr => ?_, ?_⟩
  · rw [hhist, List.mem_append] at he
    exact he.elim (hinv.fresh (hp ▸ hn) e) (hevs e)
  · rw [hhist, available_append, havail, hinv.count pipe (hp ▸ hpipe), Int.add_zero]
  · obtain ⟨done, heq, hdone⟩ := hinv.line
    refine ⟨done, ?_, ?_⟩
    · rw [hhist, reads_append, hreads, List.append_nil, heq, hs]
      refine congrArg _ (List.map_congr_left fun r hr => ?_)
      rw [hlen r hr]
    · rw [hhist, served_append, hserved, List.append_nil, hdone]
  · rw [hs] at hr
    rw [hlen r hr]
    exact hinv.nonneg r hr
  · rw [hhist]
    exact hinv.order.append fun e he r out hd => hevs e he (by rw [hd]; rfl)

/-! ## The steps of the drain loops -/

/-- Bytes that a writer puts in. -/
theorem ReadInv.accept (hinv : ReadInv k s i) {pipe new : Pipe} (hp : k.pipe i = some pipe)
    (hnew : k'.pipe i = some new) (hhist : k'.pipeHistory = k.pipeHistory ++ evs)
    (hevs : ∀ e ∈ evs, ∀ r out, e ≠ .delivered i r out) (hreads : Yalnix.reads i evs = [])
    (hserved : served i evs = [])
    (hbytes : new.bytes_in_buffer = pipe.bytes_in_buffer + available i evs)
    (hs : s' (.wait (.pipeReaders i)) = s (.wait (.pipeReaders i)))
    (hlen : ∀ r ∈ s (.wait (.pipeReaders i)), (k'.pcb r).pipe_len = (k.pcb r).pipe_len) :
    ReadInv k' s' i := by
  refine ⟨fun hn => (by rw [hnew] at hn; cases hn), fun pipe' hp' => ?_, ?_, fun r hr => ?_, ?_⟩
  · obtain rfl := Option.some.inj (hnew.symm.trans hp')
    rw [hhist, available_append, hbytes, hinv.count pipe hp]
  · obtain ⟨done, heq, hdone⟩ := hinv.line
    refine ⟨done, ?_, ?_⟩
    · rw [hhist, reads_append, hreads, List.append_nil, heq, hs]
      refine congrArg _ (List.map_congr_left fun r hr => ?_)
      rw [hlen r hr]
    · rw [hhist, served_append, hserved, List.append_nil, hdone]
  · rw [hs] at hr
    rw [hlen r hr]
    exact hinv.nonneg r hr
  · rw [hhist]
    exact hinv.order.append hevs

theorem available_accepted (w : PcbPtr) (out : List UInt8) :
    available i [.accepted i w out] = out.length := by
  simp [available, acceptedBytes, deliveredBytes]

/-- A reader gets as many bytes as it is told. -/
theorem length_served {r : PcbPtr} {pipe : Pipe} {out : List UInt8} (hlen : 0 ≤ (k.pcb r).pipe_len)
    (hpos : pipe.bytes_in_buffer > 0) (hout : out.length = (takes k r pipe).toNat) :
    (out.length : Int) = takes k r pipe := by
  unfold takes at hout ⊢
  omega

/-- Every step serves the first reader or lets a writer put bytes in. -/
theorem ReadInv.drainStep (hinv : ReadInv k s j) (hi : PipeShape hw k s i) (hc : Coherent k s)
    (hstep : DrainStep hw i k s k' s') : ReadInv k' s' j := by
  have hreader : ∀ r w, r ∈ s (.wait (.pipeReaders j)) → w ∈ s (.wait (.pipeWriters i)) → r ≠ w := by
    rintro r w hr hw rfl
    have := hc.unique hr hw
    simp at this
  by_cases e : j = i
  · subst e
    cases hstep.cases hi with
    | @serve r xs pipe out hs hp hpos hout hat =>
      have htakes := length_served (hinv.nonneg r (by simp [hs])) hpos hout
      refine ⟨fun hn => (by rw [hat.object] at hn; cases hn), fun pipe' hp' => ?_, ?_, fun r' hr' => ?_, ?_⟩
      · obtain rfl := Option.some.inj (hat.object.symm.trans hp')
        rw [hat.history, available_append, ← hinv.count pipe hp]
        simp only [Pipe.drop, available, acceptedBytes, deliveredBytes, List.flatMap_cons,
          List.flatMap_nil, List.length_nil, List.append_nil, if_true]
        omega
      · obtain ⟨done, heq, hdone⟩ := hinv.line
        refine ⟨done ++ [(r, (k.pcb r).pipe_len)], ?_, ?_⟩
        · rw [hat.history, reads_append, heq, hs, woken_self]
          simp only [reads, List.flatMap_cons, List.flatMap_nil, List.append_nil, List.map_cons,
            List.append_assoc, List.singleton_append]
          refine congrArg _ (congrArg _ (List.map_congr_left fun r' hr' => ?_))
          rw [hat.others r' (ne_of_mem_woken hc hs (v := .pipeReaders j) (by simpa using hr'))]
        · rw [hat.history, served_append, List.length_append, List.length_append, hdone]
          simp [served]
      · rw [hat.others r' (ne_of_mem_woken hc hs hr')]
        exact hinv.nonneg r' (mem_of_mem_woken hs hr')
      · rw [hat.history]
        refine hinv.order.snoc (hinv.line.head hs) ?_
        rw [htakes, ← hinv.count pipe hp]
        rfl
    | @finish w xs pipe out hs hp hout hdone hat =>
      refine hinv.accept hp hat.object hat.history (by simp) (by simp [Yalnix.reads]) (by simp [served])
        ?_ (woken_ne (by simp)) fun r hr => ?_
      · rw [available_accepted, putAll_bytes]
      · rw [hat.others r (hreader r w hr (by simp [hs]))]
    | @refill w xs pipe out hs hp hout hleft hat =>
      refine hinv.accept hp hat.object hat.history (by simp) (by simp [Yalnix.reads]) (by simp [served])
        ?_ rfl fun r hr => ?_
      · rw [available_accepted, putAll_bytes]
      · rw [hat.others r (hreader r w hr (by simp [hs]))]
  · have hp : k'.pipe j = k.pipe j := by rw [Kernel.pipe, hstep.effect.2 j e, Kernel.pipe]
    have hsame : ∀ {r : PcbPtr} {v : WaitList} {xs : List PcbPtr}, v.slot = i → s (.wait v) = r :: xs →
        ∀ x ∈ s (.wait (.pipeReaders j)), x ≠ r := by
      rintro r v xs hv hs x hx rfl
      have : v = .pipeReaders j := by simpa using hc.unique (show x ∈ s (.wait v) by simp [hs]) hx
      rw [this] at hv
      exact e hv
    have hne : (WaitList.pipeReaders j) ≠ .pipeReaders i := by simpa using e
    cases hstep.cases hi with
    | serve hs hp' hpos hout hat =>
      exact hinv.other hp hat.history (by simp [PipeEvent.slot, Ne.symm e]) (woken_ne hne) fun x hx => by
        rw [hat.others x (hsame (v := .pipeReaders i) rfl hs x hx)]
    | finish hs hp' hout hdone hat =>
      exact hinv.other hp hat.history (by simp [PipeEvent.slot, Ne.symm e]) (woken_ne (by simp)) fun x hx => by
        rw [hat.others x (hsame (v := .pipeWriters i) rfl hs x hx)]
    | refill hs hp' hout hleft hat =>
      exact hinv.other hp hat.history (by simp [PipeEvent.slot, Ne.symm e]) rfl fun x hx => by
        rw [hat.others x (hsame (v := .pipeWriters i) rfl hs x hx)]

theorem ReadInv.drain (hinv : ReadInv k s j) (hi : PipeShape hw k s i) (hc : Coherent k s)
    (hd : Drain hw i k s k' s') : ReadInv k' s' j :=
  (hd.invariant (I := fun k s => Coherent k s ∧ PipeShape hw k s i ∧ ReadInv k s j)
    (fun _ _ _ _ h hstep => ⟨hstep.coherent, h.2.1.drainStep h.2.1 h.1 hstep,
      h.2.2.drainStep h.2.1 h.1 hstep⟩) ⟨hc, hi, hinv⟩).2.2

/-! ## The calls -/

/-- The caller has made the call `e`, and the drain loops at the pipe in slot `i` are about to run. -/
structure CallMade (hw : Hardware) (k : Kernel) (s : QueueId → List PcbPtr) (e : SyncEvent)
    (k₁ : Kernel) (s₁ : QueueId → List PcbPtr) : Prop where
  coherent : Coherent k₁ s₁
  shape : ∀ j, PipeShape hw k₁ s₁ j
  inv : ∀ j, ReadInv k₁ s₁ j
  others : ∀ q, q ≠ k.current_process → k₁.pcb q = k.pcb q
  stay : ∀ j, ∀ r ∈ s (.wait (.pipeReaders j)), r ∈ s₁ (.wait (.pipeReaders j))
  history : ∃ evs, k₁.pipeHistory = k.pipeHistory ++ evs ∧
    ∀ j, reads j evs = (readCall j (k, e)).toList

/-- The call is refused. -/
theorem CallMade.error (h : ShapeInv hw k s) (hinv : ∀ j, ReadInv k s j) {e : SyncEvent}
    (he : ∀ j, readCall j (k, e) = none) : CallMade hw k s e k s :=
  ⟨h.coherent, h.shape, hinv, fun _ _ => rfl, fun _ _ => id, [], by simp, fun j => by rw [he j]; rfl⟩

theorem readCall_eq {p : PcbPtr} {buf : BufPtr} {len : Int} (hopen : readable k i = true) :
    readCall j (k, .call p (.readPipe i buf len)) = if i = j then some (p, len) else none := by
  simp [readCall, hopen]

/-- The caller waits behind the others. -/
theorem CallMade.readBlocked (h : ShapeInv hw k s) (hinv : ∀ j, ReadInv k s j)
    (hfree : ∀ l, k.current_process ∉ s l) (hopen : readable k i = true) {pipe : Pipe}
    (hp : k.pipe i = some pipe) (hempty : pipe.bytes_in_buffer = 0) {buf : BufPtr} {len : Int}
    (hlen : 0 ≤ len) (hlive : k.kbufFreed buf = false) {q : Heap QueueId PcbPtr}
    (hc : Coherent (Yalnix.readBlocked k i buf len q) (Function.update s (.wait (.pipeReaders i))
      (s (.wait (.pipeReaders i)) ++ [k.current_process]))) :
    CallMade hw k s (.call k.current_process (.readPipe i buf len)) (Yalnix.readBlocked k i buf len q)
      (Function.update s (.wait (.pipeReaders i)) (s (.wait (.pipeReaders i)) ++ [k.current_process])) := by
  have hne : ∀ n, n ≠ k.current_process → (Yalnix.readBlocked k i buf len q).pcb n = k.pcb n :=
    fun n hn => by simp [Yalnix.readBlocked, hn]
  have hself : ((Yalnix.readBlocked k i buf len q).pcb k.current_process).pipe_len = len := by
    simp [Yalnix.readBlocked]
  have hhist : (Yalnix.readBlocked k i buf len q).pipeHistory =
      k.pipeHistory ++ [.readCall i k.current_process len] := rfl
  have hreader : ∀ j, ∀ r ∈ s (.wait (.pipeReaders j)), r ≠ k.current_process := fun j r hr e =>
    hfree _ (e ▸ hr)
  refine ⟨hc, (h.readBlocked hfree hp hempty hlive hc).shape, fun j => ?_, hne, fun j r hr => ?_,
    ⟨_, hhist, fun j => ?_⟩⟩
  · by_cases e : j = i
    · subst e
      have hj := hinv j
      refine ⟨fun hn => absurd (hn.symm.trans hp) (by simp), fun pipe' hp' => ?_, ?_, fun r hr => ?_, ?_⟩
      · rw [hhist, available_append, hj.count pipe' hp']
        simp [available, acceptedBytes, deliveredBytes]
      · obtain ⟨done, heq, hdone⟩ := hj.line
        refine ⟨done, ?_, ?_⟩
        · rw [hhist, reads_append, heq, Function.update_self, List.map_append, List.append_assoc]
          refine congrArg _ (congrArg₂ _ (List.map_congr_left fun r hr => ?_) ?_)
          · rw [hne r (hreader j r hr)]
          · simp [reads, hself]
        · rw [hhist, served_append, hdone]
          simp [served]
      · rw [Function.update_self, List.mem_append, List.mem_singleton] at hr
        rcases hr with hr | rfl
        · rw [hne r (hreader j r hr)]
          exact hj.nonneg r hr
        · rw [hself]
          exact hlen
      · rw [hhist]
        exact hj.order.append (by simp)
    · exact (hinv j).other rfl hhist (by simp [PipeEvent.slot, Ne.symm e])
        (Function.update_of_ne (by simpa using e) _ _) fun r hr => by rw [hne r (hreader j r hr)]
  · by_cases e : j = i
    · subst e
      simp [hr]
    · rwa [Function.update_of_ne (by simpa using e)]
  · rw [readCall_eq hopen]
    by_cases e : i = j <;> simp [reads, e]

/-- The caller reads at once: nobody waits, since the buffer is not empty. -/
theorem CallMade.readTake (h : ShapeInv hw k s) (hinv : ∀ j, ReadInv k s j)
    (hfree : ∀ l, k.current_process ∉ s l) (hopen : readable k i = true) {pipe : Pipe}
    (hp : k.pipe i = some pipe) (hne : pipe.bytes_in_buffer ≠ 0) (buf : BufPtr) {len : Int}
    (hlen : 0 ≤ len) : CallMade hw k s (.call k.current_process (.readPipe i buf len))
      (Yalnix.readTake hw k i pipe buf len) s := by
  obtain ⟨hc₁, -, hshape₁, hother⟩ := h.readTake hfree hp buf len
  have hsame : ∀ n, n ≠ k.current_process → (Yalnix.readTake hw k i pipe buf len).pcb n = k.pcb n :=
    fun n hn => by simp [Yalnix.readTake, hn]
  have hnil : s (.wait (.pipeReaders i)) = [] := by
    by_contra hwait
    exact hne (h.waits i pipe hp hwait)
  have htake : 0 ≤ min len pipe.bytes_in_buffer := by
    have := ((h.shape i).sound pipe hp).nonneg
    omega
  generalize hout : Ring.contents hw.PIPE_BUFFER_LEN pipe.buffer pipe.read_pos
    (min len pipe.bytes_in_buffer).toNat = out
  have hlength : (out.length : Int) = min len pipe.bytes_in_buffer := by
    rw [← hout, Ring.length_contents]
    omega
  have hhist : (Yalnix.readTake hw k i pipe buf len).pipeHistory =
      k.pipeHistory ++ [.readCall i k.current_process len, .delivered i k.current_process out] := by
    rw [← hout]
    rfl
  refine ⟨hc₁, hshape₁, fun j => ?_, hsame, fun _ _ => id, ⟨_, hhist, fun j => ?_⟩⟩
  · by_cases e : j = i
    · subst e
      have hj := hinv j
      have hself := pipe_setObject hp (.pipe { pipe with
        read_pos := (pipe.read_pos + (min len pipe.bytes_in_buffer).toNat) % hw.PIPE_BUFFER_LEN
        bytes_in_buffer := pipe.bytes_in_buffer - min len pipe.bytes_in_buffer })
      obtain ⟨done, heq, hdone⟩ := hj.line
      rw [hnil, List.map_nil, List.append_nil] at heq
      refine ⟨fun hn => absurd (hn.symm.trans hself) (by simp [SyncObject.asPipe]), fun pipe' hp' => ?_, ?_,
        fun r hr => by simp [hnil] at hr, ?_⟩
      · obtain rfl := Option.some.inj (hself.symm.trans hp')
        rw [hhist, available_append, ← hj.count pipe hp]
        simp only [available, acceptedBytes, deliveredBytes, List.flatMap_cons, List.flatMap_nil,
          List.length_nil, List.append_nil, if_true]
        simp only [List.nil_append, hlength]
        omega
      · refine ⟨done ++ [(k.current_process, len)], ?_, ?_⟩
        · rw [hhist, reads_append, heq, hnil]
          simp [reads]
        · rw [hhist, served_append, List.length_append, List.length_append, hdone]
          simp [served]
      · have hcall : ServedInOrder j (k.pipeHistory ++ [.readCall j k.current_process len]) :=
          hj.order.append (by simp)
        have hread : (reads j (k.pipeHistory ++ [.readCall j k.current_process len]))[
            (served j (k.pipeHistory ++ [.readCall j k.current_process len])).length]? =
            some (k.current_process, len) := by
          rw [reads_append, served_append, heq]
          simp [reads, served, hdone]
        have hamount : (out.length : Int) =
            min len (available j (k.pipeHistory ++ [.readCall j k.current_process len])) := by
          rw [available_append, ← hj.count pipe hp, hlength]
          simp [available, acceptedBytes, deliveredBytes]
        have hserve := hcall.snoc hread hamount
        rw [hhist]
        simpa using hserve
    · exact (hinv j).other (hother j e) hhist (by simp [PipeEvent.slot, Ne.symm e]) rfl fun r hr => by
        rw [hsame r fun e => hfree _ (e ▸ hr)]
  · rw [readCall_eq hopen]
    by_cases e : i = j <;> simp [reads, e]

/-- The caller has put bytes in; the readers wait as before. -/
theorem CallMade.write (hinv : ∀ j, ReadInv k s j) (hfree : ∀ l, k.current_process ∉ s l) {pipe : Pipe}
    (hp : k.pipe i = some pipe) (buf : BufPtr) {len : Int} {m : Nat} {pcb : Pcb}
    {q : Heap QueueId PcbPtr} (hc : Coherent (writeNow hw k i pipe buf len m pcb q) s')
    (hshape : ∀ j, PipeShape hw (writeNow hw k i pipe buf len m pcb q) s' j)
    (hs : ∀ j, s' (.wait (.pipeReaders j)) = s (.wait (.pipeReaders j))) :
    CallMade hw k s (.call k.current_process (.writePipe i buf len))
      (writeNow hw k i pipe buf len m pcb q) s' := by
  have hne : ∀ n, n ≠ k.current_process → (writeNow hw k i pipe buf len m pcb q).pcb n = k.pcb n :=
    fun n hn => by simp [writeNow, hn]
  have hreader : ∀ j, ∀ r ∈ s (.wait (.pipeReaders j)),
      ((writeNow hw k i pipe buf len m pcb q).pcb r).pipe_len = (k.pcb r).pipe_len := fun j r hr => by
    rw [hne r fun e => hfree _ (e ▸ hr)]
  have hhist : (writeNow hw k i pipe buf len m pcb q).pipeHistory = k.pipeHistory ++
      [.writeCall i k.current_process ((List.range len.toNat).map (k.kbuf buf)),
        .accepted i k.current_process ((List.range m).map (k.kbuf buf))] := rfl
  refine ⟨hc, hshape, fun j => ?_, hne, fun j r hr => by rwa [hs j], ⟨_, hhist, fun j => rfl⟩⟩
  by_cases e : j = i
  · subst e
    refine (hinv j).accept hp (pipe_setObject hp _) hhist (by simp) rfl rfl ?_ (hs j) (hreader j)
    show (pipe.putAll hw ((List.range m).map (k.kbuf buf))).bytes_in_buffer = _
    rw [putAll_bytes]
    simp [available, acceptedBytes, deliveredBytes]
  · refine (hinv j).other ?_ hhist (by simp [PipeEvent.slot, Ne.symm e]) (hs j) (hreader j)
    simp [Kernel.pipe, writeNow, Kernel.setObject, e]

/-! ## When a reader is served -/

theorem Drain.history (hd : Drain hw i k s k' s') :
    ∃ evs, k'.pipeHistory = k.pipeHistory ++ evs ∧ ∀ j, reads j evs = [] := by
  induction hd with
  | refl => exact ⟨[], by simp, fun _ => rfl⟩
  | head hstep _ ih =>
    obtain ⟨evs, heq, hevs⟩ := ih
    obtain ⟨e, he, hnone⟩ : ∃ e, _ = _ ++ [e] ∧ ∀ j, reads j [e] = [] := by
      rcases hstep.effect.1 with ⟨r, out, hhist⟩ | ⟨w, out, hhist⟩ <;> exact ⟨_, hhist, fun _ => rfl⟩
    refine ⟨e :: evs, by rw [heq, he]; simp, fun j => ?_⟩
    rw [← List.singleton_append, reads_append, hnone, hevs]
    rfl

/-- What leaves the reader alone before it is told. -/
theorem ReaderTold.before {k₁ : Kernel} {r : PcbPtr} (h : ReaderTold i k₁ k' r)
    (hpcb : k₁.pcb r = k.pcb r) (hhist : k₁.pipeHistory = k.pipeHistory ++ evs) : ReaderTold i k k' r := by
  rcases h with ⟨hin, hsame⟩ | ⟨hout, hready, h₁, out, h₂, heq, hreg⟩
  · exact Or.inl ⟨hin, hsame.trans hpcb⟩
  · refine Or.inr ⟨hout, hready, evs ++ h₁, out, h₂, ?_, hreg⟩
    rw [heq, hhist]
    simp

/-- A reader waits on, or it is served, ready and out of reach of the drain loops. -/
theorem Drain.reader (hd : Drain hw i k s k' s') (h : PipeShape hw k s i) (hc : Coherent k s)
    (hinv : ReadInv k s j) {r : PcbPtr} (hr : r ∈ s (.wait (.pipeReaders j))) : ReaderTold j k k' r := by
  have hqueue := (hd.coherent hc).queue_eq
  by_cases e : j = i
  · subst e
    induction hd with
    | refl => exact Or.inl ⟨by rwa [hqueue], rfl⟩
    | @head k k₁ k' s s₁ s' hstep hrest ih =>
      have h₁ := h.drainStep h hc hstep
      have hstay : ∀ {p : PcbPtr} {pcb : Pcb} {pipe : Pipe} {ev : PipeEvent},
          AtPipe j p k k₁ pcb pipe ev → r ≠ p → r ∈ s₁ (.wait (.pipeReaders j)) →
          ReaderTold j k k' r := fun hat hne hmem =>
        (ih hstep.coherent (hinv.drainStep h hc hstep) hmem hqueue h₁).before (hat.others r hne)
          hat.history
      cases hstep.cases h with
      | @serve r₀ xs pipe out hs hp hpos hout hat =>
        by_cases e : r = r₀
        · -- it is its turn, and the rest of the drain leaves it alone
          subst e
          have hoff : ∀ v, r ∉ woken s (.pipeReaders j) r xs (.wait v) := fun v hv =>
            ne_of_mem_woken hc hs hv rfl
          obtain ⟨hpcb, hsub⟩ := hrest.off (hoff _) (hoff _)
          obtain ⟨evs, hhist, -⟩ := hrest.history
          obtain ⟨-, -, ready, -, -, hready, -⟩ := hrest.parted h₁ hstep.coherent
          refine Or.inr ⟨?_, ?_, [], out, evs, ?_, ?_⟩
          · rw [hqueue]
            exact fun hn => hoff _ (hsub _ hn)
          · rw [hqueue, hready, woken_ready]
            simp
          · rw [hhist, hat.history]
            simp
          · rw [hpcb, hat.pcb, length_served (hinv.nonneg r hr) hpos hout]
            exact UserContext.setReg0_regs_zero _ _
        · rw [hs, List.mem_cons] at hr
          exact hstay hat e (by rw [woken_self]; exact hr.resolve_left e)
      | @finish w xs pipe out hs hp hout hdone hat =>
        refine hstay hat ?_ (by rwa [woken_ne (by simp)])
        rintro rfl
        have := hc.unique hr (show r ∈ s (.wait (.pipeWriters j)) by simp [hs])
        simp at this
      | @refill w xs pipe out hs hp hout hleft hat =>
        refine hstay hat ?_ hr
        rintro rfl
        have := hc.unique hr (show r ∈ s (.wait (.pipeWriters j)) by simp [hs])
        simp at this
  · have hoff : ∀ v, v.slot = i → r ∉ s (.wait v) := fun v hv hv' => by
      have : v = .pipeReaders j := by simpa using hc.unique hv' hr
      exact e (by rw [← hv, this]; rfl)
    obtain ⟨hpcb, -⟩ := hd.off (hoff (.pipeReaders i) rfl) (hoff (.pipeWriters i) rfl)
    refine Or.inl ⟨?_, hpcb⟩
    rw [hqueue, (hd.other e).2 (.pipeReaders j) rfl]
    exact hr

/-! ## The run -/

/-- What an event of a run adds to the reads, and tells the readers. -/
structure ReadReport (k : Kernel) (s : QueueId → List PcbPtr) (e : SyncEvent) (k' : Kernel)
    (i : Nat) : Prop where
  calls : reads i k'.pipeHistory = reads i k.pipeHistory ++ (readCall i (k, e)).toList
  told : ∀ p c, e = .call p c → ∀ r ∈ s (.wait (.pipeReaders i)), ReaderTold i k k' r

/-- The drain after a call. -/
theorem CallMade.drain {e : SyncEvent} {k₁ : Kernel} {s₁ : QueueId → List PcbPtr}
    (h : CallMade hw k s e k₁ s₁) (hfree : ∀ l, k.current_process ∉ s l)
    (hd : Drain hw i k₁ s₁ k' s') : (∀ j, ReadInv k' s' j) ∧ ∀ j, ReadReport k s e k' j := by
  obtain ⟨hc₁, hshape₁, hinv₁, hothers, hstay, evs, hhist, hevs⟩ := h
  refine ⟨fun j => (hinv₁ j).drain (hshape₁ i) hc₁ hd, fun j => ⟨?_, fun p c _ r hr => ?_⟩⟩
  · obtain ⟨evs', hhist', hevs'⟩ := hd.history
    rw [hhist', reads_append, hevs', List.append_nil, hhist, reads_append, hevs]
  · have hne : r ≠ k.current_process := fun e => hfree _ (e ▸ hr)
    exact (hd.reader (hshape₁ i) hc₁ (hinv₁ j) (hstay j r hr)).before (hothers r hne) hhist

/-- A read call. -/
theorem ReadInv.read (h : ShapeInv hw k s) (hinv : ∀ j, ReadInv k s j)
    (hfree : ∀ l, k.current_process ∉ s l) (hidle : k.current_process ≠ k.idle_process)
    {id len rc : Int} {buf : BufPtr} (hlen : 0 ≤ len) (hlive : k.kbufFreed buf = false)
    (hrun : syncReadPipe hw k id buf len = some (rc, k')) : ∃ s', Coherent k' s' ∧
      (∀ j, ReadInv k' s' j) ∧
      ∀ j, ReadReport k s (.call k.current_process (.readPipe id buf len)) k' j := by
  cases readPipe_ends h.coherent (fun i => (h.shape i).sound) hfree hidle hrun with
  | error hno =>
    have hmade := CallMade.error (e := .call k.current_process (.readPipe id buf len)) h hinv fun j => by
      simp [readCall, hno]
    exact ⟨s, h.coherent, hmade.drain (i := 0) hfree (.refl k s)⟩
  | @blocked i pipe q hopen hp hempty hc =>
    have hmade := CallMade.readBlocked h hinv hfree hopen hp hempty hlen hlive hc
    exact ⟨_, hc, hmade.drain (i := i) hfree (.refl _ _)⟩
  | @taken i pipe k' hopen hp hne hdrain =>
    have hmade := CallMade.readTake h hinv hfree hopen hp hne buf hlen
    obtain ⟨s', hd, -⟩ := (drain_steps _ _ s hmade.coherent).1 k' hdrain
    exact ⟨s', hd.coherent hmade.coherent, hmade.drain hfree hd⟩

/-- A write call. -/
theorem ReadInv.write (h : ShapeInv hw k s) (hinv : ∀ j, ReadInv k s j)
    (hfree : ∀ l, k.current_process ∉ s l) (hidle : k.current_process ≠ k.idle_process)
    {id len rc : Int} {buf : BufPtr} (hlive : k.kbufFreed buf = false)
    (hrun : syncWritePipe hw k id buf len = some (rc, k')) : ∃ s', Coherent k' s' ∧ (∀ j, ReadInv k' s' j) ∧
      ∀ j, ReadReport k s (.call k.current_process (.writePipe id buf len)) k' j := by
  cases writePipe_cases h.coherent hfree hidle hrun with
  | error hno =>
    have hmade := CallMade.error (e := .call k.current_process (.writePipe id buf len)) h hinv
      fun _ => rfl
    exact ⟨s, h.coherent, hmade.drain (i := 0) hfree (.refl k s)⟩
  | @blocked i m n pipe q k₁ k' hopen hp hm hlt hk₁ hc hdrain =>
    obtain ⟨-, hshape₁, -⟩ := h.writeBlocked hfree hp hlive hk₁ hc
    subst hk₁
    have hmade := CallMade.write hinv hfree hp buf hc hshape₁ fun j =>
      Function.update_of_ne (by simp) _ _
    obtain ⟨s', hd, -⟩ := (drain_steps _ _ _ hc).2 k' hdrain
    exact ⟨s', hd.coherent hc, hmade.drain hfree hd⟩
  | @done i m n pipe k₁ k' hopen hp hm hlt hk₁ hdrain =>
    subst hk₁
    obtain ⟨hc₁, -, hshape₁, -⟩ := h.writeDone hfree hp buf len m
    have hmade := CallMade.write hinv hfree hp buf hc₁ hshape₁ fun _ => rfl
    obtain ⟨s', hd, -⟩ := (drain_steps _ _ s hc₁).2 k' hdrain
    exact ⟨s', hd.coherent hc₁, hmade.drain hfree hd⟩

/-- What leaves the pipes alone. A new pipe has no history. -/
theorem ReadInv.frame (hinv : ReadInv k s i) (ht : SyncTable k s) (hf : PipeFrame k k')
    (hs : s' (.wait (.pipeReaders i)) = s (.wait (.pipeReaders i))) : ReadInv k' s' i := by
  have hhist : k'.pipeHistory = k.pipeHistory ++ [] := by rw [hf.history, List.append_nil]
  have hlen : ∀ r, (k'.pcb r).pipe_len = (k.pcb r).pipe_len := fun r =>
    congrArg (fun x => x.2.1) (hf.request r)
  rcases hf.pipe i with hp | ⟨hnone, buffer, hp⟩
  · exact hinv.other hp hhist (by simp) hs fun r _ => hlen r
  · have hnil : s (.wait (.pipeReaders i)) = [] := by
      refine List.eq_nil_iff_forall_not_mem.2 fun r hr => ?_
      obtain ⟨o, ho, hfit⟩ := ht.fits _ r hr
      have hobj : k.pipe i = o.object.asPipe := by
        rw [Kernel.pipe, show k.sync_table i = some o from ho]
        rfl
      rw [hnone] at hobj
      cases h : o.object with
      | pipe pipe => simp [h, SyncObject.asPipe] at hobj
      | _ => rw [h] at hfit; exact hfit
    obtain ⟨hreads, hserved, havail⟩ := reads_other (hinv.fresh hnone)
    refine ⟨fun hn => absurd (hn.symm.trans hp) (by simp), fun pipe' hp' => ?_, ⟨[], ?_, ?_⟩,
      fun r hr => by simp [hs, hnil] at hr, ?_⟩
    · obtain rfl := Option.some.inj (hp.symm.trans hp')
      rw [hf.history, havail]
      rfl
    · rw [hf.history, hreads, hs, hnil]
      rfl
    · rw [hf.history, hserved]
      rfl
    · rw [hf.history]
      exact hinv.order

/-- One event keeps the invariant, and reports what it must. -/
theorem ReadInv.step (h : ShapeInv hw k s) (hlive : ∀ b, k.kbufFreed b = false)
    (hinv : ∀ j, ReadInv k s j) {e : SyncEvent} (hen : (syncMachine hw).enabled k e) (he : PipeTraffic e)
    (hstep : (syncMachine hw).step k e = some k') : ∃ s', ShapeInv hw k' s' ∧
      (∀ b, k'.kbufFreed b = false) ∧ (∀ j, ReadInv k' s' j) ∧ ∀ j, ReadReport k s e k' j := by
  obtain ⟨s', h', hfreed⟩ := h.step hlive hen hstep
  have key : (∃ s'', Coherent k' s'' ∧ (∀ j, ReadInv k' s'' j) ∧ ∀ j, ReadReport k s e k' j) →
      ∃ s', ShapeInv hw k' s' ∧ (∀ b, k'.kbufFreed b = false) ∧ (∀ j, ReadInv k' s' j) ∧
        ∀ j, ReadReport k s e k' j := by
    rintro ⟨s'', hc, hrest⟩
    obtain rfl : s' = s'' := h'.coherent.queue_eq.symm.trans hc.queue_eq
    exact ⟨s', h', fun b => hfreed ▸ hlive b, hrest⟩
  refine key ?_
  cases e with
  | schedule caller =>
    obtain ⟨s₁, h₁, hf, hs⟩ := h.schedule hstep
    exact ⟨s₁, h₁.coherent, fun j => (hinv j).frame h.table hf (hs _), fun j =>
      ⟨by rw [hf.history]; exact (List.append_nil _).symm, fun _ _ e => by cases e⟩⟩
  | store buf bytes =>
    obtain rfl := Option.some.inj hstep
    refine ⟨s, h.coherent.congr rfl rfl fun _ => rfl, fun j =>
      (hinv j).frame h.table ⟨fun _ => Or.inl rfl, fun _ => rfl, rfl, rfl⟩ rfl,
      fun j => ⟨?_, fun _ _ e => by cases e⟩⟩
    exact (List.append_nil _).symm
  | call p c =>
    obtain ⟨⟨rc, k₁⟩, hrun, rfl⟩ := Option.map_eq_some_iff.1 hstep
    obtain ⟨hfree, hidle⟩ := hen
    have hfree := h.coherent.offQueues_iff.1 hfree
    have hp := h.setCurrent p
    have hpinv : ∀ j, ReadInv { k with current_process := p } s j := fun j =>
      (hinv j).frame h.table ⟨fun _ => Or.inl rfl, fun _ => rfl, rfl, rfl⟩ rfl
    cases c with
    | initPipe idp allocated buffer =>
      obtain ⟨s₁, h₁, hf, hs⟩ := hp.other hfree hidle rfl hrun
      have hpcb : k₁.pcb = k.pcb := by
        have hinit : syncInitPipe _ idp allocated buffer = some (rc, k₁) := hrun
        unfold syncInitPipe at hinit
        rcases syncInit_cases hinit with rfl | ⟨_, _, _, rfl⟩
        · rfl
        · rfl
      refine ⟨s₁, h₁.coherent, fun j => (hpinv j).frame hp.table hf (hs _ rfl), fun j =>
        ⟨by rw [hf.history]; exact (List.append_nil _).symm, fun _ _ _ r hr => Or.inl ⟨?_, by rw [hpcb]⟩⟩⟩
      rw [h₁.coherent.queue_eq, hs _ rfl]
      exact hr
    | readPipe id buf len =>
      obtain ⟨s₁, hc, hinv₁, hrep⟩ := ReadInv.read hp hpinv hfree hidle he (hlive buf) hrun
      exact ⟨s₁, hc, hinv₁, fun j => ⟨(hrep j).calls, (hrep j).told⟩⟩
    | writePipe id buf len =>
      obtain ⟨s₁, hc, hinv₁, hrep⟩ := ReadInv.write hp hpinv hfree hidle (hlive buf) hrun
      exact ⟨s₁, hc, hinv₁, fun j => ⟨(hrep j).calls, (hrep j).told⟩⟩
    | _ => exact he.elim

theorem SyncStart.readInv (h : SyncStart k) : ReadInv k k.queue i where
  fresh := fun _ e he => by simp [h.noHistory] at he
  count pipe hp := by simp [Kernel.pipe, h.noObject i] at hp
  line := ⟨[], by rw [h.noHistory, h.noWaiter]; rfl, by rw [h.noHistory]; rfl⟩
  nonneg r hr := by simp [h.noWaiter] at hr
  order h₁ r out h₂ heq := by simp [h.noHistory] at heq

/-- In every run of pipe calls without negative lengths, who waits to read finds the buffer empty; the
reads are the read calls in their order, of which the first ones were served and the others wait; each
delivery goes to the oldest read that was not served, with what is there of what it asked for; and a
call leaves a reader waiting, or makes it ready with the number of its bytes. -/
theorem reads_in_order (h₀ : SyncStart k₀) {t : List (Kernel × SyncEvent)}
    (hrun : Run (syncMachine hw) (fun _ e => PipeTraffic e) k₀ t k) :
    (∀ i pipe, k.pipe i = some pipe → k.queue (.wait (.pipeReaders i)) ≠ [] →
      pipe.bytes_in_buffer = 0) ∧
    (∀ i, reads i k.pipeHistory = t.filterMap (readCall i)) ∧
    (∀ i, ReadsOf i k k.queue) ∧ (∀ i, ServedInOrder i k.pipeHistory) ∧
    ∀ x ∈ t, ∀ p c k', x.2 = .call p c → (syncMachine hw).step x.1 x.2 = some k' →
      ∀ i, ∀ r ∈ x.1.queue (.wait (.pipeReaders i)), ReaderTold i x.1 k' r := by
  obtain ⟨s, hinv, -, hreads, hcalls, hrep⟩ := hrun.traceInvariant
    (I := fun t k => ∃ s, ShapeInv hw k s ∧ (∀ b, k.kbufFreed b = false) ∧ (∀ j, ReadInv k s j) ∧
      (∀ i, reads i k.pipeHistory = t.filterMap (readCall i)) ∧
      ∀ x ∈ t, ∀ k', (syncMachine hw).step x.1 x.2 = some k' →
        ∀ i, ReadReport x.1 x.1.queue x.2 k' i)
    ⟨_, h₀.shapeInv, h₀.noneFreed, fun _ => h₀.readInv, fun i => by rw [h₀.noHistory]; rfl, by simp⟩ (by
      rintro t k e k' ⟨s, hinv, hlive, hreads, hcalls, hrep⟩ hen he hstep
      obtain ⟨s', hinv', hlive', hreads', hrep'⟩ := ReadInv.step hinv hlive hreads hen he hstep
      refine ⟨s', hinv', hlive', hreads', fun i => ?_, fun x hx k₁ hk₁ i => ?_⟩
      · rw [(hrep' i).calls, hcalls, List.filterMap_append]
        cases hc : readCall i (k, e) <;> simp [hc]
      · rcases List.mem_append.1 hx with hx | hx
        · exact hrep x hx k₁ hk₁ i
        · obtain rfl := List.mem_singleton.1 hx
          obtain rfl : k' = k₁ := Option.some.inj (hstep.symm.trans hk₁)
          rw [hinv.coherent.queue_eq]
          exact hrep' i)
  obtain rfl := hinv.coherent.queue_eq
  exact ⟨hinv.waits, hcalls, fun i => (hreads i).line, fun i => (hreads i).order,
    fun x hx p c k' hc hstep i r hr => (hrep x hx k' hstep i).told p c hc r hr⟩

/-- The processes `102` and `103` wait for two bytes and for one, and `104` writes three. -/
def twoReadersEvents : List SyncEvent :=
  [.store 2 fun n => n.toUInt8, .call 102 (.initPipe 8 true fun _ => 0), .call 102 (.readPipe 0 0 2),
    .call 103 (.readPipe 0 1 1), .call 104 (.writePipe 0 2 3)]

def twoReadersKernel : Kernel :=
  ((syncMachine .small).exec Boot.smallProcesses twoReadersEvents).get (by decide +kernel)

theorem reads_in_order_small : served 0 twoReadersKernel.pipeHistory = [102, 103] ∧
    reads 0 twoReadersKernel.pipeHistory =
      ((syncMachine .small).trace Boot.smallProcesses twoReadersEvents).filterMap (readCall 0) := by
  have hexec : (syncMachine .small).exec Boot.smallProcesses twoReadersEvents = some twoReadersKernel :=
    (Option.some_get _).symm
  have hrun : Run (syncMachine .small) (fun _ e => PipeTraffic e) Boot.smallProcesses _
      twoReadersKernel := Boot.smallProcesses_syncStart.shapeExec hexec (by decide +kernel)
  exact ⟨by decide +kernel, (reads_in_order Boot.smallProcesses_syncStart hrun).2.1 0⟩

end Yalnix
