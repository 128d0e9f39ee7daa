import Yalnix.Proofs.PipeCall

/-!
# Pipe conservation

Every event of a run of pipe calls keeps the invariant of the pipes.
-/

namespace Yalnix

open Intrusive Transition

variable {hw : Hardware} {k k' k₀ : Kernel} {s s' : QueueId → List PcbPtr} {i : Nat}

/-- Nothing that the pipes look at has changed. -/
theorem PipesInv.congr (h : PipesInv hw k s) (hc : Coherent k' s') (ht : SyncTable k' s')
    (htable : k'.sync_table = k.sync_table) (hhist : k'.pipeHistory = k.pipeHistory)
    (hkbuf : ∀ j, ∀ w ∈ s (.wait (.pipeWriters j)), ∀ b, (k.pcb w).pipe_buffer = some b →
      k'.kbuf b = k.kbuf b)
    (hs : ∀ v, s' (.wait v) = s (.wait v))
    (hbuffer : ∀ p, (k'.pcb p).pipe_buffer = (k.pcb p).pipe_buffer)
    (hlen : ∀ p, (k'.pcb p).pipe_len = (k.pcb p).pipe_len)
    (hloc : ∀ p, (k'.pcb p).write_loc = (k.pcb p).write_loc) (hfreed : k'.kbufFreed = k.kbufFreed) :
    PipesInv hw k' s' := by
  have hpipe : ∀ j, k'.pipe j = k.pipe j := fun j => by rw [Kernel.pipe, htable, Kernel.pipe]
  refine ⟨hc, ht, fun j => ?_, fun i j r hr w hw => ?_, fun b => hfreed ▸ h.live b⟩
  · have hj := h.pipe j
    refine ⟨fun hn => ?_, fun pipe hp => hj.valid pipe (hpipe j ▸ hp), fun pipe hp => ?_, ?_, ?_,
      fun r hr hd => ?_, fun r hr => ?_⟩
    · rw [hhist]; exact hj.fresh (hpipe j ▸ hn)
    · rw [hhist]; exact hj.stream pipe (hpipe j ▸ hp)
    · rw [hhist, hs]; exact hj.blocked
    · rw [hhist]; exact hj.newest
    · rw [hhist] at hr
      exact (hj.progress r hr hd).congr (hbuffer _) (hlen _) (hloc _)
        (hkbuf j _ (hj.writer_mem hr hd))
    · rw [hs] at hr
      rw [hbuffer, hlen]
      exact hj.reader r hr
  · rw [hs] at hr hw
    rw [hbuffer, hbuffer]
    exact h.apart i j r hr w hw

/-- The caller waits for bytes. -/
theorem PipesInv.readBlocked (h : PipesInv hw k s) (hfree : ∀ l, k.current_process ∉ s l)
    {pipe : Pipe} {buf : BufPtr} {len : Int} {q : Heap QueueId PcbPtr} (hp : k.pipe i = some pipe)
    (hlen : 0 ≤ len)
    (hbuf : ∀ j, ∀ w ∈ s (.wait (.pipeWriters j)), (k.pcb w).pipe_buffer ≠ some buf)
    (hc : Coherent (Yalnix.readBlocked k i buf len q) (Function.update s (.wait (.pipeReaders i))
      (s (.wait (.pipeReaders i)) ++ [k.current_process]))) :
    PipesInv hw (Yalnix.readBlocked k i buf len q) (Function.update s (.wait (.pipeReaders i))
      (s (.wait (.pipeReaders i)) ++ [k.current_process])) := by
  have htouch : PipeTouch i k.current_process k (Yalnix.readBlocked k i buf len q) :=
    ⟨fun q hq => by simp [Yalnix.readBlocked, hq], fun _ _ => rfl, _, rfl, by simp [PipeEvent.slot]⟩
  have hi := h.pipe i
  obtain ⟨o, ho, hobj⟩ := pipe_eq_some hp
  have hlog : writeLog i (Yalnix.readBlocked k i buf len q).pipeHistory =
      writeLog i k.pipeHistory := by
    simp [Yalnix.readBlocked, writeLog_append, logEvent]
  have hne : ∀ {v n}, n ∈ s (.wait v) → n ≠ k.current_process := fun hn e => hfree _ (e ▸ hn)
  have hmem : ∀ j n, n ∈ Function.update s (.wait (.pipeReaders i))
      (s (.wait (.pipeReaders i)) ++ [k.current_process]) (.wait (.pipeReaders j)) →
      n ∈ s (.wait (.pipeReaders j)) ∨ n = k.current_process := fun j n hn => by
    by_cases e : j = i
    · subst e; simpa using hn
    · rw [Function.update_of_ne (by simpa using e)] at hn
      exact Or.inl hn
  refine ⟨hc, h.table.congr rfl rfl fun v n hn => ?_, fun j => ?_, fun j₁ j₂ r hr w hw => ?_, h.live⟩
  · by_cases e : v = .pipeReaders i
    · subst e; exact Or.inr ⟨o, ho, by simp [WaitList.Fits, hobj]⟩
    · rw [Function.update_of_ne (by simpa using e)] at hn
      exact Or.inl hn
  · by_cases e : j = i
    · subst e
      refine ⟨fun hn => (by rw [show k.pipe j = none from hn] at hp; cases hp),
        fun pipe' hp' => hi.valid pipe' hp', fun pipe' hp' => ?_, ?_, ?_, fun r hr hd => ?_,
        fun r hr => ?_⟩
      · show deliveredBytes j (k.pipeHistory ++ _) ++ _ = acceptedBytes j (k.pipeHistory ++ _)
        rw [deliveredBytes_append, acceptedBytes_append, ← hi.stream pipe' hp']
        simp [deliveredBytes, acceptedBytes]
      · rw [hlog, Function.update_of_ne (by simp)]
        exact hi.blocked
      · rw [hlog]; exact hi.newest
      · rw [hlog] at hr
        exact (hi.progress r hr hd).congr_pcb (htouch.pcb _ (hne (hi.writer_mem hr hd)))
          fun _ _ => rfl
      · rcases hmem j r hr with hr | rfl
        · rw [htouch.pcb r (hne hr)]
          exact hi.reader r hr
        · exact ⟨buf, by simp [Yalnix.readBlocked], by simpa [Yalnix.readBlocked] using hlen⟩
    · exact (h.pipe j).other e htouch (by simp) (by simp [e]) (hfree _) (hfree _) fun _ _ _ _ => rfl
  · rw [Function.update_of_ne (by simp)] at hw
    rw [htouch.pcb w (hne hw)]
    rcases hmem j₁ r hr with hr | rfl
    · rw [htouch.pcb r (hne hr)]
      exact h.apart j₁ j₂ r hr w hw
    · simpa [Yalnix.readBlocked] using (hbuf j₂ w hw).symm

/-- The caller takes bytes. -/
theorem PipesInv.readNow (h : PipesInv hw k s) (hfree : ∀ l, k.current_process ∉ s l)
    {pipe : Pipe} {buf : BufPtr} {len : Int} {n : Nat} (hp : k.pipe i = some pipe)
    (hn : (n : Int) ≤ pipe.bytes_in_buffer)
    (hbuf : ∀ j, ∀ w ∈ s (.wait (.pipeWriters j)), (k.pcb w).pipe_buffer ≠ some buf) :
    PipesInv hw (Yalnix.readNow hw k i pipe buf len n) s := by
  have hi := h.pipe i
  have hv := hi.valid pipe hp
  have hpipe' : (Yalnix.readNow hw k i pipe buf len n).pipe i = some (pipe.drop hw n) :=
    pipe_setObject hp _
  have htouch : PipeTouch i k.current_process k (Yalnix.readNow hw k i pipe buf len n) :=
    ⟨fun q hq => by simp [Yalnix.readNow, hq],
      fun j hj => by simp [Yalnix.readNow, Kernel.setObject, hj], _, rfl, by simp [PipeEvent.slot]⟩
  have hlog : writeLog i (Yalnix.readNow hw k i pipe buf len n).pipeHistory =
      writeLog i k.pipeHistory := by
    simp [Yalnix.readNow, writeLog_append, logEvent]
  have hne : ∀ {v n}, n ∈ s (.wait v) → n ≠ k.current_process := fun hn e => hfree _ (e ▸ hn)
  have hkbuf : ∀ j, ∀ w ∈ s (.wait (.pipeWriters j)), ∀ b, (k.pcb w).pipe_buffer = some b →
      (Yalnix.readNow hw k i pipe buf len n).kbuf b = k.kbuf b := fun j w hw b hb => by
    have : b ≠ buf := fun e => hbuf j w hw (e ▸ hb)
    simp [Yalnix.readNow, this]
  have hc : Coherent (Yalnix.readNow hw k i pipe buf len n) s :=
    h.coherent.congr rfl rfl fun q => by
      by_cases e : q = k.current_process
      · subst e; simp [Yalnix.readNow]
      · rw [htouch.pcb q e]
  refine ⟨hc, (h.table.setPipe hp _).congr rfl rfl fun _ _ => Or.inl, fun j => ?_,
    fun j₁ j₂ r hr w hw => ?_, h.live⟩
  · by_cases e : j = i
    · subst e
      refine ⟨fun hn => (by rw [hpipe'] at hn; cases hn), fun pipe' hp' => ?_,
        fun pipe' hp' => ?_, by rw [hlog]; exact hi.blocked, by rw [hlog]; exact hi.newest,
        fun r hr hd => ?_, fun r hr => ?_⟩
      · rw [hpipe', Option.some.injEq] at hp'
        exact hp' ▸ hv.drop hn
      · rw [hpipe', Option.some.injEq] at hp'
        subst hp'
        have hstream := hi.stream pipe hp
        rw [← hv.contents_drop hn, ← List.append_assoc] at hstream
        show deliveredBytes j (k.pipeHistory ++ _) ++ _ = acceptedBytes j (k.pipeHistory ++ _)
        rw [deliveredBytes_append, acceptedBytes_append]
        simpa [deliveredBytes, acceptedBytes] using hstream
      · rw [hlog] at hr
        have hmem := hi.writer_mem hr hd
        exact (hi.progress r hr hd).congr_pcb (htouch.pcb _ (hne hmem)) (hkbuf j _ hmem)
      · rw [htouch.pcb r (hne hr)]
        exact hi.reader r hr
    · exact (h.pipe j).other e htouch rfl rfl (hfree _) (hfree _) (hkbuf j)
  · rw [htouch.pcb r (hne hr), htouch.pcb w (hne hw)]
    exact h.apart j₁ j₂ r hr w hw

/-- The caller puts bytes; its write is done, or it is blocked with the rest. -/
theorem PipesInv.writeNow (h : PipesInv hw k s) (hfree : ∀ l, k.current_process ∉ s l)
    {pipe : Pipe} {buf : BufPtr} {len : Int} {m : Nat} {pcb : Pcb} {q : Heap QueueId PcbPtr}
    {k₁ : Kernel} (hp : k.pipe i = some pipe)
    (hm : m = min (hw.PIPE_BUFFER_LEN - pipe.bytes_in_buffer).toNat len.toNat)
    (hbuf : ∀ j, ∀ r ∈ s (.wait (.pipeReaders j)), (k.pcb r).pipe_buffer ≠ some buf)
    (hk₁ : k₁ = Yalnix.writeNow hw k i pipe buf len m pcb q) (hc : Coherent k₁ s')
    (hother : ∀ v, v ≠ .pipeWriters i → s' (.wait v) = s (.wait v))
    (hcase : (s' (.wait (.pipeWriters i)) = s (.wait (.pipeWriters i)) ∧ ¬ (m : Int) < len) ∨
      (s' (.wait (.pipeWriters i)) = s (.wait (.pipeWriters i)) ++ [k.current_process] ∧
        (m : Int) < len ∧ pcb.write_loc = m ∧ pcb.pipe_buffer = some buf ∧ pcb.pipe_len = len)) :
    PipesInv hw k₁ s' := by
  have hi := h.pipe i
  have hv := hi.valid pipe hp
  obtain ⟨o, ho, hobj⟩ := pipe_eq_some hp
  generalize hout : (List.range m).map (k.kbuf buf) = out
  have htable : k₁.sync_table = (k.setObject i (.pipe (pipe.putAll hw out))).sync_table := by
    rw [hk₁, ← hout]; rfl
  have hhist : k₁.pipeHistory = k.pipeHistory ++
      [.writeCall i k.current_process ((List.range len.toNat).map (k.kbuf buf)),
        .accepted i k.current_process out] := by rw [hk₁, ← hout]; rfl
  have hkbuf : k₁.kbuf = k.kbuf := by rw [hk₁]; rfl
  have hpcb : ∀ q, q ≠ k.current_process → k₁.pcb q = k.pcb q := fun q hq => by
    rw [hk₁]; simp [Yalnix.writeNow, hq]
  have hpcb' : k₁.pcb k.current_process = pcb := by rw [hk₁]; simp [Yalnix.writeNow]
  have hpipe' : k₁.pipe i = some (pipe.putAll hw out) := by
    rw [Kernel.pipe, htable]
    exact pipe_setObject hp _
  have htouch : PipeTouch i k.current_process k k₁ :=
    ⟨hpcb, fun j hj => by rw [htable]; simp [Kernel.setObject, hj], _, hhist,
      by simp [PipeEvent.slot]⟩
  have hlog : writeLog i k₁.pipeHistory =
      ⟨k.current_process, (List.range len.toNat).map (k.kbuf buf), out⟩ ::
        writeLog i k.pipeHistory := by
    rw [hhist, writeLog_append]
    simp [logEvent, acceptFor]
  have hroom : pipe.bytes_in_buffer + out.length ≤ hw.PIPE_BUFFER_LEN := by
    have := hv.le
    rw [← hout, List.length_map, List.length_range]
    omega
  obtain ⟨hvalid, hcont, -⟩ := hv.putAll out hroom
  have hne : ∀ {v n}, n ∈ s (.wait v) → n ≠ k.current_process := fun hn e => hfree _ (e ▸ hn)
  generalize hr : (⟨k.current_process, (List.range len.toNat).map (k.kbuf buf), out⟩ : Write) = r
    at hlog
  have htake : out = ((List.range len.toNat).map (k.kbuf buf)).take m := by
    rw [← List.map_take, List.take_range, Nat.min_eq_left (by omega), hout]
  have hdone : r.done = true ↔ ¬ (m : Int) < len := by
    rw [← hr]
    simp only [Write.done, decide_eq_true_eq, htake]
    constructor
    · intro e hlt
      have := congrArg List.length e
      simp only [List.length_take, List.length_map, List.length_range] at this
      omega
    · intro hlt
      exact List.take_of_length_le (by simp; omega)
  have hmem : ∀ v n, n ∈ s' (.wait v) →
      n ∈ s (.wait v) ∨ (v = .pipeWriters i ∧ n = k.current_process ∧ k₁.pcb n = pcb ∧
        pcb.pipe_buffer = some buf) := fun v n hn => by
    by_cases e : v = .pipeWriters i
    · subst e
      rcases hcase with ⟨hs', -⟩ | ⟨hs', -, -, hb, -⟩
      · exact Or.inl (hs' ▸ hn)
      · rw [hs', List.mem_append, List.mem_singleton] at hn
        rcases hn with hn | rfl
        · exact Or.inl hn
        · exact Or.inr ⟨rfl, rfl, hpcb', hb⟩
    · exact Or.inl (hother v e ▸ hn)
  refine ⟨hc, (h.table.setPipe hp _).congr htable (by rw [hk₁]; rfl) fun v n hn => ?_, fun j => ?_,
    fun j₁ j₂ x hx w hw => ?_, by rw [hk₁]; exact h.live⟩
  · rcases hmem v n hn with hn | ⟨rfl, -⟩
    · exact Or.inl hn
    · exact Or.inr ⟨{ o with object := .pipe (pipe.putAll hw out) },
        by simp [WaitList.slot, Kernel.setObject, ho], trivial⟩
  · by_cases e : j = i
    · subst e
      refine ⟨fun hn => (by rw [hpipe'] at hn; cases hn), fun pipe' hp' => ?_,
        fun pipe' hp' => ?_, ?_, ?_, fun x hx hxd => ?_, fun x hx => ?_⟩
      · rw [hpipe', Option.some.injEq] at hp'
        exact hp' ▸ hvalid
      · rw [hpipe', Option.some.injEq] at hp'
        subst hp'
        rw [hhist, deliveredBytes_append, acceptedBytes_append, hcont, ← hi.stream pipe hp]
        simp [deliveredBytes, acceptedBytes]
      · rw [hlog, List.filter_cons]
        rcases hcase with ⟨hs', hlt⟩ | ⟨hs', hlt, -⟩
        · simp [hdone.2 hlt, hs', hi.blocked]
        · have hnd : r.done = false := by
            rw [Bool.eq_false_iff, Ne, hdone, not_not]; exact hlt
          rw [if_pos (by simp [hnd]), List.map_cons, hi.blocked, hs', List.reverse_append, ← hr]
          rfl
      · rw [hlog, List.pairwise_cons]
        refine ⟨fun x hx hxw => ?_, hi.newest⟩
        by_contra hxd
        have := hi.writer_mem hx (by simpa using hxd)
        rw [hxw, ← hr] at this
        exact hfree _ this
      · rw [hlog] at hx
        rcases List.mem_cons.1 hx with rfl | hx
        · rcases hcase with ⟨-, hlt⟩ | ⟨-, hlt, hloc, hb, hl⟩
          · rw [hdone.2 hlt] at hxd; cases hxd
          · rw [← hr]
            refine ⟨?_, ?_, ⟨buf, ?_, ?_⟩, ?_⟩
            · rw [hpcb', hloc]; omega
            · rw [hpcb', hloc, hl]; exact hlt
            · rw [hpcb', hb]
            · rw [hpcb', hl, hkbuf]
            · rw [hpcb', hloc, Int.toNat_natCast]; exact htake
        · exact (hi.progress x hx hxd).congr_pcb (hpcb _ (hne (hi.writer_mem hx hxd)))
            fun b _ => by rw [hkbuf]
      · rw [hother _ (by simp)] at hx
        rw [hpcb x (hne hx)]
        exact hi.reader x hx
    · exact (h.pipe j).other e htouch (hother _ (by simpa using e)) (hother _ (by simp)) (hfree _)
        (hfree _) fun _ _ b _ => by rw [hkbuf]
  · rw [hother _ (by simp)] at hx
    rw [hpcb x (hne hx)]
    rcases hmem _ _ hw with hw | ⟨-, -, hw, hb⟩
    · rw [hpcb w (hne hw)]
      exact h.apart j₁ j₂ x hx w hw
    · rw [hw, hb]
      exact hbuf j₁ x hx

/-- The caller has put all its bytes. -/
theorem PipesInv.writeDone (h : PipesInv hw k s) (hfree : ∀ l, k.current_process ∉ s l)
    {pipe : Pipe} {buf : BufPtr} {len : Int} {m : Nat} {k₁ : Kernel} (hp : k.pipe i = some pipe)
    (hm : m = min (hw.PIPE_BUFFER_LEN - pipe.bytes_in_buffer).toNat len.toNat)
    (hlt : ¬ (m : Int) < len)
    (hbuf : ∀ j, ∀ r ∈ s (.wait (.pipeReaders j)), (k.pcb r).pipe_buffer ≠ some buf)
    (hk₁ : k₁ = Yalnix.writeNow hw k i pipe buf len m (pcbDoneWrite (k.pcb k.current_process) len m)
      k.queues) : PipesInv hw k₁ s := by
  have hc : Coherent k₁ s := h.coherent.congr (by rw [hk₁]; rfl) (by rw [hk₁]; rfl) fun q => by
    rw [hk₁]
    by_cases e : q = k.current_process
    · subst e; simp [Yalnix.writeNow, pcbDoneWrite]
    · simp [Yalnix.writeNow, e]
  exact h.writeNow hfree hp hm hbuf hk₁ hc (fun _ _ => rfl) (Or.inl ⟨rfl, hlt⟩)

/-- A new pipe is empty. -/
theorem PipesInv.init (h : PipesInv hw k s) {idp rc : Int} {allocated : Bool}
    {buffer : Nat → UInt8} (hrun : syncInitPipe k idp allocated buffer = some (rc, k')) :
    PipesInv hw k' s := by
  unfold syncInitPipe at hrun
  obtain ⟨hc, ht⟩ := syncInit_keeps h.coherent h.table (by simp [WaitList.slot]) hrun
  rcases syncInit_cases hrun with rfl | ⟨i, hi, hfree, hk'⟩
  · exact h
  · have hself : k'.pipe i = some (newPipe buffer) := by
      rw [hk']; simp [Kernel.pipe, SyncObject.asPipe]
    have hother : ∀ j, j ≠ i → k'.pipe j = k.pipe j := fun j e => by
      rw [hk']; simp [Kernel.pipe, e]
    have hnone : k.pipe i = none := by
      cases hp : k.pipe i with
      | none => rfl
      | some pipe =>
        obtain ⟨o, ho, -⟩ := pipe_eq_some hp
        rw [h.table.used _ o ho] at hfree
        cases hfree
    have hhist : k'.pipeHistory = k.pipeHistory := by rw [hk']
    have hpcb : k'.pcb = k.pcb := by rw [hk']
    have hkbuf : k'.kbuf = k.kbuf := by rw [hk']
    refine ⟨hc, ht, fun j => ?_, by rw [hpcb]; exact h.apart, by rw [hk']; exact h.live⟩
    have hj := h.pipe j
    have hrest : ∀ r ∈ writeLog j k'.pipeHistory, r.done = false → InProgress k' r := by
      rw [hhist]
      exact fun r hr hd => (hj.progress r hr hd).congr_pcb (by rw [hpcb]) fun b _ => by rw [hkbuf]
    by_cases e : j = i
    · subst e
      obtain ⟨h1, h2, h3⟩ := history_other (h := []) (hj.fresh hnone)
      refine ⟨fun hn => (by rw [hself] at hn; cases hn), fun pipe hp => ?_, fun pipe hp => ?_,
        by rw [hhist]; exact hj.blocked, by rw [hhist]; exact hj.newest, hrest,
        by rw [hpcb]; exact hj.reader⟩
      · rw [hself, Option.some.injEq] at hp
        subst hp
        exact ⟨by simp [newPipe], by simp [newPipe], hw.pipe_pos, by simp [newPipe]⟩
      · rw [hself, Option.some.injEq] at hp
        subst hp
        rw [hhist, ← List.nil_append k.pipeHistory, h1, h2]
        rfl
    · exact ⟨by rw [hother j e, hhist]; exact hj.fresh, by rw [hother j e]; exact hj.valid,
        by rw [hother j e, hhist]; exact hj.stream, by rw [hhist]; exact hj.blocked,
        by rw [hhist]; exact hj.newest, hrest, by rw [hpcb]; exact hj.reader⟩

/-! ## Calls -/

/-- What a read call leaves: it blocks, or the drain loops run after it. -/
theorem PipesInv.readPipe (h : PipesInv hw k s) (hfree : ∀ l, k.current_process ∉ s l)
    (hidle : k.current_process ≠ k.idle_process) {id len rc : Int} {buf : BufPtr} (hlen : 0 ≤ len)
    (hbuf : ∀ j, ∀ w ∈ s (.wait (.pipeWriters j)), (k.pcb w).pipe_buffer ≠ some buf)
    (hrun : syncReadPipe hw k id buf len = some (rc, k')) : ∃ i k₁ s₁ s', PipesInv hw k₁ s₁ ∧
      (∀ q, q ≠ k.current_process → k₁.pcb q = k.pcb q) ∧
      (∀ j, s₁ (.wait (.pipeWriters j)) = s (.wait (.pipeWriters j))) ∧
      (∀ j, writeLog j k₁.pipeHistory = writeLog j k.pipeHistory) ∧ Drain hw i k₁ s₁ k' s' := by
  cases readPipe_cases h.coherent (fun i => (h.pipe i).valid) hfree hidle hlen hrun with
  | error => exact ⟨0, k, s, s, h, fun _ _ => rfl, fun _ => rfl, fun _ => rfl, .refl _ _⟩
  | @blocked i pipe q hp hempty hc =>
    exact ⟨i, _, _, _, h.readBlocked hfree hp hlen hbuf hc, fun q hq => by simp [Yalnix.readBlocked, hq],
      fun j => by simp, fun j => by simp [Yalnix.readBlocked, writeLog_append, logEvent], .refl _ _⟩
  | @taken i n m pipe k' hp hne hn hdrain =>
    have h₁ : PipesInv hw (Yalnix.readNow hw k i pipe buf len n) s :=
      h.readNow hfree hp (by omega) hbuf
    obtain ⟨s', hd, -⟩ := (drain_steps m _ s h₁.coherent).1 k' hdrain
    exact ⟨i, _, s, s', h₁, fun q hq => by simp [Yalnix.readNow, hq], fun _ => rfl,
      fun j => by simp [Yalnix.readNow, writeLog_append, logEvent], hd⟩

/-- What a write call leaves: the caller is done, or it is blocked with the rest; then the drain loops
run. -/
theorem PipesInv.writePipe (h : PipesInv hw k s) (hfree : ∀ l, k.current_process ∉ s l)
    (hidle : k.current_process ≠ k.idle_process) {id len rc : Int} {buf : BufPtr}
    (hbuf : ∀ j, ∀ r ∈ s (.wait (.pipeReaders j)), (k.pcb r).pipe_buffer ≠ some buf)
    (hrun : syncWritePipe hw k id buf len = some (rc, k')) : (k' = k ∧ writable k id = false) ∨
      writable k id = true ∧ ∃ i : Nat, id = i ∧ ∃ k₁ s₁ s', PipesInv hw k₁ s₁ ∧
      (∀ q, q ≠ k.current_process → k₁.pcb q = k.pcb q) ∧
      (∃ out, k₁.pipeHistory = k.pipeHistory ++
        [.writeCall i k.current_process ((List.range len.toNat).map (k.kbuf buf)),
          .accepted i k.current_process out]) ∧ Drain hw i k₁ s₁ k' s' ∧
      ((s₁ = s ∧ (k₁.pcb k.current_process).user_context.regs 0 = len) ∨
        (s₁ = Function.update s (.wait (.pipeWriters i))
            (s (.wait (.pipeWriters i)) ++ [k.current_process]) ∧
          (k₁.pcb k.current_process).user_context = (k.pcb k.current_process).user_context ∧
          (k₁.pcb k.current_process).pipe_len = len)) := by
  cases writePipe_cases h.coherent hfree hidle hrun with
  | error hno => exact Or.inl ⟨rfl, hno⟩
  | @blocked i m n pipe q k₁ k' hopen hp hm hlt hk₁ hc hdrain =>
    have h₁ := h.writeNow hfree hp hm hbuf hk₁ hc (fun v hv => by simp [hv])
      (Or.inr ⟨by simp, hlt, rfl, rfl, rfl⟩)
    obtain ⟨s', hd, -⟩ := (drain_steps n _ _ h₁.coherent).2 k' hdrain
    refine Or.inr ⟨hopen, i, rfl, k₁, _, s', h₁,
      fun q hq => by rw [hk₁]; simp [Yalnix.writeNow, hq], ⟨_, by rw [hk₁]; rfl⟩, hd,
      Or.inr ⟨rfl, ?_, ?_⟩⟩
    · rw [hk₁]; simp [Yalnix.writeNow, pcbBlockedWrite]
    · rw [hk₁]; simp [Yalnix.writeNow, pcbBlockedWrite]
  | @done i m n pipe k₁ k' hopen hp hm hlt hk₁ hdrain =>
    have h₁ := h.writeDone hfree hp hm hlt hbuf hk₁
    obtain ⟨s', hd, -⟩ := (drain_steps n _ _ h₁.coherent).2 k' hdrain
    refine Or.inr ⟨hopen, i, rfl, k₁, _, s', h₁,
      fun q hq => by rw [hk₁]; simp [Yalnix.writeNow, hq], ⟨_, by rw [hk₁]; rfl⟩, hd,
      Or.inl ⟨rfl, ?_⟩⟩
    rw [hk₁]
    simp [Yalnix.writeNow, pcbDoneWrite]

/-! ## When a write is reported -/

/-- The drain loops leave the other processes alone. -/
theorem Drain.off (hd : Drain hw i k s k' s') {p : PcbPtr} (hr : p ∉ s (.wait (.pipeReaders i)))
    (hw' : p ∉ s (.wait (.pipeWriters i))) :
    k'.pcb p = k.pcb p ∧ ∀ l, p ∈ s' l → p ∈ s l := by
  refine hd.invariant (I := fun k' s' => k'.pcb p = k.pcb p ∧ ∀ l, p ∈ s' l → p ∈ s l)
    (fun k₁ s₁ k₂ s₂ h₁ hstep => ?_) ⟨rfl, fun _ => id⟩
  obtain ⟨hpcb, hsub⟩ := h₁
  cases hstep with
  | @serve r xs pipe k₂ q hs hp hpos hrun hc =>
    have hne : p ≠ r := fun e => hr (hsub _ (by rw [hs, e]; simp))
    obtain ⟨-, -, hframe⟩ := serveReader_frame hrun
    refine ⟨?_, fun l hl => ?_⟩
    · simp [Kernel.setState, Kernel.modifyPcb, hne, hframe p hne, hpcb]
    · rcases mem_woken hs hl with hl | ⟨e, -⟩
      · exact hsub l hl
      · exact absurd e hne
  | @finish w xs pipe k₂ q hs hp hrun hdone hc =>
    have hne : p ≠ w := fun e => hw' (hsub _ (by rw [hs, e]; simp))
    obtain ⟨-, -, hframe⟩ := fillFromWriter_frame hrun
    refine ⟨?_, fun l hl => ?_⟩
    · simp [finishWriter, Kernel.setReg0, Kernel.setState, Kernel.modifyPcb, hne, hframe p hne, hpcb]
    · rcases mem_woken hs hl with hl | ⟨e, -⟩
      · exact hsub l hl
      · exact absurd e hne
  | @refill w xs pipe k₂ q hs hp hrun hleft hc =>
    have hne : p ≠ w := fun e => hw' (hsub _ (by rw [hs, e]; simp))
    obtain ⟨-, -, hframe⟩ := fillFromWriter_frame hrun
    exact ⟨(hframe p hne).trans hpcb, hsub⟩

/-- A blocked writer gets its result when it leaves the list, and not before. -/
theorem Drain.writer (hd : Drain hw i k s k' s') (h : PipesInv hw k s) {w : PcbPtr}
    (hmem : w ∈ s (.wait (.pipeWriters i))) :
    (w ∈ s' (.wait (.pipeWriters i)) ∧ (k'.pcb w).user_context = (k.pcb w).user_context) ∨
    (w ∉ s' (.wait (.pipeWriters i)) ∧ (k'.pcb w).user_context.regs 0 = (k.pcb w).pipe_len) := by
  induction hd with
  | refl => exact Or.inl ⟨hmem, rfl⟩
  | @head k k₁ k' s s₁ s' hstep hrest ih =>
    have h₁ := h.drainStep hstep
    -- a step that leaves `w` where it is
    have hstay : w ∈ s₁ (.wait (.pipeWriters i)) →
        (k₁.pcb w).user_context = (k.pcb w).user_context →
        (k₁.pcb w).pipe_len = (k.pcb w).pipe_len →
        (w ∈ s' (.wait (.pipeWriters i)) ∧ (k'.pcb w).user_context = (k.pcb w).user_context) ∨
        (w ∉ s' (.wait (.pipeWriters i)) ∧
          (k'.pcb w).user_context.regs 0 = (k.pcb w).pipe_len) := by
      intro hm huc hl
      rw [← huc, ← hl]
      exact ih h₁ hm
    have hcoh := h.coherent
    cases hstep with
    | @serve r xs pipe k₂ q hs hp hpos hrun hc =>
      have hne : w ≠ r := by
        rintro rfl
        have hr : w ∈ s (.wait (.pipeReaders i)) := by simp [hs]
        have := hcoh.unique hr hmem
        simp at this
      obtain ⟨-, -, hframe⟩ := serveReader_frame hrun
      have hpcb : (({ k₂.setState r .processReady with queues := q } : Kernel)).pcb w = k.pcb w := by
        simp [Kernel.setState, Kernel.modifyPcb, hne, hframe w hne]
      exact hstay (by rw [woken_ne (by simp)]; exact hmem) (by rw [hpcb]) (by rw [hpcb])
    | @finish w₀ xs pipe k₂ q hs hp hrun hdone hc =>
      obtain ⟨m, out, newer, r, older, hf⟩ := h.filled hs hrun
      by_cases e : w = w₀
      · subst e
        have hoff : ∀ v, w ∉ woken s (.pipeWriters i) w xs (.wait v) := fun v hv =>
          ne_of_mem_woken hcoh hs hv rfl
        obtain ⟨hpcb, hsub⟩ := hrest.off (hoff _) (hoff _)
        refine Or.inr ⟨fun hn => hoff _ (hsub _ hn), ?_⟩
        rw [hpcb]
        simp [finishWriter, Kernel.setReg0, Kernel.setState, Kernel.modifyPcb, hf.state]
      · obtain ⟨-, -, hframe⟩ := fillFromWriter_frame hrun
        have hpcb : (({ (finishWriter k₂ w₀).setState w₀ .processReady with queues := q } :
            Kernel)).pcb w = k.pcb w := by
          simp [finishWriter, Kernel.setReg0, Kernel.setState, Kernel.modifyPcb, e, hframe w e]
        refine hstay ?_ (by rw [hpcb]) (by rw [hpcb])
        rw [woken_self]
        rw [hs, List.mem_cons] at hmem
        exact hmem.resolve_left e
    | @refill w₀ xs pipe k₂ q hs hp hrun hleft hc =>
      obtain ⟨m, out, newer, r, older, hf⟩ := h.filled hs hrun
      refine hstay hmem ?_ ?_
      · by_cases e : w = w₀
        · subst e; simp [hf.state]
        · simp [hf.state, e]
      · by_cases e : w = w₀
        · subst e; simp [hf.state]
        · simp [hf.state, e]

end Yalnix
