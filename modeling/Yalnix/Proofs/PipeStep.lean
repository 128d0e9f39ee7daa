import Yalnix.Proofs.Drain
import Yalnix.Proofs.PipeLoop
import Yalnix.Proofs.WriteLog

/-!
# One step at a pipe

The steps of the drain loops keep the invariant of the pipes: bytes move between the history and the
buffer, and the write of the first writer grows.
-/

namespace Yalnix

open Intrusive

variable {hw : Hardware} {k k' : Kernel} {s s' : QueueId → List PcbPtr} {i j : Nat} {p : PcbPtr}

/-! ## The pipe in a slot -/

theorem pipe_eq_some {pipe : Pipe} (h : k.pipe i = some pipe) :
    ∃ o, k.sync_table i = some o ∧ o.object = .pipe pipe := by
  unfold Kernel.pipe at h
  rw [Option.bind_eq_some_iff] at h
  obtain ⟨o, ho, hpipe⟩ := h
  refine ⟨o, ho, ?_⟩
  unfold SyncObject.asPipe at hpipe
  split at hpipe
  · rename_i p heq
    rw [heq, Option.some.inj hpipe]
  · cases hpipe

theorem pipe_setObject {pipe : Pipe} (h : k.pipe i = some pipe) (x : SyncObject) :
    (k.setObject i x).pipe i = x.asPipe := by
  obtain ⟨o, ho, -⟩ := pipe_eq_some h
  simp [Kernel.pipe, Kernel.setObject, ho]

/-- A pipe stays a pipe. -/
theorem SyncTable.setPipe (h : SyncTable k s) {pipe : Pipe} (hp : k.pipe i = some pipe)
    (new : Pipe) : SyncTable (k.setObject i (.pipe new)) s := by
  obtain ⟨o, ho, hobj⟩ := pipe_eq_some hp
  refine h.setObject ho fun w hw => ?_
  rw [hobj] at hw
  cases w <;> exact hw

/-! ## What a step changes -/

/-- Serving a reader, written out. -/
theorem serveReader_eq {pipe : Pipe} {r : PcbPtr} {d : BufPtr}
    (hd : (k.pcb r).pipe_buffer = some d) (hlive : k.kbufFreed d = false)
    (hlt : pipe.read_pos < hw.PIPE_BUFFER_LEN) :
    ∀ n : Nat, n = (min (k.pcb r).pipe_len pipe.bytes_in_buffer).toNat →
    serveReader hw k i pipe r = some { k with
      pcb := Function.update k.pcb r { k.pcb r with
        user_context := (k.pcb r).user_context.setReg0 (min (k.pcb r).pipe_len pipe.bytes_in_buffer)
        waiting_pipe_id := -1
        state := .processDefault }
      sync_table := (k.setObject i (.pipe (pipe.drop hw n))).sync_table
      kbuf := Function.update k.kbuf d (readLoop hw 1 pipe (k.kbuf d) 0 n).2.1
      pipeHistory := k.pipeHistory ++
        [.delivered i r (Ring.contents hw.PIPE_BUFFER_LEN pipe.buffer pipe.read_pos n)] } := by
  rintro n rfl
  have hmin : (if (k.pcb r).pipe_len < pipe.bytes_in_buffer then (k.pcb r).pipe_len
      else pipe.bytes_in_buffer) = min (k.pcb r).pipe_len pipe.bytes_in_buffer := by omega
  unfold serveReader
  rw [hd]
  simp only [Option.bind_eq_bind, Option.bind_some, hmin, hlive, Bool.false_eq_true, and_false, if_false,
    readLoop_eq 1 _ 0 _ hlt, Option.pure_def, Option.some.injEq]
  apply Kernel.ext <;> try rfl
  · funext q
    by_cases e : q = r
    · subst e; simp [Kernel.modifyPcb, Kernel.setReg0, Kernel.record, Kernel.setObject]
    · simp [Kernel.modifyPcb, Kernel.setReg0, Kernel.record, Kernel.setObject, e]
  · simp [Kernel.modifyPcb, Kernel.setReg0, Kernel.record, Kernel.setObject, Pipe.drop]

/-- Filling from a writer, written out. -/
theorem fillFromWriter_eq {pipe : Pipe} {w : PcbPtr} {b : BufPtr}
    (hb : (k.pcb w).pipe_buffer = some b) (hlive : k.kbufFreed b = false) (hloc : 0 ≤ (k.pcb w).write_loc) :
    ∀ m : Nat, m = min (hw.PIPE_BUFFER_LEN - pipe.bytes_in_buffer).toNat
      ((k.pcb w).pipe_len - (k.pcb w).write_loc).toNat →
    ∀ out, out = (List.range m).map (fun j => k.kbuf b ((k.pcb w).write_loc.toNat + j)) →
    fillFromWriter hw k i pipe w = some { k with
      pcb := Function.update k.pcb w { k.pcb w with write_loc := (k.pcb w).write_loc + m }
      sync_table := (k.setObject i (.pipe (pipe.putAll hw out))).sync_table
      pipeHistory := k.pipeHistory ++ [.accepted i w out] } := by
  rintro m hm out rfl
  unfold fillFromWriter
  rw [hb]
  have hloop : writeLoop hw (fun pipe _ => pipe.bytes_in_buffer < hw.PIPE_BUFFER_LEN) (k.kbuf b)
      (k.pcb w).pipe_len pipe 0 (k.pcb w).write_loc _ = _ := writeLoop_eq (by simp) hloc rfl m hm
  simp only [Option.bind_eq_bind, Option.bind_some, hloop, hlive, Bool.false_eq_true, and_false, if_false]
  rfl

/-- What happens at one pipe with one process, seen from the other pipes. -/
structure PipeTouch (i : Nat) (p : PcbPtr) (k k' : Kernel) : Prop where
  pcb : ∀ q, q ≠ p → k'.pcb q = k.pcb q
  table : ∀ j, j ≠ i → k'.sync_table j = k.sync_table j
  history : ∃ evs, k'.pipeHistory = k.pipeHistory ++ evs ∧ ∀ e ∈ evs, e.slot = i

/-- A write in progress goes on as long as its writer and its buffer are left alone. -/
theorem InProgress.congr {r : Write} (h : InProgress k r)
    (hbuffer : (k'.pcb r.writer).pipe_buffer = (k.pcb r.writer).pipe_buffer)
    (hlen : (k'.pcb r.writer).pipe_len = (k.pcb r.writer).pipe_len)
    (hloc : (k'.pcb r.writer).write_loc = (k.pcb r.writer).write_loc)
    (hkbuf : ∀ b, (k.pcb r.writer).pipe_buffer = some b → k'.kbuf b = k.kbuf b) :
    InProgress k' r := by
  obtain ⟨h1, h2, ⟨b, hb, h3⟩, h4⟩ := h
  refine ⟨by rw [hloc]; exact h1, by rw [hloc, hlen]; exact h2,
    ⟨b, by rw [hbuffer]; exact hb, ?_⟩, by rw [hloc]; exact h4⟩
  rw [hlen, hkbuf b hb]
  exact h3

theorem InProgress.congr_pcb {r : Write} (h : InProgress k r)
    (hpcb : k'.pcb r.writer = k.pcb r.writer)
    (hkbuf : ∀ b, (k.pcb r.writer).pipe_buffer = some b → k'.kbuf b = k.kbuf b) :
    InProgress k' r :=
  h.congr (by rw [hpcb]) (by rw [hpcb]) (by rw [hpcb]) hkbuf

/-- A write that is not done is that of a blocked writer. -/
theorem PipeInv.writer_mem (h : PipeInv hw k s i) {r : Write}
    (hr : r ∈ writeLog i k.pipeHistory) (hdone : r.done = false) :
    r.writer ∈ s (.wait (.pipeWriters i)) := by
  have : r.writer ∈ ((writeLog i k.pipeHistory).filter (!·.done)).map Write.writer :=
    List.mem_map_of_mem (List.mem_filter.2 ⟨hr, by simp [hdone]⟩)
  rw [h.blocked] at this
  simpa using this

/-- The other pipes do not notice. -/
theorem PipeInv.other (h : PipeInv hw k s j) (hj : j ≠ i) (ht : PipeTouch i p k k')
    (hw' : s' (.wait (.pipeWriters j)) = s (.wait (.pipeWriters j)))
    (hr' : s' (.wait (.pipeReaders j)) = s (.wait (.pipeReaders j)))
    (hpw : p ∉ s (.wait (.pipeWriters j))) (hpr : p ∉ s (.wait (.pipeReaders j)))
    (hkbuf : ∀ w ∈ s (.wait (.pipeWriters j)), ∀ b, (k.pcb w).pipe_buffer = some b →
      k'.kbuf b = k.kbuf b) : PipeInv hw k' s' j := by
  obtain ⟨evs, hevs, hslot⟩ := ht.history
  obtain ⟨h1, h2, h3⟩ := history_other (h := k.pipeHistory) fun e he => (hslot e he).trans_ne hj.symm
  have hpipe : k'.pipe j = k.pipe j := by rw [Kernel.pipe, ht.table j hj, Kernel.pipe]
  refine ⟨fun hn e he => ?_, fun pipe hp => h.valid pipe (hpipe ▸ hp), fun pipe hp => ?_, ?_, ?_,
    fun r hr hd => ?_, fun r hr => ?_⟩
  · rw [hevs] at he
    rcases List.mem_append.1 he with he | he
    · exact h.fresh (hpipe ▸ hn) e he
    · rw [hslot e he]
      exact hj.symm
  · rw [hevs, h1, h2]
    exact h.stream pipe (hpipe ▸ hp)
  · rw [hevs, h3, hw']
    exact h.blocked
  · rw [hevs, h3]
    exact h.newest
  · rw [hevs, h3] at hr
    have hmem := h.writer_mem hr hd
    have hne : r.writer ≠ p := fun e => hpw (e ▸ hmem)
    exact (h.progress r hr hd).congr_pcb (ht.pcb _ hne) (hkbuf _ hmem)
  · rw [hr'] at hr
    have hne : r ≠ p := fun e => hpr (e ▸ hr)
    rw [ht.pcb r hne]
    exact h.reader r hr

/-! ## The steps of the drain loops -/

theorem PipesInv.serve (h : PipesInv hw k s) {r : PcbPtr} {xs : List PcbPtr} {pipe : Pipe}
    {k₁ : Kernel} {q : Heap QueueId PcbPtr} (hs : s (.wait (.pipeReaders i)) = r :: xs)
    (hp : k.pipe i = some pipe) (hrun : serveReader hw k i pipe r = some k₁)
    (hc : Coherent { k₁.setState r .processReady with queues := q }
      (woken s (.pipeReaders i) r xs)) :
    PipesInv hw { k₁.setState r .processReady with queues := q }
      (woken s (.pipeReaders i) r xs) := by
  have hr : r ∈ s (.wait (.pipeReaders i)) := by simp [hs]
  have hi := h.pipe i
  have hv := hi.valid pipe hp
  obtain ⟨d, hd, hlen⟩ := hi.reader r hr
  rw [serveReader_eq hd (h.live d) hv.read_lt _ rfl] at hrun
  generalize hn : (min (k.pcb r).pipe_len pipe.bytes_in_buffer).toNat = n at hrun
  have hn' : (n : Int) ≤ pipe.bytes_in_buffer := by have := hv.nonneg; omega
  generalize hk' : ({ k₁.setState r .processReady with queues := q } : Kernel) = k' at hc ⊢
  obtain rfl := (Option.some.inj hrun).symm
  have htable : k'.sync_table = (k.setObject i (.pipe (pipe.drop hw n))).sync_table := by
    rw [← hk']; rfl
  have hhist : k'.pipeHistory = k.pipeHistory ++ [.delivered i r
      (Ring.contents hw.PIPE_BUFFER_LEN pipe.buffer pipe.read_pos n)] := by rw [← hk']; rfl
  have htouch : PipeTouch i r k k' := by
    refine ⟨fun q hq => ?_, fun j hj => ?_, _, hhist, by simp [PipeEvent.slot]⟩
    · rw [← hk']; simp [Kernel.setState, Kernel.modifyPcb, hq]
    · rw [htable]; simp [Kernel.setObject, hj]
  have hkbuf : ∀ b, b ≠ d → k'.kbuf b = k.kbuf b := fun b hb => by
    rw [← hk']; simp [Kernel.setState, Kernel.modifyPcb, hb]
  have hkw : ∀ j, ∀ w ∈ s (.wait (.pipeWriters j)), ∀ b, (k.pcb w).pipe_buffer = some b →
      k'.kbuf b = k.kbuf b := fun j w hw b hb =>
    hkbuf b fun e => h.apart i j r hr w hw (by rw [hd, hb, e])
  have hnw : ∀ j, r ∉ s (.wait (.pipeWriters j)) := fun j hj => by
    have := h.coherent.unique hj hr
    simp at this
  have hwr : ∀ j, woken s (.pipeReaders i) r xs (.wait (.pipeWriters j)) =
      s (.wait (.pipeWriters j)) := fun j => woken_ne (by simp)
  have hpipe' : k'.pipe i = some (pipe.drop hw n) := by
    rw [Kernel.pipe, htable]
    exact pipe_setObject hp _
  refine ⟨hc, ?_, fun j => ?_, fun j₁ j₂ r' hr' w hw' => ?_, by rw [← hk']; exact h.live⟩
  · exact (h.table.setPipe hp _).woken hs htable (by rw [← hk']; rfl)
  · by_cases e : j = i
    · subst e
      refine ⟨fun hn => (by rw [hpipe'] at hn; cases hn), fun pipe' hp' => ?_,
        fun pipe' hp' => ?_, ?_, ?_, fun r' hr' hdone => ?_, fun r' hr' => ?_⟩
      · rw [hpipe', Option.some.injEq] at hp'
        exact hp' ▸ hv.drop hn'
      · rw [hpipe', Option.some.injEq] at hp'
        subst hp'
        have hstream := hi.stream pipe hp
        rw [← hv.contents_drop hn', ← List.append_assoc] at hstream
        rw [hhist, deliveredBytes_append, acceptedBytes_append]
        simpa [deliveredBytes, acceptedBytes] using hstream
      · rw [hhist, writeLog_append, hwr]
        exact hi.blocked
      · rw [hhist, writeLog_append]
        exact hi.newest
      · rw [hhist, writeLog_append] at hr'
        have hmem := hi.writer_mem hr' hdone
        exact (hi.progress r' hr' hdone).congr_pcb
          (htouch.pcb _ fun e => hnw j (e ▸ hmem)) (hkw j _ hmem)
      · rw [htouch.pcb r' (ne_of_mem_woken h.coherent hs hr')]
        exact hi.reader r' (mem_of_mem_woken hs hr')
    · exact (h.pipe j).other e htouch (hwr j) (woken_ne (by simpa using e)) (hnw j)
        (fun hj => e (by simpa using h.coherent.unique hj hr)) (hkw j)
  · rw [hwr] at hw'
    rw [htouch.pcb r' (ne_of_mem_woken h.coherent hs hr'),
      htouch.pcb w fun e => hnw j₂ (e ▸ hw')]
    exact h.apart j₁ j₂ r' (mem_of_mem_woken hs hr') w hw'

/-- A prefix of the images of a range, and the images that follow. -/
theorem take_append_range {α : Type} (f : Nat → α) {a m n : Nat} (h : a + m ≤ n) :
    ((List.range n).map f).take a ++ (List.range m).map (fun j => f (a + j)) =
      ((List.range n).map f).take (a + m) := by
  have htake : ∀ b, b ≤ n → ((List.range n).map f).take b = (List.range b).map f := fun b hb => by
    rw [← List.map_take, List.take_range, Nat.min_eq_left hb]
  rw [htake a (by omega), htake (a + m) h, List.range_add, List.map_append, List.map_map]
  rfl

/-- The first blocked writer fills the buffer: the bytes it puts are the next ones of its write. -/
structure Filled (hw : Hardware) (i : Nat) (k : Kernel) (pipe : Pipe) (w : PcbPtr)
    (xs : List PcbPtr) (k₁ : Kernel) (m : Nat) (out : List UInt8) (newer : List Write) (r : Write)
    (older : List Write) : Prop where
  amount : m = min (hw.PIPE_BUFFER_LEN - pipe.bytes_in_buffer).toNat
    ((k.pcb w).pipe_len - (k.pcb w).write_loc).toNat
  length : out.length = m
  state : k₁ = { k with
    pcb := Function.update k.pcb w { k.pcb w with write_loc := (k.pcb w).write_loc + m }
    sync_table := (k.setObject i (.pipe (pipe.putAll hw out))).sync_table
    pipeHistory := k.pipeHistory ++ [.accepted i w out] }
  log : writeLog i k.pipeHistory = newer ++ r :: older
  writer : r.writer = w
  undone : r.done = false
  older_done : ∀ x ∈ older, x.done = true
  newer_ne : ∀ x ∈ newer, x.writer ≠ w
  newer_blocked : (newer.filter (!·.done)).map Write.writer = xs.reverse
  accepted : r.accepted ++ out = r.src.take ((k.pcb w).write_loc + m).toNat
  src_length : r.src.length = (k.pcb w).pipe_len.toNat

theorem PipesInv.filled (h : PipesInv hw k s) {w : PcbPtr} {xs : List PcbPtr} {pipe : Pipe}
    {k₁ : Kernel} (hs : s (.wait (.pipeWriters i)) = w :: xs)
    (hrun : fillFromWriter hw k i pipe w = some k₁) :
    ∃ m out newer r older, Filled hw i k pipe w xs k₁ m out newer r older := by
  have hi := h.pipe i
  have hblocked := hi.blocked
  rw [hs] at hblocked
  obtain ⟨newer, r, older, hlog, hdone, rfl, holder, hnewer, hmap⟩ := firstWrite hblocked hi.newest
  obtain ⟨hloc, hlt, ⟨b, hb, hsrc⟩, hacc⟩ := hi.progress r (by simp [hlog]) hdone
  have hfill : fillFromWriter hw k i pipe r.writer = _ := fillFromWriter_eq hb (h.live b) hloc _ rfl _ rfl
  rw [hrun, Option.some.injEq] at hfill
  refine ⟨_, _, newer, r, older, rfl, by simp, hfill, hlog, rfl, hdone, holder, hnewer, hmap, ?_,
    by simp [hsrc]⟩
  -- the bytes from `write_loc` on
  generalize hm : min (hw.PIPE_BUFFER_LEN - pipe.bytes_in_buffer).toNat
    ((k.pcb r.writer).pipe_len - (k.pcb r.writer).write_loc).toNat = m
  have hsum : ((k.pcb r.writer).write_loc + m).toNat = (k.pcb r.writer).write_loc.toNat + m := by
    omega
  rw [hacc, hsum, hsrc]
  exact take_append_range _ (by omega)

/-- The log after the fill: the write of `w` has grown by `out`. -/
theorem Filled.log_after {pipe : Pipe} {w : PcbPtr} {xs : List PcbPtr} {k₁ : Kernel} {m : Nat}
    {out : List UInt8} {newer older : List Write} {r : Write}
    (hf : Filled hw i k pipe w xs k₁ m out newer r older) :
    writeLog i k₁.pipeHistory = newer ++ { r with accepted := r.accepted ++ out } :: older := by
  have hhist : k₁.pipeHistory = k.pipeHistory ++ [.accepted i w out] := by rw [hf.state]
  rw [hhist, writeLog_append, hf.log]
  simp [logEvent, acceptFor_eq hf.writer hf.newer_ne]

/-- After the fill the writer has left with its write done, or is still in it. -/
theorem PipesInv.fill (h : PipesInv hw k s) {w : PcbPtr} {xs : List PcbPtr} {pipe : Pipe}
    {k₁ : Kernel} {m : Nat} {out : List UInt8} {newer older : List Write} {r : Write}
    (hs : s (.wait (.pipeWriters i)) = w :: xs) (hp : k.pipe i = some pipe)
    (hf : Filled hw i k pipe w xs k₁ m out newer r older) (hc : Coherent k' s')
    (htable : k'.sync_table = k₁.sync_table) (hhist : k'.pipeHistory = k₁.pipeHistory)
    (hkbuf : k'.kbuf = k.kbuf) (hused : k'.id_used = k.id_used) (hfreed : k'.kbufFreed = k.kbufFreed)
    (hpcb : ∀ q, q ≠ w → k'.pcb q = k.pcb q)
    (hsub : ∀ v n, n ∈ s' (.wait v) → n ∈ s (.wait v))
    (hreaders : ∀ j, s' (.wait (.pipeReaders j)) = s (.wait (.pipeReaders j)))
    (hwriters : ∀ j, j ≠ i → s' (.wait (.pipeWriters j)) = s (.wait (.pipeWriters j)))
    (hcase : (s' (.wait (.pipeWriters i)) = xs ∧
        ¬ (k.pcb w).write_loc + m < (k.pcb w).pipe_len ∧ w ∉ s' (.wait (.pipeWriters i))) ∨
      (s' (.wait (.pipeWriters i)) = w :: xs ∧ (k.pcb w).write_loc + m < (k.pcb w).pipe_len ∧
        k'.pcb w = { k.pcb w with write_loc := (k.pcb w).write_loc + m })) :
    PipesInv hw k' s' := by
  have hmem : w ∈ s (.wait (.pipeWriters i)) := by simp [hs]
  have hi := h.pipe i
  have hv := hi.valid pipe hp
  have hloc := hi.progress r (by simp [hf.log]) hf.undone
  obtain ⟨h1, h2, ⟨b, hb, h3⟩, -⟩ := hloc
  rw [hf.writer] at h1 h2 hb h3
  have hwr : ∀ j, w ∉ s (.wait (.pipeReaders j)) := fun j hj => by
    have := h.coherent.unique hj hmem
    simp at this
  have htable' : k'.sync_table = (k.setObject i (.pipe (pipe.putAll hw out))).sync_table := by
    rw [htable, hf.state]
  have hhist' : k'.pipeHistory = k.pipeHistory ++ [.accepted i w out] := by rw [hhist, hf.state]
  have htouch : PipeTouch i w k k' :=
    ⟨hpcb, fun j hj => by rw [htable']; simp [Kernel.setObject, hj], _, hhist',
      by simp [PipeEvent.slot]⟩
  have hpipe' : k'.pipe i = some (pipe.putAll hw out) := by
    rw [Kernel.pipe, htable']
    exact pipe_setObject hp _
  have hroom : pipe.bytes_in_buffer + out.length ≤ hw.PIPE_BUFFER_LEN := by
    have := hf.amount
    have := hv.le
    rw [hf.length]
    omega
  obtain ⟨hvalid, hcont, -⟩ := hv.putAll out hroom
  have hlog := hf.log_after
  rw [← hhist] at hlog
  generalize hr' : ({ r with accepted := r.accepted ++ out } : Write) = r' at hlog
  have hr'src : r'.src = r.src := by rw [← hr']
  have hr'w : r'.writer = w := by rw [← hr']; exact hf.writer
  have hr'acc : r'.accepted = r.src.take ((k.pcb w).write_loc + m).toNat := by
    rw [← hr']; exact hf.accepted
  -- the write is done when the source is used up
  have hdone : r'.done = true ↔ ¬ (k.pcb w).write_loc + m < (k.pcb w).pipe_len := by
    simp only [Write.done, decide_eq_true_eq, hr'acc, hr'src]
    constructor
    · intro e hlt
      have := congrArg List.length e
      rw [List.length_take, hf.src_length] at this
      omega
    · intro hlt
      exact List.take_of_length_le (by rw [hf.src_length]; omega)
  have hpw := hi.newest
  rw [hf.log, List.pairwise_append, List.pairwise_cons] at hpw
  refine ⟨hc, ?_, fun j => ?_, fun j₁ j₂ x hx y hy => ?_, fun b => hfreed ▸ h.live b⟩
  · exact (h.table.setPipe hp _).congr htable' hused fun v n hn => Or.inl (hsub v n hn)
  · by_cases e : j = i
    · subst e
      refine ⟨fun hn => (by rw [hpipe'] at hn; cases hn), fun pipe' hp' => ?_,
        fun pipe' hp' => ?_, ?_, ?_, fun x hx hxd => ?_, fun x hx => ?_⟩
      · rw [hpipe', Option.some.injEq] at hp'
        exact hp' ▸ hvalid
      · rw [hpipe', Option.some.injEq] at hp'
        subst hp'
        rw [hhist', deliveredBytes_append, acceptedBytes_append, hcont, ← hi.stream pipe hp]
        simp [deliveredBytes, acceptedBytes]
      · have holder : older.filter (!·.done) = [] :=
          List.filter_eq_nil_iff.2 fun x hx => by simp [hf.older_done x hx]
        rw [hlog, List.filter_append, List.filter_cons, holder, List.map_append, hf.newer_blocked]
        rcases hcase with ⟨hs', hlt, -⟩ | ⟨hs', hlt, -⟩
        · simp [hdone.2 hlt, hs']
        · have hnd : r'.done = false := by
            rw [Bool.eq_false_iff, Ne, hdone, not_not]; exact hlt
          simp [hnd, hs', hr'w]
      · rw [hlog, List.pairwise_append, List.pairwise_cons]
        exact ⟨hpw.1, ⟨fun x hx _ => hf.older_done x hx, hpw.2.1.2⟩, fun x hx y hy => by
          rcases List.mem_cons.1 hy with rfl | hy
          · exact fun e => absurd (e.symm.trans hr'w) (hf.newer_ne x hx)
          · exact fun _ => hf.older_done y hy⟩
      · rw [hlog] at hx
        rcases List.mem_append.1 hx with hx | hx
        · have hxlog : x ∈ writeLog j k.pipeHistory := by simp [hf.log, hx]
          exact (hi.progress x hxlog hxd).congr_pcb (hpcb _ (hf.newer_ne x hx))
            fun b _ => by rw [hkbuf]
        · rcases List.mem_cons.1 hx with rfl | hx
          · rcases hcase with ⟨-, hlt, -⟩ | ⟨-, hlt, hpcbw⟩
            · rw [hdone.2 hlt] at hxd; cases hxd
            · refine ⟨?_, ?_, ⟨b, ?_, ?_⟩, ?_⟩
              · rw [hr'w, hpcbw]; show 0 ≤ (k.pcb w).write_loc + m; omega
              · rw [hr'w, hpcbw]; exact hlt
              · rw [hr'w, hpcbw]; exact hb
              · rw [hr'w, hpcbw, hkbuf, hr'src]; exact h3
              · rw [hr'w, hpcbw, hr'src]; exact hr'acc
          · rw [hf.older_done x hx] at hxd; cases hxd
      · rw [hreaders] at hx
        rw [hpcb x fun e => hwr j (e ▸ hx)]
        exact hi.reader x hx
    · exact (h.pipe j).other e htouch (hwriters j e) (hreaders j)
        (fun hj => e (by simpa using h.coherent.unique hj hmem)) (hwr j) fun _ _ b _ => by rw [hkbuf]
  · rw [hreaders] at hx
    have hy' := hsub _ _ hy
    rw [hpcb x fun e => hwr j₁ (e ▸ hx)]
    by_cases ey : y = w
    · subst ey
      rcases hcase with ⟨-, -, hn⟩ | ⟨-, -, hpcbw⟩
      · have : j₂ = i := by simpa using h.coherent.unique hy' hmem
        subst this
        exact absurd hy hn
      · rw [hpcbw]
        exact h.apart j₁ j₂ x hx y hy'
    · rw [hpcb y ey]
      exact h.apart j₁ j₂ x hx y hy'

/-- Every step of the drain loops keeps the invariant. -/
theorem PipesInv.drainStep (h : PipesInv hw k s) (hstep : DrainStep hw i k s k' s') :
    PipesInv hw k' s' := by
  cases hstep with
  | serve hs hp hpos hrun hc => exact h.serve hs hp hrun hc
  | @finish w xs pipe k₁ q hs hp hrun hdone hc =>
    obtain ⟨m, out, newer, r, older, hf⟩ := h.filled hs hrun
    have hw : (k₁.pcb w).write_loc = (k.pcb w).write_loc + m ∧
        (k₁.pcb w).pipe_len = (k.pcb w).pipe_len := by rw [hf.state]; simp
    rw [hw.1, hw.2] at hdone
    refine h.fill hs hp hf hc rfl rfl (by rw [hf.state]; rfl) (by rw [hf.state]; rfl)
      (by rw [hf.state]; rfl) (fun q hq => ?_) (fun v n hn => mem_of_mem_woken hs hn) (fun j => woken_ne (by simp))
      (fun j hj => woken_ne (by simpa using hj))
      (Or.inl ⟨woken_self, hdone, fun hn => ne_of_mem_woken h.coherent hs hn rfl⟩)
    simp [finishWriter, Kernel.setState, Kernel.modifyPcb, Kernel.setReg0, hq, hf.state]
  | @refill w xs pipe k₁ q hs hp hrun hleft hc =>
    obtain ⟨m, out, newer, r, older, hf⟩ := h.filled hs hrun
    have hw : k₁.pcb w = { k.pcb w with write_loc := (k.pcb w).write_loc + m } := by
      rw [hf.state]; simp
    rw [hw] at hleft
    exact h.fill hs hp hf hc rfl rfl (by rw [hf.state]) (by rw [hf.state])
      (by rw [hf.state]) (fun q hq => by simp [hf.state, hq]) (fun _ _ hn => hn) (fun _ => rfl) (fun _ _ => rfl)
      (Or.inr ⟨hs, hleft, hw⟩)

theorem PipesInv.drain (h : PipesInv hw k s) (hd : Drain hw i k s k' s') : PipesInv hw k' s' :=
  hd.invariant (fun _ _ _ _ h hstep => h.drainStep hstep) h

end Yalnix
