import Yalnix.PipeOrder
import Yalnix.Proofs.PipeRun

/-!
# Writes in order

A write that finds no blocked writer, or no space, leaves the order of the accepted bytes that of the
calls.
-/

namespace Yalnix

open Intrusive Transition

variable {hw : Hardware} {k k' k₀ : Kernel} {s s' : QueueId → List PcbPtr} {i j : Nat}

/-- Parts of pieces make up a prefix of the pieces, when a piece is complete before the next begins. -/
theorem flatMap_prefix {α β : Type} {f g : α → List β} {ws : List α} (hfg : ∀ x ∈ ws, f x <+: g x)
    (hturn : ws.Pairwise fun older newer => f older = g older ∨ f newer = []) :
    ws.flatMap f <+: ws.flatMap g := by
  induction ws with
  | nil => exact List.nil_prefix
  | cons a ws ih =>
    obtain ⟨ha, hws⟩ := List.pairwise_cons.1 hturn
    rw [List.flatMap_cons, List.flatMap_cons]
    by_cases he : f a = g a
    · rw [he, List.prefix_append_right_inj]
      exact ih (fun x hx => hfg x (by simp [hx])) hws
    · have hnil : ws.flatMap f = [] :=
        List.flatMap_eq_nil_iff.2 fun x hx => (ha x hx).resolve_left he
      rw [hnil, List.append_nil]
      exact (hfg a (by simp)).trans (List.prefix_append _ _)

/-- The accepted bytes are those of the writes one after the other; a write has accepted bytes only when
all earlier ones are done. -/
structure InOrder (i : Nat) (h : List PipeEvent) : Prop where
  stream : acceptedBytes i h = (writeLog i h).reverse.flatMap Write.accepted
  turns : (writeLog i h).Pairwise fun newer older => older.done = true ∨ newer.accepted = []

theorem InOrder.congr {h h' : List PipeEvent} (ho : InOrder i h)
    (hacc : acceptedBytes i h' = acceptedBytes i h) (hlog : writeLog i h' = writeLog i h) :
    InOrder i h' := by
  refine ⟨?_, ?_⟩
  · rw [hacc, hlog]
    exact ho.stream
  · rw [hlog]
    exact ho.turns

/-- Events at another pipe. -/
theorem InOrder.other {h evs : List PipeEvent} (ho : InOrder i h) (hevs : ∀ e ∈ evs, e.slot ≠ i) :
    InOrder i (h ++ evs) := by
  obtain ⟨hacc, -, hlog⟩ := history_other (h := h) hevs
  exact ho.congr hacc hlog

/-- The first blocked writer fills the buffer: all earlier writes are done, and later ones have accepted
nothing. -/
theorem InOrder.fill (ho : InOrder i k.pipeHistory) (h : PipesInv hw k s) {w : PcbPtr}
    {xs : List PcbPtr} {pipe : Pipe} {k₁ : Kernel} (hs : s (.wait (.pipeWriters i)) = w :: xs)
    (hrun : fillFromWriter hw k i pipe w = some k₁) : InOrder i k₁.pipeHistory := by
  obtain ⟨m, out, newer, r, older, hf⟩ := h.filled hs hrun
  have hturns := ho.turns
  have hstream := ho.stream
  have hlog := hf.log_after
  have hhist : k₁.pipeHistory = k.pipeHistory ++ [.accepted i w out] := by rw [hf.state]
  rw [hf.log, List.pairwise_append, List.pairwise_cons] at hturns
  obtain ⟨hnewer, ⟨hr, holder⟩, hcross⟩ := hturns
  have hnil : ∀ x ∈ newer, x.accepted = [] := fun x hx => by
    rcases hcross x hx r (by simp) with hd | hn
    · rw [hf.undone] at hd
      cases hd
    · exact hn
  have hflat : newer.reverse.flatMap Write.accepted = [] :=
    List.flatMap_eq_nil_iff.2 fun x hx => hnil x (by simpa using hx)
  rw [hf.log] at hstream
  refine ⟨?_, ?_⟩
  · rw [hlog, hhist, acceptedBytes_append, hstream]
    simp [hflat, acceptedBytes]
  · rw [hlog, List.pairwise_append, List.pairwise_cons]
    refine ⟨hnewer, ⟨fun x hx => Or.inl (hf.older_done x hx), holder⟩, fun x hx y hy => ?_⟩
    exact Or.inr (hnil x hx)

theorem InOrder.drainStep (ho : InOrder i k.pipeHistory) (h : PipesInv hw k s)
    (hstep : DrainStep hw j k s k' s') : InOrder i k'.pipeHistory := by
  by_cases e : j = i
  · subst e
    cases hstep with
    | @serve r xs pipe k₁ q hs hp hpos hrun hc =>
      obtain ⟨⟨out, hhist⟩, -⟩ := serveReader_effect hrun
      refine ho.congr ?_ ?_
      · show acceptedBytes j k₁.pipeHistory = _
        rw [hhist, acceptedBytes_append]
        exact List.append_nil _
      · show writeLog j k₁.pipeHistory = _
        rw [hhist, writeLog_append]
        rfl
    | @finish w xs pipe k₁ q hs hp hrun hdone hc =>
      have hfill : InOrder j k₁.pipeHistory := ho.fill h hs hrun
      exact hfill
    | @refill w xs pipe k₁ q hs hp hrun hleft hc =>
      have hfill : InOrder j k₁.pipeHistory := ho.fill h hs hrun
      exact hfill
  · rcases hstep.effect.1 with ⟨r, out, hhist⟩ | ⟨w, out, hhist⟩
    · rw [hhist]
      exact ho.other (by simp [PipeEvent.slot, e])
    · rw [hhist]
      exact ho.other (by simp [PipeEvent.slot, e])

theorem InOrder.drain (ho : InOrder i k.pipeHistory) (h : PipesInv hw k s)
    (hd : Drain hw j k s k' s') : InOrder i k'.pipeHistory :=
  (hd.invariant (I := fun k s => PipesInv hw k s ∧ InOrder i k.pipeHistory)
    (fun _ _ _ _ h hstep => ⟨h.1.drainStep hstep, h.2.drainStep h.1 hstep⟩) ⟨h, ho⟩).2

/-! ## The calls -/

theorem InOrder.read (ho : InOrder i k.pipeHistory) (h : PipesInv hw k s)
    (hfree : ∀ l, k.current_process ∉ s l) (hidle : k.current_process ≠ k.idle_process)
    {id len rc : Int} {buf : BufPtr} (hlen : 0 ≤ len)
    (hbuf : ∀ j, ∀ w ∈ s (.wait (.pipeWriters j)), (k.pcb w).pipe_buffer ≠ some buf)
    (hrun : syncReadPipe hw k id buf len = some (rc, k')) : InOrder i k'.pipeHistory := by
  cases readPipe_cases h.coherent (fun i => (h.pipe i).valid) hfree hidle hlen hrun with
  | error => exact ho
  | @blocked j pipe q hp hempty hc =>
    refine ho.congr ?_ ?_
    · simp [readBlocked, acceptedBytes]
    · simp [readBlocked, writeLog_append, logEvent]
  | @taken j n m pipe k' hp hne hn hdrain =>
    have h₁ : PipesInv hw (readNow hw k j pipe buf len n) s := h.readNow hfree hp (by omega) hbuf
    obtain ⟨s', hd, -⟩ := (drain_steps m _ s h₁.coherent).1 k' hdrain
    have ho₁ : InOrder i (readNow hw k j pipe buf len n).pipeHistory := by
      refine ho.congr ?_ ?_
      · simp [readNow, acceptedBytes]
      · simp [readNow, writeLog_append, logEvent]
    exact ho₁.drain h₁ hd

/-- The new write has accepted nothing, or all earlier ones are done. -/
theorem InOrder.writeNow (ho : InOrder i k.pipeHistory) (h : PipesInv hw k s) {pipe : Pipe}
    {buf : BufPtr} {len : Int} {m : Nat} {pcb : Pcb} {q : Heap QueueId PcbPtr}
    (hm : m = min (hw.PIPE_BUFFER_LEN - pipe.bytes_in_buffer).toNat len.toNat)
    (hturn : j = i → 0 < len → s (.wait (.pipeWriters i)) = [] ∨
      pipe.bytes_in_buffer = hw.PIPE_BUFFER_LEN) :
    InOrder i (Yalnix.writeNow hw k j pipe buf len m pcb q).pipeHistory := by
  by_cases e : j = i
  · subst e
    have hlog : writeLog j (Yalnix.writeNow hw k j pipe buf len m pcb q).pipeHistory =
        ⟨k.current_process, (List.range len.toNat).map (k.kbuf buf),
          (List.range m).map (k.kbuf buf)⟩ :: writeLog j k.pipeHistory := by
      simp [Yalnix.writeNow, writeLog_append, logEvent, acceptFor]
    refine ⟨?_, ?_⟩
    · rw [hlog, List.reverse_cons, List.flatMap_append, ← ho.stream]
      simp [Yalnix.writeNow, acceptedBytes]
    · rw [hlog, List.pairwise_cons]
      refine ⟨fun x hx => ?_, ho.turns⟩
      by_cases hlen : 0 < len
      · rcases hturn rfl hlen with hnil | hfull
        · -- nobody is blocked, so every write is done
          left
          by_contra hd
          have := (h.pipe j).writer_mem hx (by simpa using hd)
          simp [hnil] at this
        · right
          have : m = 0 := by omega
          simp [this]
      · right
        have : m = 0 := by omega
        simp [this]
  · exact ho.other (by simp [PipeEvent.slot, e])

theorem InOrder.write (ho : InOrder i k.pipeHistory) (h : PipesInv hw k s)
    (hfree : ∀ l, k.current_process ∉ s l) (hidle : k.current_process ≠ k.idle_process)
    {id len rc : Int} {buf : BufPtr}
    (hbuf : ∀ j, ∀ r ∈ s (.wait (.pipeReaders j)), (k.pcb r).pipe_buffer ≠ some buf)
    (hturn : WriteInTurn hw i k (.call k.current_process (.writePipe id buf len)))
    (hrun : syncWritePipe hw k id buf len = some (rc, k')) : InOrder i k'.pipeHistory := by
  have hturn' : ∀ j pipe, k.pipe j = some pipe → id = j → j = i → 0 < len →
      s (.wait (.pipeWriters i)) = [] ∨ pipe.bytes_in_buffer = hw.PIPE_BUFFER_LEN := by
    rintro j pipe hp rfl rfl hlen
    rcases hturn (j, len) rfl rfl hlen with hnil | hfull
    · rw [h.coherent.queue_eq] at hnil
      exact Or.inl hnil
    · exact Or.inr (hfull pipe hp)
  cases writePipe_cases h.coherent hfree hidle hrun with
  | error hno => exact ho
  | @blocked j m n pipe q k₁ k' hopen hp hm hlt hk₁ hc hdrain =>
    have h₁ := h.writeNow hfree hp hm hbuf hk₁ hc (fun v hv => by simp [hv])
      (Or.inr ⟨by simp, hlt, rfl, rfl, rfl⟩)
    obtain ⟨s', hd, -⟩ := (drain_steps n _ _ hc).2 k' hdrain
    have ho₁ : InOrder i k₁.pipeHistory := by
      rw [hk₁]
      exact ho.writeNow h hm (hturn' j pipe hp rfl)
    exact ho₁.drain h₁ hd
  | @done j m n pipe k₁ k' hopen hp hm hlt hk₁ hdrain =>
    have h₁ := h.writeDone hfree hp hm hlt hbuf hk₁
    obtain ⟨s', hd, -⟩ := (drain_steps n _ s h₁.coherent).2 k' hdrain
    have ho₁ : InOrder i k₁.pipeHistory := by
      rw [hk₁]
      exact ho.writeNow h hm (hturn' j pipe hp rfl)
    exact ho₁.drain h₁ hd

/-- One event. -/
theorem InOrder.step (ho : InOrder i k.pipeHistory) (h : PipesInv hw k s) {e : SyncEvent}
    (hen : (syncMachine hw).enabled k e) (he : PipeCall k e) (hturn : WriteInTurn hw i k e)
    (hstep : (syncMachine hw).step k e = some k') : InOrder i k'.pipeHistory := by
  cases e with
  | schedule caller =>
    obtain ⟨s', -, hhist⟩ := h.schedule hstep
    rw [hhist]
    exact ho
  | store buf bytes =>
    obtain rfl := Option.some.inj hstep
    exact ho
  | call p c =>
    obtain ⟨⟨rc, k₁⟩, hrun, rfl⟩ := Option.map_eq_some_iff.1 hstep
    obtain ⟨hfree, hidle⟩ := hen
    have hfree := h.coherent.offQueues_iff.1 hfree
    have hp := h.setCurrent p
    have ho : InOrder i ({ k with current_process := p } : Kernel).pipeHistory := ho
    cases c with
    | initPipe idp allocated buffer =>
      have hinit : syncInitPipe _ idp allocated buffer = some (rc, k₁) := hrun
      unfold syncInitPipe at hinit
      rcases syncInit_cases hinit with rfl | ⟨_, _, _, rfl⟩ <;> exact ho
    | readPipe id buf len =>
      exact ho.read hp hfree hidle he.1 (h.of_slots (fun _ => rfl) he.2) hrun
    | writePipe id buf len =>
      exact ho.write hp hfree hidle (h.of_slots (fun _ => rfl) he.2) hturn hrun
    | _ => exact he.elim

/-! ## The run -/

/-- Writes in order, over every run whose writes on the pipe are in turn: the accepted bytes are a prefix
of the written ones, call by call, and a write has accepted bytes only when all earlier ones are
complete. -/
theorem pipe_writes_in_order (h₀ : SyncStart k₀) {t : List (Kernel × SyncEvent)}
    (hrun : Run (syncMachine hw) (fun k e => PipeCall k e ∧ WriteInTurn hw i k e) k₀ t k) :
    acceptedBytes i k.pipeHistory <+: (t.filterMap (writeCall i)).flatMap Prod.snd ∧
    (writeLog i k.pipeHistory).Pairwise fun newer older =>
      older.accepted = older.src ∨ newer.accepted = [] := by
  obtain ⟨s, hinv, hcalls, -⟩ := pipeRun h₀ (hrun.mono fun _ _ => And.left)
  obtain ⟨-, ho⟩ := hrun.invariant
    (I := fun k => (∃ s, PipesInv hw k s) ∧ InOrder i k.pipeHistory)
    ⟨⟨_, h₀.pipesInv⟩, by rw [h₀.noHistory]; exact ⟨rfl, .nil⟩⟩ (by
      rintro k e k' ⟨⟨s, hinv⟩, ho⟩ hen ⟨he, hturn⟩ hstep
      obtain ⟨s', hinv', -⟩ := hinv.step hen he hstep
      exact ⟨⟨s', hinv'⟩, ho.step hinv hen he hturn hstep⟩)
  have hdone : ∀ r : Write, r.done = true ↔ r.accepted = r.src := fun r => by simp [Write.done]
  refine ⟨?_, ho.turns.imp fun h => by rwa [hdone] at h⟩
  have hsrc : (t.filterMap (writeCall i)).flatMap Prod.snd =
      (writeLog i k.pipeHistory).reverse.flatMap Write.src := by
    rw [← List.reverse_reverse (t.filterMap _), ← hcalls i, ← List.map_reverse]
    exact List.flatMap_map _ _ _
  rw [hsrc, ho.stream]
  refine flatMap_prefix (fun r hr => ?_) ?_
  · rcases hinv.accepted_cases (List.mem_reverse.1 hr) with hall | ⟨-, -, -, htake⟩
    · exact hall ▸ List.prefix_rfl
    · rw [htake]
      exact List.take_prefix _ _
  · rw [List.pairwise_reverse]
    exact ho.turns.imp fun h => by rwa [hdone] at h

/-- Three bytes of `103`, of which two are read, and then two bytes of `102`. -/
def orderEvents : List SyncEvent :=
  [.store 1 fun n => n.toUInt8, .store 2 fun n => (n + 10).toUInt8,
    .call 102 (.initPipe 8 true fun _ => 0), .call 103 (.writePipe 0 1 3), .call 102 (.readPipe 0 0 2),
    .call 102 (.writePipe 0 2 2)]

def orderEventsKernel : Kernel :=
  ((syncMachine .small).exec Boot.smallProcesses orderEvents).get (by decide)

theorem orderEvents_run : Run (syncMachine .small)
    (fun k e => PipeCall k e ∧ WriteInTurn .small 0 k e) Boot.smallProcesses
    ((syncMachine .small).trace Boot.smallProcesses orderEvents) orderEventsKernel :=
  Boot.smallProcesses_syncStart.pipeExec (fun _ _ => And.left) (Option.some_get _).symm
    (by decide +kernel)

theorem pipe_writes_in_order_small :
    acceptedBytes 0 orderEventsKernel.pipeHistory = [0, 1, 2, 10] ∧
    acceptedBytes 0 orderEventsKernel.pipeHistory <+:
      (((syncMachine .small).trace Boot.smallProcesses orderEvents).filterMap
        (writeCall 0)).flatMap Prod.snd :=
  ⟨by decide, (pipe_writes_in_order Boot.smallProcesses_syncStart orderEvents_run).1⟩

/-- The reader of one byte leaves `103` blocked with its third byte and space in the buffer; the byte of
`102` goes first. -/
def overtakeEvents : List SyncEvent :=
  [.store 1 fun n => n.toUInt8, .store 2 fun n => (n + 10).toUInt8,
    .call 102 (.initPipe 8 true fun _ => 0), .call 102 (.readPipe 0 0 1), .call 103 (.writePipe 0 1 3),
    .schedule .clockHandler, .schedule .clockHandler, .call 102 (.writePipe 0 2 1)]

def overtakeEventsKernel : Kernel :=
  ((syncMachine .small).exec Boot.smallProcesses overtakeEvents).get (by decide)

theorem overtakeEvents_run : Run (syncMachine .small) PipeCall Boot.smallProcesses
    ((syncMachine .small).trace Boot.smallProcesses overtakeEvents) overtakeEventsKernel :=
  Boot.smallProcesses_syncStart.pipeExec (fun _ _ => id) (Option.some_get _).symm (by decide +kernel)

theorem pipe_writes_in_order_fails : ¬ ∀ (hw : Hardware) (k₀ k : Kernel)
    (t : List (Kernel × SyncEvent)) (i : Nat), SyncStart k₀ → Run (syncMachine hw) PipeCall k₀ t k →
    acceptedBytes i k.pipeHistory <+: (t.filterMap (writeCall i)).flatMap Prod.snd := by
  intro h
  have hearlier := h .small _ _ _ 0 Boot.smallProcesses_syncStart overtakeEvents_run
  have haccepted : acceptedBytes 0 overtakeEventsKernel.pipeHistory = [0, 1, 10] := by decide
  have hwritten : (((syncMachine .small).trace Boot.smallProcesses overtakeEvents).filterMap
      (writeCall 0)).flatMap Prod.snd = [0, 1, 2, 10] := by decide +kernel
  rw [haccepted, hwritten] at hearlier
  revert hearlier
  decide

end Yalnix
