import Yalnix.Proofs.PipeStream
import Yalnix.Proofs.Schedule

/-!
# Runs of pipe calls

The stream, the writes and what the writers are told, over every run.
-/

namespace Yalnix

open Intrusive Transition

variable {hw : Hardware} {k k' k₀ : Kernel} {s s' : QueueId → List PcbPtr} {i j : Nat}

/-! ## The calls in the log -/

theorem acceptFor_calls {w : PcbPtr} {bytes : List UInt8} {ws : List Write} :
    (acceptFor w bytes ws).map Write.call = ws.map Write.call := by
  induction ws with
  | nil => rfl
  | cons r ws ih =>
    unfold acceptFor
    split
    · rfl
    · rw [List.map_cons, List.map_cons, ih]

/-- Bytes that go in or out are not calls. -/
theorem DrainStep.calls (h : DrainStep hw i k s k' s') :
    (writeLog j k'.pipeHistory).map Write.call = (writeLog j k.pipeHistory).map Write.call := by
  rcases h.effect.1 with ⟨r, out, hhist⟩ | ⟨w, out, hhist⟩
  · rw [hhist, writeLog_append]
    rfl
  · rw [hhist, writeLog_append, List.foldl_cons, List.foldl_nil, logEvent]
    split
    · exact acceptFor_calls
    · rfl

theorem Drain.calls (hd : Drain hw i k s k' s') :
    (writeLog j k'.pipeHistory).map Write.call = (writeLog j k.pipeHistory).map Write.call := by
  induction hd with
  | refl => rfl
  | head hstep _ ih => rw [ih, hstep.calls]

/-! ## One step of a run -/

/-- A process that has left the wait list has its newest write done. -/
theorem PipesInv.accepted_eq (h : PipesInv hw k s) {r : Write}
    (hr : r ∈ writeLog i k.pipeHistory) (hoff : r.writer ∉ s (.wait (.pipeWriters i))) :
    r.accepted = r.src := by
  by_contra hne
  exact hoff ((h.pipe i).writer_mem hr (by simpa [Write.done] using hne))

/-- A blocked writer is told its result when it leaves the list, and not before. -/
theorem PipesInv.told (h : PipesInv hw k s) (hd : Drain hw i k s k' s') {w : PcbPtr}
    (hmem : w ∈ s (.wait (.pipeWriters j))) : Told j k k' w (k.pcb w).pipe_len := by
  have h' := h.drain hd
  unfold Told
  rw [h'.coherent.queue_eq]
  by_cases e : j = i
  · subst e
    rcases hd.writer h hmem with ⟨hin, huc⟩ | ⟨hout, hreg⟩
    · exact Or.inl ⟨hin, huc⟩
    · exact Or.inr ⟨hout, hreg, fun r hr hw => h'.accepted_eq hr (hw ▸ hout)⟩
  · -- the drain loops at another pipe leave `w` alone
    have hoff : ∀ v, v.slot = i → w ∉ s (.wait v) := fun v hv hv' => by
      have : v = .pipeWriters j := by simpa using h.coherent.unique hv' hmem
      exact e (by rw [← hv, this]; rfl)
    obtain ⟨hpcb, hsub⟩ := hd.off (hoff (.pipeReaders i) rfl) (hoff (.pipeWriters i) rfl)
    refine Or.inl ⟨?_, by rw [hpcb]⟩
    have hst := h.coherent.listed _ w hmem
    rw [← hpcb] at hst
    by_contra hn
    rcases h'.coherent.unlisted w fun l hl => by
      obtain rfl := h.coherent.unique (hsub l hl) hmem
      exact hn hl with hst' | hst' <;> simp [hst', QueueId.state] at hst

/-- `schedule` does not touch the pipes. -/
theorem PipesInv.schedule (h : PipesInv hw k s) {caller : ScheduleCaller}
    (hrun : Yalnix.schedule hw k caller = some k') :
    ∃ s', PipesInv hw k' s' ∧ k'.pipeHistory = k.pipeHistory := by
  obtain ⟨next, s', q, rfl, hnext, hc⟩ := h.coherent.schedule_some hrun
  have hs : ∀ v, s' (.wait v) = s (.wait v) := fun v => hnext.other (by simp)
  refine ⟨s', h.congr hc ?_ rfl rfl (fun _ _ _ _ _ => rfl) hs (fun _ => rfl) (fun _ => rfl)
    (fun _ => rfl) rfl, rfl⟩
  exact h.table.congr rfl rfl fun v p hp => Or.inl (hs v ▸ hp)

/-- A store into a buffer that no blocked writer writes from. -/
theorem PipesInv.store (h : PipesInv hw k s) {buf : BufPtr} {bytes : Nat → UInt8}
    (hbuf : ∀ j, ∀ w ∈ s (.wait (.pipeWriters j)), (k.pcb w).pipe_buffer ≠ some buf) :
    PipesInv hw { k with kbuf := Function.update k.kbuf buf bytes } s := by
  refine h.congr (h.coherent.congr rfl rfl fun _ => rfl) (h.table.congr rfl rfl fun _ _ => Or.inl)
    rfl rfl (fun j w hw b hb => ?_) (fun _ => rfl) (fun _ => rfl) (fun _ => rfl) (fun _ => rfl) rfl
  have : b ≠ buf := fun e => hbuf j w hw (e ▸ hb)
  simp [this]

/-- What an event of a run adds to the log, and tells the writers. -/
structure StepReport (k : Kernel) (s : QueueId → List PcbPtr) (e : SyncEvent) (k' : Kernel)
    (i : Nat) : Prop where
  calls : (writeLog i k'.pipeHistory).map Write.call =
    (writeCall i (k, e)).toList ++ (writeLog i k.pipeHistory).map Write.call
  told : ∀ p c, e = .call p c → ∀ w ∈ s (.wait (.pipeWriters i)), Told i k k' w (k.pcb w).pipe_len
  caller : ∀ p buf len, e = .call p (.writePipe i buf len) → writable k i = true → Told i k k' p len

/-- Nobody waits differently, and nothing was written. -/
theorem StepReport.quiet {e : SyncEvent} (h' : PipesInv hw k' s')
    (hs : ∀ v, s' (.wait v) = s (.wait v)) (hpcb : ∀ p c, e = .call p c → k'.pcb = k.pcb)
    (hcalls : (writeLog i k'.pipeHistory).map Write.call = (writeLog i k.pipeHistory).map Write.call)
    (he : ∀ p id buf len, e = .call p (.writePipe id buf len) → writable k id = false) :
    StepReport k s e k' i where
  calls := by
    have : writeCall i (k, e) = none := by
      unfold writeCall
      split
      · rename_i heq
        obtain ⟨rfl, rfl⟩ := Prod.mk.inj heq
        simp [he _ _ _ _ rfl]
      · rfl
    rw [this, hcalls]
    rfl
  told p c hc w hw := by
    unfold Told
    rw [h'.coherent.queue_eq, hs, hpcb p c hc]
    exact Or.inl ⟨hw, rfl⟩
  caller p buf len hc hwritable := by
    rw [he _ _ _ _ hc] at hwritable
    cases hwritable

/-- A read call. -/
theorem PipesInv.stepRead (h : PipesInv hw k s) (hfree : ∀ l, k.current_process ∉ s l)
    (hidle : k.current_process ≠ k.idle_process) {id len rc : Int} {buf : BufPtr} (hlen : 0 ≤ len)
    (hbuf : ∀ j, ∀ w ∈ s (.wait (.pipeWriters j)), (k.pcb w).pipe_buffer ≠ some buf)
    (hrun : syncReadPipe hw k id buf len = some (rc, k')) : ∃ s', PipesInv hw k' s' ∧
      ∀ i, StepReport k s (.call k.current_process (.readPipe id buf len)) k' i := by
  obtain ⟨i, k₁, s₁, s', h₁, hpcb, hs, hlog, hd⟩ := h.readPipe hfree hidle hlen hbuf hrun
  refine ⟨s', h₁.drain hd, fun j => ⟨?_, fun p c _ w hmem => ?_, fun p buf len e => by cases e⟩⟩
  · rw [hd.calls, hlog]
    rfl
  · have htold := h₁.told hd (hs j ▸ hmem)
    have hne : w ≠ k.current_process := fun e => hfree _ (e ▸ hmem)
    unfold Told at htold ⊢
    rwa [hpcb w hne] at htold

/-- A write call. -/
theorem PipesInv.stepWrite (h : PipesInv hw k s) (hfree : ∀ l, k.current_process ∉ s l)
    (hidle : k.current_process ≠ k.idle_process) {id len rc : Int} {buf : BufPtr}
    (hbuf : ∀ j, ∀ r ∈ s (.wait (.pipeReaders j)), (k.pcb r).pipe_buffer ≠ some buf)
    (hrun : syncWritePipe hw k id buf len = some (rc, k')) : ∃ s', PipesInv hw k' s' ∧
      ∀ i, StepReport k s (.call k.current_process (.writePipe id buf len)) k' i := by
  rcases h.writePipe hfree hidle hbuf hrun with ⟨rfl, hno⟩ |
    ⟨hopen, i, rfl, k₁, s₁, s', h₁, hpcb, ⟨out, hhist⟩, hd, hcase⟩
  · refine ⟨s, h, fun i => .quiet h (fun _ => rfl) (fun _ _ _ => rfl) rfl fun p id' buf len e => ?_⟩
    injection e with _ e
    injection e with e
    exact e ▸ hno
  · have h' := h₁.drain hd
    have hother : ∀ j, ∀ w ∈ s (.wait (.pipeWriters j)), w ∈ s₁ (.wait (.pipeWriters j)) := by
      intro j w hmem
      rcases hcase with ⟨rfl, -⟩ | ⟨rfl, -⟩
      · exact hmem
      · by_cases e : j = i
        · subst e; simp [hmem]
        · rwa [Function.update_of_ne (by simpa using e)]
    refine ⟨s', h', fun j => ⟨?_, fun p c _ w hmem => ?_, fun p buf' len' e _ => ?_⟩⟩
    · rw [hd.calls, hhist, writeLog_append]
      by_cases e : i = j
      · subst e
        simp [logEvent, acceptFor, writeCall, hopen, Write.call]
      · have e' : ¬ (i : Int) = j := by omega
        simp [logEvent, writeCall, e, e']
    · have htold := h₁.told hd (hother j w hmem)
      have hne : w ≠ k.current_process := fun e => hfree _ (e ▸ hmem)
      unfold Told at htold ⊢
      rwa [hpcb w hne] at htold
    · simp only [SyncEvent.call.injEq, SyncCall.writePipe.injEq, Nat.cast_inj] at e
      obtain ⟨rfl, rfl, rfl, rfl⟩ := e
      rcases hcase with ⟨rfl, hreg⟩ | ⟨rfl, huc, hl⟩
      · -- the caller is done, and the drain loops leave it alone
        obtain ⟨hpcb', hsub⟩ := hd.off (hfree _) (hfree _)
        have hout : k.current_process ∉ s' (.wait (.pipeWriters i)) := fun hn => hfree _ (hsub _ hn)
        unfold Told
        rw [h'.coherent.queue_eq, hpcb']
        exact Or.inr ⟨hout, hreg, fun r hr hw => h'.accepted_eq hr (hw ▸ hout)⟩
      · have htold := h₁.told hd (j := i) (w := k.current_process) (by simp)
        unfold Told at htold ⊢
        rwa [huc, hl] at htold

theorem PipesInv.setCurrent (h : PipesInv hw k s) (p : PcbPtr) :
    PipesInv hw { k with current_process := p } s :=
  h.congr (h.coherent.congr rfl rfl fun _ => rfl) (h.table.congr rfl rfl fun _ _ => Or.inl) rfl rfl
    (fun _ _ _ _ _ => rfl) (fun _ => rfl) (fun _ => rfl) (fun _ => rfl) (fun _ => rfl) rfl

/-- A pipe with waiting processes has a slot in the table. -/
theorem PipesInv.of_slots (h : PipesInv hw k s) {w : Nat → WaitList} (hw' : ∀ i, (w i).slot = i)
    {P : PcbPtr → Prop} (hP : ∀ i < MAX_SYNCS, ∀ p ∈ k.queue (.wait (w i)), P p) :
    ∀ i, ∀ p ∈ s (.wait (w i)), P p := by
  intro i p hp
  obtain ⟨o, ho, -⟩ := h.table.fits _ p hp
  rw [hw'] at ho
  refine hP i (h.table.bound i o ho) p ?_
  rwa [h.coherent.queue_eq]

/-- One event keeps the invariant, and reports what it must. -/
theorem PipesInv.step (h : PipesInv hw k s) {e : SyncEvent} (hen : (syncMachine hw).enabled k e)
    (he : PipeCall k e) (hstep : (syncMachine hw).step k e = some k') :
    ∃ s', PipesInv hw k' s' ∧ ∀ i, StepReport k s e k' i := by
  cases e with
  | schedule caller =>
    obtain ⟨s', h', hhist⟩ := h.schedule hstep
    exact ⟨s', h', fun i => ⟨by rw [hhist]; rfl, fun _ _ e => (by cases e), fun _ _ _ e => (by cases e)⟩⟩
  | store buf bytes =>
    obtain rfl := Option.some.inj hstep
    exact ⟨s, h.store (h.of_slots (fun _ => rfl) he),
      fun i => ⟨rfl, fun _ _ e => (by cases e), fun _ _ _ e => (by cases e)⟩⟩
  | call p c =>
    obtain ⟨⟨rc, k₁⟩, hrun, rfl⟩ := Option.map_eq_some_iff.1 hstep
    obtain ⟨hfree, hidle⟩ := hen
    have hfree := h.coherent.offQueues_iff.1 hfree
    have hp := h.setCurrent p
    cases c with
    | initPipe idp allocated buffer =>
      have h' := hp.init hrun
      have hkeep : k₁.pcb = k.pcb ∧ k₁.pipeHistory = k.pipeHistory := by
        have hinit : syncInitPipe _ idp allocated buffer = some (rc, k₁) := hrun
        unfold syncInitPipe at hinit
        rcases syncInit_cases hinit with rfl | ⟨_, _, _, rfl⟩ <;> exact ⟨rfl, rfl⟩
      exact ⟨s, h', fun i => .quiet h' (fun _ => rfl) (fun _ _ _ => hkeep.1) (by rw [hkeep.2])
        fun _ _ _ _ e => (by cases e)⟩
    | readPipe id buf len =>
      obtain ⟨hlen, hbuf⟩ := he
      obtain ⟨s', h', hrep⟩ :=
        hp.stepRead hfree hidle hlen (h.of_slots (fun _ => rfl) hbuf) hrun
      exact ⟨s', h', fun i => ⟨(hrep i).calls, (hrep i).told, (hrep i).caller⟩⟩
    | writePipe id buf len =>
      obtain ⟨hlen, hbuf⟩ := he
      obtain ⟨s', h', hrep⟩ := hp.stepWrite hfree hidle (h.of_slots (fun _ => rfl) hbuf) hrun
      exact ⟨s', h', fun i => ⟨(hrep i).calls, (hrep i).told, (hrep i).caller⟩⟩
    | _ => exact he.elim

theorem SyncStart.pipesInv (h : SyncStart k) : PipesInv hw k k.queue where
  coherent := h.coherent
  table := h.table
  pipe i :=
    { fresh := fun _ e he => by rw [h.noHistory] at he; simp at he
      valid := fun pipe hp => by simp [Kernel.pipe, h.noObject i] at hp
      stream := fun pipe hp => by simp [Kernel.pipe, h.noObject i] at hp
      blocked := by rw [h.noHistory, h.noWaiter]; rfl
      newest := by rw [h.noHistory]; exact .nil
      progress := fun r hr => by rw [h.noHistory] at hr; simp [writeLog] at hr
      reader := fun r hr => by rw [h.noWaiter] at hr; simp at hr }
  apart i j r hr := by rw [h.noWaiter] at hr; simp at hr
  live := h.noneFreed

/-! ## The run -/

/-- What was accepted of a write: all of it, or the bytes before `write_loc` while its writer is
blocked. -/
theorem PipesInv.accepted_cases (h : PipesInv hw k s) {r : Write}
    (hr : r ∈ writeLog i k.pipeHistory) : r.accepted = r.src ∨
      (r.writer ∈ k.queue (.wait (.pipeWriters i)) ∧ 0 ≤ (k.pcb r.writer).write_loc ∧
        (k.pcb r.writer).write_loc < r.src.length ∧
        r.accepted = r.src.take (k.pcb r.writer).write_loc.toNat) := by
  cases hd : r.done with
  | true => exact Or.inl (by simpa [Write.done] using hd)
  | false =>
    obtain ⟨hloc, hlt, ⟨b, -, hsrc⟩, hacc⟩ := (h.pipe i).progress r hr hd
    refine Or.inr ⟨?_, hloc, ?_, hacc⟩
    · rw [h.coherent.queue_eq]
      exact (h.pipe i).writer_mem hr hd
    · have hlength : r.src.length = (k.pcb r.writer).pipe_len.toNat := by simp [hsrc]
      omega

/-- The invariant, the calls and the reports of every run. -/
theorem pipeRun (h₀ : SyncStart k₀) {t : List (Kernel × SyncEvent)}
    (hrun : Run (syncMachine hw) PipeCall k₀ t k) : ∃ s, PipesInv hw k s ∧
      (∀ i, (writeLog i k.pipeHistory).map Write.call = (t.filterMap (writeCall i)).reverse) ∧
      ∀ x ∈ t, ∀ k', (syncMachine hw).step x.1 x.2 = some k' →
        ∀ i, StepReport x.1 (x.1.queue) x.2 k' i := by
  refine hrun.traceInvariant (I := fun t k => ∃ s, PipesInv hw k s ∧
      (∀ i, (writeLog i k.pipeHistory).map Write.call = (t.filterMap (writeCall i)).reverse) ∧
      ∀ x ∈ t, ∀ k', (syncMachine hw).step x.1 x.2 = some k' →
        ∀ i, StepReport x.1 (x.1.queue) x.2 k' i)
    ⟨_, h₀.pipesInv, fun i => by rw [h₀.noHistory]; rfl, by simp⟩ ?_
  rintro t k e k' ⟨s, hinv, hcalls, hrep⟩ hen he hstep
  obtain ⟨s', hinv', hrep'⟩ := hinv.step hen he hstep
  refine ⟨s', hinv', fun i => ?_, fun x hx k₁ hk₁ i => ?_⟩
  · rw [(hrep' i).calls, hcalls, List.filterMap_append, List.reverse_append]
    cases hc : writeCall i (k, e) <;> simp [hc]
  · rcases List.mem_append.1 hx with hx | hx
    · exact hrep x hx k₁ hk₁ i
    · obtain rfl := List.mem_singleton.1 hx
      obtain rfl : k' = k₁ := Option.some.inj (hstep.symm.trans hk₁)
      rw [hinv.coherent.queue_eq]
      exact hrep' i

/-- Events that may happen one after the other are a run of pipe calls. -/
theorem SyncStart.pipeExec {P : Kernel → SyncEvent → Prop} (h₀ : SyncStart k₀)
    (hP : ∀ k e, P k e → PipeCall k e) {es : List SyncEvent}
    (hexec : (syncMachine hw).exec k₀ es = some k)
    (hok : ∀ x ∈ (syncMachine hw).trace k₀ es, callable x.1 x.2 = true ∧ P x.1 x.2) :
    Run (syncMachine hw) P k₀ ((syncMachine hw).trace k₀ es) k := by
  refine Run.exec (I := fun k => ∃ s, PipesInv hw k s) ⟨_, h₀.pipesInv⟩ ?_ hexec ?_
  · rintro k e k' ⟨s, hinv⟩ hen he hstep
    obtain ⟨s', hinv', -⟩ := hinv.step hen (hP k e he) hstep
    exact ⟨s', hinv'⟩
  · rintro x hx ⟨s, hinv⟩
    exact ⟨hinv.coherent.enabled (hok x hx).1, (hok x hx).2⟩

/-- The process `102` waits for two bytes, and `103` writes three. -/
def pipeEvents : List SyncEvent :=
  [.store 1 fun n => n.toUInt8, .call 102 (.initPipe 8 true fun _ => 0), .call 102 (.readPipe 0 0 2),
    .call 103 (.writePipe 0 1 3)]

def pipeEventsKernel : Kernel :=
  ((syncMachine .small).exec Boot.smallProcesses pipeEvents).get (by decide)

theorem pipeEvents_run : Run (syncMachine .small) PipeCall Boot.smallProcesses
    ((syncMachine .small).trace Boot.smallProcesses pipeEvents) pipeEventsKernel :=
  Boot.smallProcesses_syncStart.pipeExec (fun _ _ => id) (Option.some_get _).symm (by decide +kernel)

/-- Pipe conservation, over every run of pipe calls: what was delivered and what is in the buffer is
what was accepted; the writes are the write calls in their order, each accepted in full or, while its
writer is blocked, up to `write_loc`; and a call tells a writer its result when all of its bytes were
accepted, and not before. -/
theorem pipe_conservation (h₀ : SyncStart k₀) {t : List (Kernel × SyncEvent)}
    (hrun : Run (syncMachine hw) PipeCall k₀ t k) :
    (∀ i pipe, k.pipe i = some pipe → pipe.Valid hw ∧
      deliveredBytes i k.pipeHistory ++ pipe.contents hw = acceptedBytes i k.pipeHistory) ∧
    (∀ i, (writeLog i k.pipeHistory).map Write.call = (t.filterMap (writeCall i)).reverse) ∧
    (∀ i, ∀ r ∈ writeLog i k.pipeHistory, r.accepted = r.src ∨
      (r.writer ∈ k.queue (.wait (.pipeWriters i)) ∧ 0 ≤ (k.pcb r.writer).write_loc ∧
        (k.pcb r.writer).write_loc < r.src.length ∧
        r.accepted = r.src.take (k.pcb r.writer).write_loc.toNat)) ∧
    ∀ x ∈ t, ∀ p c k', x.2 = .call p c → (syncMachine hw).step x.1 x.2 = some k' → ∀ i,
      (∀ w ∈ x.1.queue (.wait (.pipeWriters i)), Told i x.1 k' w (x.1.pcb w).pipe_len) ∧
      ∀ buf len, c = .writePipe i buf len → writable x.1 i = true → Told i x.1 k' p len := by
  obtain ⟨s, hinv, hcalls, hrep⟩ := pipeRun h₀ hrun
  refine ⟨fun i pipe hp => ⟨(hinv.pipe i).valid pipe hp, (hinv.pipe i).stream pipe hp⟩, hcalls,
    fun i r hr => hinv.accepted_cases hr, fun x hx p c k' hc hstep i => ?_⟩
  have hstep' := hrep x hx k' hstep i
  refine ⟨hstep'.told p c hc, fun buf len hwrite => hstep'.caller p buf len ?_⟩
  rw [hc, hwrite]

theorem pipe_conservation_small :
    deliveredBytes 0 pipeEventsKernel.pipeHistory = [0, 1] ∧
    (writeLog 0 pipeEventsKernel.pipeHistory).map Write.call =
      (((syncMachine .small).trace Boot.smallProcesses pipeEvents).filterMap (writeCall 0)).reverse :=
  ⟨by decide, (pipe_conservation Boot.smallProcesses_syncStart pipeEvents_run).2.1 0⟩

end Yalnix
