import Yalnix.Proofs.DrainRun
import Yalnix.Proofs.PipeFrame

/-!
# The pipes in every run

Every pipe stays in shape, and a reader waits only at an empty buffer, whatever the calls ask for.
-/

namespace Yalnix

open Intrusive Transition

variable {hw : Hardware} {k k' k₀ : Kernel} {s s' : QueueId → List PcbPtr} {i j : Nat}

/-! ## The calls on pipes -/

/-- A drain after a change at the pipe in slot `i`. -/
theorem ShapeInv.drained (hc : Coherent k s) (ht : SyncTable k s) (hshape : ∀ j, PipeShape hw k s j)
    (hwaits : ∀ j pipe, j ≠ i → k.pipe j = some pipe → s (.wait (.pipeReaders j)) ≠ [] →
      pipe.bytes_in_buffer = 0)
    (hd : Drain hw i k s k' s') (hdr : Drained k' s' i) : ShapeInv hw k' s' := by
  have hmoves : SyncMoves k.current_process (fun _ => True) k s k' s' :=
    hd.moves ht fun _ _ _ => trivial
  have hshape' : ∀ j, PipeShape hw k' s' j := fun j => (hshape j).drain (hshape i) hc hd
  refine ⟨hd.coherent hc, hmoves.table ht, hshape', fun j pipe hp hne => ?_⟩
  by_cases e : j = i
  · subst e
    rcases hdr with hnil | hzero
    · exact absurd hnil hne
    · have := hzero pipe hp
      have := ((hshape' j).sound pipe hp).nonneg
      omega
  · obtain ⟨hpipe, hlist⟩ := hd.other e
    rw [hlist (.pipeReaders j) rfl] at hne
    exact hwaits j pipe e (hpipe ▸ hp) hne

/-- What the caller does alone, being on no list. -/
theorem ShapeInv.own (h : ShapeInv hw k s) (hfree : ∀ l, k.current_process ∉ s l) {pipe new : Pipe}
    (hp : k.pipe i = some pipe) (hnew : new.Sound hw)
    (hne : ∀ q, q ≠ k.current_process → k'.pcb q = k.pcb q)
    (hst : (k'.pcb k.current_process).state = (k.pcb k.current_process).state)
    (hq : k'.queues = k.queues) (hidle : k'.idle_process = k.idle_process)
    (hfreed : k'.kbufFreed = k.kbufFreed)
    (htable : k'.sync_table = (k.setObject i (.pipe new)).sync_table) (hused : k'.id_used = k.id_used) :
    Coherent k' s ∧ SyncTable k' s ∧ (∀ j, PipeShape hw k' s j) ∧
      ∀ j, j ≠ i → k'.pipe j = k.pipe j := by
  have hother : ∀ j, j ≠ i → k'.pipe j = k.pipe j := fun j e => by
    simp [Kernel.pipe, htable, Kernel.setObject, e]
  refine ⟨h.coherent.congr hq hidle fun n => ?_, ?_, fun j => ?_, hother⟩
  · by_cases e : n = k.current_process
    · rw [e, hst]
    · rw [hne n e]
  · exact (h.table.setPipe hp new).congr htable hused fun _ _ => Or.inl
  · refine (h.shape j).touch hne hfreed (fun pipe' hp' => ?_) (fun v _ q hq _ => hq)
      (fun hr => absurd hr (hfree _)) fun hr => absurd hr (hfree _)
    by_cases e : j = i
    · subst e
      rw [Kernel.pipe, htable] at hp'
      obtain rfl := Option.some.inj ((pipe_setObject hp _).symm.trans hp')
      exact hnew
    · exact (h.shape j).sound pipe' (hother j e ▸ hp')

/-- The caller joins a wait list of the pipe in slot `i`, with a buffer that has not been freed. -/
theorem ShapeInv.join (h : ShapeInv hw k s) {pipe new : Pipe} (hp : k.pipe i = some pipe)
    (hnew : new.Sound hw) {v : WaitList} (hv : v.type = .pipe) (hslot : v.slot = i)
    (hfree : ∀ l, k.current_process ∉ s l)
    (hc : Coherent k' (Function.update s (.wait v) (s (.wait v) ++ [k.current_process])))
    (hne : ∀ q, q ≠ k.current_process → k'.pcb q = k.pcb q) (hfreed : k'.kbufFreed = k.kbufFreed)
    (hbuf : ∃ b, (k'.pcb k.current_process).pipe_buffer = some b ∧ k'.kbufFreed b = false)
    (hloc : v = .pipeWriters i → 0 ≤ (k'.pcb k.current_process).write_loc)
    (htable : k'.sync_table = (k.setObject i (.pipe new)).sync_table) (hused : k'.id_used = k.id_used) :
    SyncTable k' (Function.update s (.wait v) (s (.wait v) ++ [k.current_process])) ∧
    (∀ j, PipeShape hw k' (Function.update s (.wait v) (s (.wait v) ++ [k.current_process])) j) ∧
    ∀ j, j ≠ i → k'.pipe j = k.pipe j := by
  have hother : ∀ j, j ≠ i → k'.pipe j = k.pipe j := fun j e => by
    simp [Kernel.pipe, htable, Kernel.setObject, e]
  have hmem : ∀ (w : WaitList) q, q ∈ Function.update s (.wait v)
      (s (.wait v) ++ [k.current_process]) (.wait w) → q ∈ s (.wait w) ∨ (q = k.current_process ∧ w = v) := by
    intro w q hq
    by_cases e : w = v
    · subst e
      rw [Function.update_self, List.mem_append, List.mem_singleton] at hq
      exact hq.imp_right fun hq => ⟨hq, rfl⟩
    · rw [Function.update_of_ne (by simpa using e)] at hq
      exact Or.inl hq
  obtain ⟨o, ho, hobj⟩ := pipe_eq_some hp
  refine ⟨(h.table.setPipe hp new).congr htable hused fun w q hq => ?_, fun j => ?_, hother⟩
  · rcases hmem w q hq with hq | ⟨-, rfl⟩
    · exact Or.inl hq
    · refine Or.inr ⟨{ o with object := .pipe new }, by simp [Kernel.setObject, hslot, ho], ?_⟩
      cases w <;> trivial
  · refine (h.shape j).touch hne hfreed (fun pipe' hp' => ?_) (fun w _ q hq hqne => ?_) (fun _ => hbuf)
      fun hr => ⟨hbuf, ?_⟩
    · by_cases e : j = i
      · subst e
        rw [Kernel.pipe, htable] at hp'
        obtain rfl := Option.some.inj ((pipe_setObject hp _).symm.trans hp')
        exact hnew
      · exact (h.shape j).sound pipe' (hother j e ▸ hp')
    · rcases hmem w q hq with hq | ⟨rfl, -⟩
      · exact hq
      · exact absurd rfl hqne
    · rcases hmem _ _ hr with hr | ⟨-, hw⟩
      · exact absurd hr (hfree _)
      · refine hloc ?_
        rw [← hw]
        have : (WaitList.pipeWriters j).slot = i := by rw [hw]; exact hslot
        rw [show j = i from this]

theorem ShapeInv.setCurrent (h : ShapeInv hw k s) (p : PcbPtr) :
    ShapeInv hw { k with current_process := p } s :=
  ⟨h.coherent.congr rfl rfl fun _ => rfl, h.table.congr rfl rfl fun _ _ => Or.inl,
    fun i => ⟨(h.shape i).sound, (h.shape i).reader, (h.shape i).writer⟩, h.waits⟩

/-! ## Reads -/

/-- The caller has read, and nobody else has moved. -/
theorem ShapeInv.readTake (h : ShapeInv hw k s) (hfree : ∀ l, k.current_process ∉ s l) {pipe : Pipe}
    (hp : k.pipe i = some pipe) (buf : BufPtr) (len : Int) :
    let k₁ := Yalnix.readTake hw k i pipe buf len
    Coherent k₁ s ∧ SyncTable k₁ s ∧ (∀ j, PipeShape hw k₁ s j) ∧ ∀ j, j ≠ i → k₁.pipe j = k.pipe j := by
  have hnew : Pipe.Sound hw { pipe with
      read_pos := (pipe.read_pos + (min len pipe.bytes_in_buffer).toNat) % hw.PIPE_BUFFER_LEN
      bytes_in_buffer := pipe.bytes_in_buffer - min len pipe.bytes_in_buffer } := by
    refine ⟨?_, Nat.mod_lt _ hw.pipe_pos⟩
    show 0 ≤ pipe.bytes_in_buffer - min len pipe.bytes_in_buffer
    omega
  exact h.own hfree hp hnew (fun q hq => by simp [Yalnix.readTake, hq]) (by simp [Yalnix.readTake]) rfl
    rfl rfl rfl rfl

/-- The caller waits at an empty pipe. -/
theorem ShapeInv.readBlocked (h : ShapeInv hw k s) (hfree : ∀ l, k.current_process ∉ s l) {pipe : Pipe}
    (hp : k.pipe i = some pipe) (hempty : pipe.bytes_in_buffer = 0) {buf : BufPtr} {len : Int}
    (hlive : k.kbufFreed buf = false) {q : Heap QueueId PcbPtr}
    (hc : Coherent (Yalnix.readBlocked k i buf len q) (Function.update s (.wait (.pipeReaders i))
      (s (.wait (.pipeReaders i)) ++ [k.current_process]))) :
    ShapeInv hw (Yalnix.readBlocked k i buf len q) (Function.update s (.wait (.pipeReaders i))
      (s (.wait (.pipeReaders i)) ++ [k.current_process])) := by
  obtain ⟨o, ho, hobj⟩ := pipe_eq_some hp
  have hsame : (k.setObject i (.pipe pipe)).sync_table = k.sync_table := by
    funext j
    by_cases e : j = i
    · subst e
      simp [Kernel.setObject, ho, ← hobj]
    · simp [Kernel.setObject, e]
  obtain ⟨ht, hshape, -⟩ := h.join hp ((h.shape i).sound pipe hp) (v := .pipeReaders i) rfl rfl
    hfree hc (fun n hn => by simp [Yalnix.readBlocked, hn]) rfl ⟨buf, by simp [Yalnix.readBlocked], hlive⟩
    (fun e => by cases e) hsame.symm rfl
  refine ⟨hc, ht, hshape, fun j pipe' hp' hne => ?_⟩
  by_cases e : j = i
  · subst e
    obtain rfl : pipe = pipe' := Option.some.inj (hp.symm.trans hp')
    exact hempty
  · rw [Function.update_of_ne (by simpa using e)] at hne
    exact h.waits j pipe' hp' hne

theorem ShapeInv.read (h : ShapeInv hw k s) (hfree : ∀ l, k.current_process ∉ s l)
    (hidle : k.current_process ≠ k.idle_process) {id len rc : Int} {buf : BufPtr}
    (hlive : k.kbufFreed buf = false) (hrun : syncReadPipe hw k id buf len = some (rc, k')) :
    ∃ s', ShapeInv hw k' s' ∧ k'.kbufFreed = k.kbufFreed := by
  cases readPipe_ends h.coherent (fun i => (h.shape i).sound) hfree hidle hrun with
  | error hno => exact ⟨s, h, rfl⟩
  | blocked hopen hp hempty hc => exact ⟨_, h.readBlocked hfree hp hempty hlive hc, rfl⟩
  | @taken i pipe k' hopen hp hne hdrain =>
    obtain ⟨hc₁, ht₁, hshape₁, hother⟩ := h.readTake hfree hp buf len
    obtain ⟨s', hd, hdr⟩ := (drain_steps _ _ s hc₁).1 k' hdrain
    exact ⟨s', .drained hc₁ ht₁ hshape₁ (fun j pipe e hp => h.waits j pipe (hother j e ▸ hp)) hd hdr, hd.freed⟩

/-! ## Writes -/

theorem ShapeInv.writeDone (h : ShapeInv hw k s) (hfree : ∀ l, k.current_process ∉ s l) {pipe : Pipe}
    (hp : k.pipe i = some pipe) (buf : BufPtr) (len : Int) (m : Nat) :
    let k₁ := writeNow hw k i pipe buf len m (pcbDoneWrite (k.pcb k.current_process) len m) k.queues
    Coherent k₁ s ∧ SyncTable k₁ s ∧ (∀ j, PipeShape hw k₁ s j) ∧ ∀ j, j ≠ i → k₁.pipe j = k.pipe j :=
  h.own hfree hp (((h.shape i).sound pipe hp).putAll _) (fun q hq => by simp [writeNow, hq])
    (by simp [writeNow, pcbDoneWrite]) rfl rfl rfl rfl rfl

theorem ShapeInv.writeBlocked (h : ShapeInv hw k s) (hfree : ∀ l, k.current_process ∉ s l)
    {pipe : Pipe} (hp : k.pipe i = some pipe) {buf : BufPtr} {len : Int} {m : Nat}
    (hlive : k.kbufFreed buf = false) {q : Heap QueueId PcbPtr} {k₁ : Kernel}
    (hk₁ : k₁ = writeNow hw k i pipe buf len m (pcbBlockedWrite (k.pcb k.current_process) i buf len m) q)
    (hc : Coherent k₁ (Function.update s (.wait (.pipeWriters i))
      (s (.wait (.pipeWriters i)) ++ [k.current_process]))) :
    SyncTable k₁ (Function.update s (.wait (.pipeWriters i))
      (s (.wait (.pipeWriters i)) ++ [k.current_process])) ∧
    (∀ j, PipeShape hw k₁ (Function.update s (.wait (.pipeWriters i))
      (s (.wait (.pipeWriters i)) ++ [k.current_process])) j) ∧
    ∀ j, j ≠ i → k₁.pipe j = k.pipe j := by
  subst hk₁
  refine h.join hp (((h.shape i).sound pipe hp).putAll _) rfl rfl hfree hc
    (fun n hn => by simp [writeNow, hn]) rfl ⟨buf, by simp [writeNow, pcbBlockedWrite], hlive⟩ (fun _ => ?_)
    rfl rfl
  simp [writeNow, pcbBlockedWrite]

theorem ShapeInv.write (h : ShapeInv hw k s) (hfree : ∀ l, k.current_process ∉ s l)
    (hidle : k.current_process ≠ k.idle_process) {id len rc : Int} {buf : BufPtr}
    (hlive : k.kbufFreed buf = false) (hrun : syncWritePipe hw k id buf len = some (rc, k')) :
    ∃ s', ShapeInv hw k' s' ∧ k'.kbufFreed = k.kbufFreed := by
  cases writePipe_cases h.coherent hfree hidle hrun with
  | error hno => exact ⟨s, h, rfl⟩
  | @blocked i m n pipe q k₁ k' hopen hp hm hlt hk₁ hc hdrain =>
    obtain ⟨ht₁, hshape₁, hother⟩ := h.writeBlocked hfree hp hlive hk₁ hc
    obtain ⟨s', hd, hdr⟩ := (drain_steps _ _ _ hc).2 k' hdrain
    refine ⟨s', .drained hc ht₁ hshape₁ (fun j pipe e hp hne => ?_) hd hdr, hd.freed.trans (by rw [hk₁]; rfl)⟩
    rw [Function.update_of_ne (by simp)] at hne
    exact h.waits j pipe (hother j e ▸ hp) hne
  | @done i m n pipe k₁ k' hopen hp hm hlt hk₁ hdrain =>
    subst hk₁
    obtain ⟨hc₁, ht₁, hshape₁, hother⟩ := h.writeDone hfree hp buf len m
    obtain ⟨s', hd, hdr⟩ := (drain_steps _ _ s hc₁).2 k' hdrain
    exact ⟨s', .drained hc₁ ht₁ hshape₁ (fun j pipe e hp => h.waits j pipe (hother j e ▸ hp)) hd hdr, hd.freed⟩

/-! ## The run -/

theorem newPipe_sound (buffer : Nat → UInt8) : (newPipe buffer).Sound hw := ⟨le_rfl, hw.pipe_pos⟩

/-- What leaves the pipes and their wait lists alone. -/
theorem ShapeInv.frame (h : ShapeInv hw k s) (hc : Coherent k' s') (ht : SyncTable k' s')
    (hf : PipeFrame k k') (hs : ∀ v : WaitList, v.type = .pipe → s' (.wait v) = s (.wait v)) :
    ShapeInv hw k' s' := by
  refine ⟨hc, ht, fun j => ⟨fun pipe hp => ?_, fun r hr => ?_, fun w hw' => ?_⟩, fun j pipe hp hne => ?_⟩
  · rcases hf.pipe j with hj | ⟨-, buffer, hj⟩
    · exact (h.shape j).sound pipe (hj ▸ hp)
    · obtain rfl := Option.some.inj (hj.symm.trans hp)
      exact newPipe_sound buffer
  · rw [hs (.pipeReaders j) rfl] at hr
    have hreq : (k'.pcb r).pipe_buffer = (k.pcb r).pipe_buffer := congrArg Prod.fst (hf.request r)
    rw [hreq, hf.freed]
    exact (h.shape j).reader r hr
  · rw [hs (.pipeWriters j) rfl] at hw'
    have hreq := hf.request w
    simp only [Pcb.request, Prod.mk.injEq] at hreq
    rw [hreq.1, hreq.2.2, hf.freed]
    exact (h.shape j).writer w hw'
  · rcases hf.pipe j with hj | ⟨-, buffer, hj⟩
    · rw [hs (.pipeReaders j) rfl] at hne
      exact h.waits j pipe (hj ▸ hp) hne
    · obtain rfl := Option.some.inj (hj.symm.trans hp)
      rfl

/-- A call that is not on a pipe. -/
theorem ShapeInv.other (h : ShapeInv hw k s) (hfree : ∀ l, k.current_process ∉ s l)
    (hidle : k.current_process ≠ k.idle_process) {c : SyncCall} (hc : c.onPipe = false) {rc : Int}
    (hrun : c.run hw k = some (rc, k')) : ∃ s', ShapeInv hw k' s' ∧ PipeFrame k k' ∧
      ∀ v : WaitList, v.type = .pipe → s' (.wait v) = s (.wait v) := by
  obtain ⟨s', hmoves⟩ := syncCall_moves h.coherent h.table hfree hidle hrun
  have hs : ∀ v : WaitList, v.type = .pipe → s' (.wait v) = s (.wait v) := by
    intro v hv
    refine hmoves.list_eq fun hT => ?_
    cases c with
    | readPipe => cases hc
    | writePipe => cases hc
    | initPipe => exact hT
    | initLock => exact hT
    | initCvar => exact hT
    | cvarWait =>
      rcases hT with rfl | rfl <;> cases hv
    | _ =>
      cases hT
      cases hv
  have hf := syncCall_pipeFrame h.table hc hrun
  exact ⟨s', h.frame (hmoves.coherent h.coherent) (hmoves.table h.table) hf hs, hf, hs⟩

theorem ShapeInv.schedule (h : ShapeInv hw k s) {caller : ScheduleCaller}
    (hrun : Yalnix.schedule hw k caller = some k') : ∃ s', ShapeInv hw k' s' ∧ PipeFrame k k' ∧
      ∀ v : WaitList, s' (.wait v) = s (.wait v) := by
  obtain ⟨next, s', q, rfl, hnext, hc⟩ := h.coherent.schedule_some hrun
  have hs : ∀ v, s' (.wait v) = s (.wait v) := fun v => hnext.other (by simp)
  have hf : PipeFrame k (switched hw k caller next q) := by
    refine ⟨fun _ => Or.inl rfl, fun n => ?_, rfl, rfl⟩
    unfold switched switchedPcb
    simp only
    split
    · split <;> rfl
    · split <;> rfl
  exact ⟨s', h.frame hc (h.table.congr rfl rfl fun v p hp => Or.inl (hs v ▸ hp)) hf fun v _ => hs v, hf, hs⟩

/-- A call of `sync.c` frees no buffer. -/
theorem ShapeInv.call (h : ShapeInv hw k s) (hfree : ∀ l, k.current_process ∉ s l)
    (hidle : k.current_process ≠ k.idle_process) {c : SyncCall}
    (hlive : ∀ b ∈ c.buffer, k.kbufFreed b = false) {rc : Int} (hrun : c.run hw k = some (rc, k')) :
    ∃ s', ShapeInv hw k' s' ∧ k'.kbufFreed = k.kbufFreed := by
  cases c with
  | readPipe id buf len => exact h.read hfree hidle (hlive buf rfl) hrun
  | writePipe id buf len => exact h.write hfree hidle (hlive buf rfl) hrun
  | _ =>
    obtain ⟨s', h', hf, -⟩ := h.other hfree hidle rfl hrun
    exact ⟨s', h', hf.freed⟩

theorem ShapeInv.step (h : ShapeInv hw k s) (hlive : ∀ b, k.kbufFreed b = false) {e : SyncEvent}
    (hen : (syncMachine hw).enabled k e) (hstep : (syncMachine hw).step k e = some k') :
    ∃ s', ShapeInv hw k' s' ∧ k'.kbufFreed = k.kbufFreed := by
  cases e with
  | schedule caller =>
    obtain ⟨s', h', hf, -⟩ := h.schedule hstep
    exact ⟨s', h', hf.freed⟩
  | store buf bytes =>
    obtain rfl := Option.some.inj hstep
    exact ⟨s, h.frame (h.coherent.congr rfl rfl fun _ => rfl) (h.table.congr rfl rfl fun _ _ => Or.inl)
      ⟨fun _ => Or.inl rfl, fun _ => rfl, rfl, rfl⟩ fun _ _ => rfl, rfl⟩
  | call p c =>
    obtain ⟨⟨rc, k₁⟩, hrun, rfl⟩ := Option.map_eq_some_iff.1 hstep
    obtain ⟨hfree, hidle⟩ := hen
    exact (h.setCurrent p).call (h.coherent.offQueues_iff.1 hfree) hidle (fun b _ => hlive b) hrun

theorem SyncStart.shapeInv (h : SyncStart k) : ShapeInv hw k k.queue where
  coherent := h.coherent
  table := h.table
  shape i :=
    { sound := fun pipe hp => by simp [Kernel.pipe, h.noObject i] at hp
      reader := fun r hr => by rw [h.noWaiter] at hr; simp at hr
      writer := fun w hw => by rw [h.noWaiter] at hw; simp at hw }
  waits i pipe hp := by simp [Kernel.pipe, h.noObject i] at hp

/-- The pipes are in shape, and no buffer has been freed. -/
def PipesSound (hw : Hardware) (k : Kernel) : Prop :=
  (∃ s, ShapeInv hw k s) ∧ ∀ b, k.kbufFreed b = false

theorem SyncStart.pipesSound (h : SyncStart k) : PipesSound hw k := ⟨⟨_, h.shapeInv⟩, h.noneFreed⟩

theorem PipesSound.step (h : PipesSound hw k) {e : SyncEvent} (hen : (syncMachine hw).enabled k e)
    (hstep : (syncMachine hw).step k e = some k') : PipesSound hw k' := by
  obtain ⟨⟨s, hinv⟩, hlive⟩ := h
  obtain ⟨s', hinv', hfreed⟩ := hinv.step hlive hen hstep
  exact ⟨⟨s', hinv'⟩, fun b => hfreed ▸ hlive b⟩

/-- Every run of calls of `sync.c`. -/
theorem shapeRun {P : Kernel → SyncEvent → Prop} (h₀ : SyncStart k₀) {t : List (Kernel × SyncEvent)}
    (hrun : Run (syncMachine hw) P k₀ t k) : ShapeInv hw k k.queue ∧ ∀ b, k.kbufFreed b = false := by
  obtain ⟨⟨s, h⟩, hlive⟩ := hrun.invariant (I := PipesSound hw) h₀.pipesSound
    fun _ _ _ h hen _ hstep => h.step hen hstep
  rw [h.coherent.queue_eq]
  exact ⟨h, hlive⟩

end Yalnix
