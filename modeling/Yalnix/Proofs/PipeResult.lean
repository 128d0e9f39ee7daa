import Yalnix.PipeResult
import Yalnix.Proofs.Blocking

/-!
# The results of the pipe calls

The drain loops move of a waiting write what it has left, and nothing of who is on no list. The handlers
leave the trap frame alone, so the result is right if the id is.
-/

namespace Yalnix

open Intrusive Transition

variable {hw : Hardware} {k k' k₀ k₁ : Kernel} {s s' : QueueId → List PcbPtr} {i : Nat} {p : PcbPtr}

/-! ## What a drain moves -/

theorem movedBytes_append (h₁ h₂ : List PipeEvent) :
    movedBytes i p (h₁ ++ h₂) = movedBytes i p h₁ ++ movedBytes i p h₂ := List.flatMap_append

@[simp] theorem movedBytes_nil : movedBytes i p [] = [] := rfl

@[simp] theorem movedBytes_readCall (j : Nat) (q : PcbPtr) (len : Int) (h : List PipeEvent) :
    movedBytes i p (.readCall j q len :: h) = movedBytes i p h := rfl

@[simp] theorem movedBytes_writeCall (j : Nat) (q : PcbPtr) (src : List UInt8) (h : List PipeEvent) :
    movedBytes i p (.writeCall j q src :: h) = movedBytes i p h := rfl

@[simp] theorem movedBytes_accepted (j : Nat) (q : PcbPtr) (bytes : List UInt8) (h : List PipeEvent) :
    movedBytes i p (.accepted j q bytes :: h) =
      (if j = i ∧ q = p then bytes else []) ++ movedBytes i p h := rfl

@[simp] theorem movedBytes_delivered (j : Nat) (q : PcbPtr) (bytes : List UInt8) (h : List PipeEvent) :
    movedBytes i p (.delivered j q bytes :: h) =
      (if j = i ∧ q = p then bytes else []) ++ movedBytes i p h := rfl

/-- What the process `p` has left, if it waits to write. -/
def leftAt (i : Nat) (k : Kernel) (s : QueueId → List PcbPtr) (p : PcbPtr) : Nat :=
  if p ∈ s (.wait (.pipeWriters i)) then (k.pcb p).left else 0

theorem leftAt_congr (hmem : p ∈ s' (.wait (.pipeWriters i)) ↔ p ∈ s (.wait (.pipeWriters i)))
    (hpcb : k'.pcb p = k.pcb p) : leftAt i k' s' p = leftAt i k s p := by
  simp only [leftAt, hmem, hpcb]

/-- A step moves of a writer what it then has less left. -/
theorem DrainStep.moved (hstep : DrainStep hw i k s k' s') (h : PipeShape hw k s i) (hc : Coherent k s)
    (hr : p ∉ s (.wait (.pipeReaders i))) : p ∉ s' (.wait (.pipeReaders i)) ∧
    ∃ e, k'.pipeHistory = k.pipeHistory ++ [e] ∧
      (movedBytes i p [e]).length + leftAt i k' s' p = leftAt i k s p := by
  cases hstep.cases h with
  | @serve r xs pipe out hs hp hpos hout hat =>
    have hne : p ≠ r := fun e => hr (by simp [hs, e])
    refine ⟨fun hmem => hr (mem_of_mem_woken hs hmem), _, hat.history, ?_⟩
    have hleft : leftAt i k' (woken s (.pipeReaders i) r xs) p = leftAt i k s p :=
      leftAt_congr (by rw [woken_ne (by simp)]) (hat.others p hne)
    simp [hne.symm, hleft]
  | @finish w xs pipe out hs hp hout hdone hat =>
    refine ⟨by rwa [woken_ne (by simp)], _, hat.history, ?_⟩
    have hnodup := hc.rep.nodup (.wait (.pipeWriters i))
    rw [hs, List.nodup_cons] at hnodup
    by_cases e : p = w
    · subst e
      have hpours : pours hw k p pipe = (k.pcb p).left := by
        unfold pours Pcb.left at *
        omega
      simp [leftAt, hs, hnodup.1, hout, hpours]
    · have hleft : leftAt i k' (woken s (.pipeWriters i) w xs) p = leftAt i k s p :=
        leftAt_congr (by simp [hs, e]) (hat.others p e)
      simp [Ne.symm e, hleft]
  | @refill w xs pipe out hs hp hout hleft hat =>
    refine ⟨hr, _, hat.history, ?_⟩
    by_cases e : p = w
    · subst e
      have hpours : pours hw k p pipe + (k'.pcb p).left = (k.pcb p).left := by
        rw [hat.pcb]
        unfold pours Pcb.left at *
        simp only
        omega
      simp [leftAt, hs, hout, hpours]
    · simp [Ne.symm e, leftAt_congr Iff.rfl (hat.others p e)]

theorem Drain.moved (hd : Drain hw i k s k' s') (h : PipeShape hw k s i) (hc : Coherent k s)
    (hr : p ∉ s (.wait (.pipeReaders i))) : ∃ h, k'.pipeHistory = k.pipeHistory ++ h ∧
      (movedBytes i p h).length + leftAt i k' s' p = leftAt i k s p := by
  induction hd with
  | refl => exact ⟨[], by simp, by simp⟩
  | head hstep _ ih =>
    obtain ⟨hr₁, e, hhist, hleft⟩ := hstep.moved h hc hr
    obtain ⟨h', hhist', hleft'⟩ := ih (h.drainStep h hc hstep) hstep.coherent hr₁
    refine ⟨e :: h', by simp [hhist', hhist], ?_⟩
    rw [← List.singleton_append, movedBytes_append, List.length_append, ← hleft, ← hleft']
    omega

/-- Of a process on no list, a drain moves nothing beyond the history `l` since `k₀`. -/
theorem Drain.moved_off (hd : Drain hw i k s k' s') (h : PipeShape hw k s i) (hc : Coherent k s)
    (hoff : ∀ l, p ∉ s l) {l : List PipeEvent} (hhist₀ : k.pipeHistory = k₀.pipeHistory ++ l) :
    (∀ v, p ∉ k'.queue (.wait v)) ∧ ∃ h, k'.pipeHistory = k₀.pipeHistory ++ h ∧
      (movedBytes i p h).length = (movedBytes i p l).length := by
  obtain ⟨-, hsub⟩ := hd.off (hoff _) (hoff _)
  obtain ⟨h₁, hhist, hmoved⟩ := hd.moved h hc (hoff (.wait (.pipeReaders i)))
  have hnone : leftAt i k s p = 0 := if_neg (hoff _)
  refine ⟨fun v hmem => ?_, l ++ h₁, by rw [hhist, hhist₀, List.append_assoc], ?_⟩
  · rw [(hd.coherent hc).queue_eq] at hmem
    exact hoff _ (hsub _ hmem)
  · rw [movedBytes_append, List.length_append]
    omega

/-! ## The trap frame -/

/-- A process may make a call in whatever mode and with whatever registers. -/
theorem ShapeInv.trapped (h : ShapeInv hw k s) (p : PcbPtr) (u : UserContext) :
    ShapeInv hw (k.trapped p u) s :=
  ⟨h.coherent.congr rfl rfl fun _ => rfl, h.table.congr rfl rfl fun _ _ => Or.inl,
    fun i => ⟨(h.shape i).sound, (h.shape i).reader, (h.shape i).writer⟩, h.waits⟩

@[simp] theorem mallocBuffer_live (k : Kernel) (kbuf : BufPtr) :
    (k.mallocBuffer kbuf).kbufFreed kbuf = false := Function.update_self ..

theorem mallocBuffer_of_live {kbuf : BufPtr} (h : k.kbufFreed kbuf = false) : k.mallocBuffer kbuf = k := by
  unfold Kernel.mallocBuffer
  rw [← h, Function.update_eq_self]

/-- What has not been freed is not freed by `malloc`. -/
theorem mallocBuffer_keeps {kbuf b : BufPtr} (h : k.kbufFreed b = false) :
    (k.mallocBuffer kbuf).kbufFreed b = false := by
  by_cases e : b = kbuf
  · rw [e, mallocBuffer_live]
  · exact (Function.update_of_ne e ..).trans h

theorem ShapeInv.mallocBuffer (h : ShapeInv hw k s) (kbuf : BufPtr) : ShapeInv hw (k.mallocBuffer kbuf) s := by
  refine ⟨h.coherent.congr rfl rfl fun _ => rfl, h.table.congr rfl rfl fun _ _ => Or.inl,
    fun i => ⟨(h.shape i).sound, fun r hr => ?_, fun w hw => ?_⟩, h.waits⟩
  · obtain ⟨b, hb, hlive⟩ := (h.shape i).reader r hr
    exact ⟨b, hb, mallocBuffer_keeps hlive⟩
  · obtain ⟨⟨b, hb, hlive⟩, hloc⟩ := (h.shape i).writer w hw
    exact ⟨⟨b, hb, mallocBuffer_keeps hlive⟩, hloc⟩

theorem ShapeInv.copyFromUser (h : ShapeInv hw k s) (kbuf : BufPtr) (data : Nat → UInt8) (len : Int) :
    ShapeInv hw (k.copyFromUser kbuf data len) s :=
  have hm := h.mallocBuffer kbuf
  ⟨hm.coherent.congr rfl rfl fun _ => rfl, hm.table.congr rfl rfl fun _ _ => Or.inl,
    fun i => ⟨(hm.shape i).sound, (hm.shape i).reader, (hm.shape i).writer⟩, hm.waits⟩

/-- A call of `sync.c` leaves the trap frame alone. -/
theorem PipeSyscall.sync_frame (h : ShapeInv hw k s) (hoff : ∀ l, k.current_process ∉ s l)
    (hidle : k.current_process ≠ k.idle_process) {c : PipeSyscall} {rc : Int}
    (hsync : c.sync hw k = some (rc, k₁)) :
    k₁.uctxt = k.uctxt ∧ k₁.mode = k.mode ∧ k₁.current_process = k.current_process := by
  cases c with
  | read kbuf =>
    have h₁ := h.mallocBuffer kbuf
    obtain ⟨s', hm⟩ := syncCall_moves h₁.coherent h₁.table hoff hidle
      (c := .readPipe (k.uctxt.regs 0) kbuf (k.uctxt.regs 2)) hsync
    exact ⟨hm.frame.uctxt, hm.frame.mode, hm.frame.current⟩
  | write kbuf data =>
    have h₁ := h.copyFromUser kbuf data (k.uctxt.regs 2)
    obtain ⟨s', hm⟩ := syncCall_moves h₁.coherent h₁.table hoff hidle
      (c := .writePipe (k.uctxt.regs 0) kbuf (k.uctxt.regs 2)) hsync
    exact ⟨hm.frame.uctxt, hm.frame.mode, hm.frame.current⟩

/-! ## When the id is the result -/

/-- The handler goes back to the process from `k₁` with the trap frame of `k`. -/
structure GoesBack (k k₁ k' : Kernel) : Prop where
  uctxt : k'.uctxt = k.uctxt
  back : k'.mode = .user ∧ k'.current_process = k.current_process
  queues : k'.queues = k₁.queues
  history : k'.pipeHistory = k₁.pipeHistory

theorem trueResult_error {c : PipeSyscall} (hsync : c.sync hw k = some (ERROR, k₁))
    (hback : GoesBack k k₁ k') : TrueResult hw k c k' ↔ k.uctxt.regs 0 = ERROR := by
  constructor
  · intro h
    rw [← hback.uctxt]
    exact h.error _ hsync
  · intro hid
    refine ⟨hback.back, fun _ _ => by rw [hback.uctxt, hid], fun rc k₂ hsync₂ hne => ?_⟩
    have := hsync.symm.trans hsync₂
    simp only [Option.some.injEq, Prod.mk.injEq] at this
    exact absurd this.1.symm hne

theorem trueResult_waits {c : PipeSyscall} {rc : Int} (hsync : c.sync hw k = some (rc, k₁))
    (hne : rc ≠ ERROR) (hback : GoesBack k k₁ k') {v : WaitList}
    (hmem : k.current_process ∈ k₁.queue (.wait v)) : ¬ TrueResult hw k c k' := by
  intro h
  refine (h.count rc k₁ hsync hne).1 v ?_
  rwa [Kernel.queue, hback.queues]

theorem trueResult_iff {c : PipeSyscall} {rc : Int} (hsync : c.sync hw k = some (rc, k₁))
    (hne : rc ≠ ERROR) (hback : GoesBack k k₁ k')
    (hoff : ∀ v, k.current_process ∉ k₁.queue (.wait v)) {h : List PipeEvent}
    (hhist : k₁.pipeHistory = k.pipeHistory ++ h) :
    TrueResult hw k c k' ↔
      k.uctxt.regs 0 = (movedBytes (k.uctxt.regs 0).toNat k.current_process h).length := by
  have hsame : k'.pipeHistory = k.pipeHistory ++ h := hback.history.trans hhist
  constructor
  · intro hres
    obtain ⟨-, h', hhist', hcount⟩ := hres.count rc k₁ hsync hne
    obtain rfl : h = h' := List.append_cancel_left (hsame.symm.trans hhist')
    rw [← hback.uctxt] at hcount ⊢
    exact hcount
  · intro hid
    refine ⟨hback.back, fun k₂ hsync₂ => ?_, fun rc' k₂ hsync₂ _ => ⟨fun v => ?_, h, hsame, ?_⟩⟩
    · have := hsync.symm.trans hsync₂
      simp only [Option.some.injEq, Prod.mk.injEq] at this
      exact absurd this.1 hne
    · rw [Kernel.queue, hback.queues]
      exact hoff v
    · rw [hback.uctxt]
      exact hid

/-- The id of an object of another type is no error code, and names no pipe. -/
theorem WrongType.noPipe {id len : Int} {buf : BufPtr} (h : WrongType k (.readPipe id buf len)) :
    id ≠ ERROR ∧ readable k id = false ∧ writable k id = false := by
  obtain ⟨a, ha, sync, hcheck, htype⟩ := h
  obtain rfl := List.mem_singleton.1 ha
  have hcheck : getCheckSync k id = some sync := hcheck
  refine ⟨?_, by simp [readable, hcheck, asPipe_type htype], by simp [writable, hcheck, asPipe_type htype]⟩
  rintro rfl
  simp [getCheckSync, ERROR] at hcheck

/-! ## Reads -/

/-- The handler may have the buffer already. -/
theorem sysPipeRead_malloc (k : Kernel) (kbuf : BufPtr) :
    sysPipeRead hw (k.mallocBuffer kbuf) kbuf = sysPipeRead hw k kbuf := by
  unfold sysPipeRead
  rw [mallocBuffer_of_live (mallocBuffer_live k kbuf)]
  rfl

theorem sysPipeRead_eq {kbuf : BufPtr} {rc : Int} (hlive : k.kbufFreed kbuf = false)
    (hsync : syncReadPipe hw k (k.uctxt.regs 0) kbuf (k.uctxt.regs 2) = some (rc, k₁))
    (hrc : rc ≠ ProcessState.processBlocked.toInt) : sysPipeRead hw k kbuf =
      if rc = ERROR then some k₁ else k₁.finishRead (k.uctxt.regs 1) kbuf (k.uctxt.regs 2) := by
  simp [sysPipeRead, mallocBuffer_of_live hlive, hsync, hrc]

theorem PipeSyscall.sync_read {kbuf : BufPtr} (hlive : k.kbufFreed kbuf = false) :
    (PipeSyscall.read kbuf).sync hw k = syncReadPipe hw k (k.uctxt.regs 0) kbuf (k.uctxt.regs 2) := by
  rw [PipeSyscall.sync, mallocBuffer_of_live hlive]

theorem finishRead_eq_some {kbuf : BufPtr} {buf len : Int} (h : k.finishRead buf kbuf len = some k') :
    0 ≤ len ∧ ∃ x, k' = (k.storeUser x).freeBuffer kbuf := by
  unfold Kernel.finishRead Kernel.copyToUser at h
  split at h
  · cases h
  · exact ⟨by omega, _, (Option.some.inj h).symm⟩

theorem finishRead_of_nonneg {kbuf : BufPtr} {buf len : Int} (h : 0 ≤ len) :
    ∃ x, k.finishRead buf kbuf len = some ((k.storeUser x).freeBuffer kbuf) := by
  unfold Kernel.finishRead Kernel.copyToUser
  rw [if_neg (by omega)]
  exact ⟨_, rfl⟩

theorem ShapeInv.readResult (h : ShapeInv hw k s) (hoff : ∀ l, k.current_process ∉ s l)
    (hidle : k.current_process ≠ k.idle_process) (hmode : k.mode = .user) {kbuf : BufPtr}
    (hlive : k.kbufFreed kbuf = false) :
    (∃ k', sysPipeRead hw k kbuf = some k' ∧ TrueResult hw k (.read kbuf) k') ↔
      ReadInId k (k.uctxt.regs 0) (k.uctxt.regs 2) := by
  cases hrun : syncReadPipe hw k (k.uctxt.regs 0) kbuf (k.uctxt.regs 2) with
  | none =>
    -- the id is that of an object of another type
    have hwrong : WrongType k (.readPipe (k.uctxt.regs 0) kbuf (k.uctxt.regs 2)) := by
      by_contra htype
      obtain ⟨rc, k', hread, -⟩ := h.readReported hoff hidle htype
      rw [hrun] at hread
      cases hread
    obtain ⟨hne, hno, -⟩ := hwrong.noPipe
    refine iff_of_false ?_ ?_
    · rintro ⟨k', hhandler, -⟩
      simp [sysPipeRead, mallocBuffer_of_live hlive, hrun] at hhandler
    · rintro (hid | ⟨hopen, -⟩)
      · exact hne hid
      · rw [hno] at hopen
        cases hopen
  | some x =>
    obtain ⟨rc, k₁⟩ := x
    have hsync : (PipeSyscall.read kbuf).sync hw k = some (rc, k₁) :=
      (PipeSyscall.sync_read hlive).trans hrun
    obtain ⟨huctxt, hm, hcur⟩ := PipeSyscall.sync_frame h hoff hidle hsync
    have hback : ∀ x, GoesBack k k₁ ((k₁.storeUser x).freeBuffer kbuf) := fun x =>
      ⟨huctxt, ⟨hm.trans hmode, hcur⟩, rfl, rfl⟩
    have hend := readPipe_ends h.coherent (fun i => (h.shape i).sound) hoff hidle hrun
    generalize hid : k.uctxt.regs 0 = id at hend
    generalize hlen : k.uctxt.regs 2 = len at hend
    cases hend with
    | error hno =>
      have hhandler : sysPipeRead hw k kbuf = some k := sysPipeRead_eq hlive hrun (by decide)
      have hiff : TrueResult hw k (.read kbuf) k ↔ k.uctxt.regs 0 = ERROR :=
        trueResult_error hsync ⟨rfl, ⟨hmode, rfl⟩, rfl, rfl⟩
      rw [hid] at hiff
      simp [hhandler, hiff, ReadInId, hno]
    | @blocked i pipe q hopen hp hempty hc =>
      refine iff_of_false ?_ ?_
      · rintro ⟨k', hhandler, hres⟩
        rw [sysPipeRead_eq hlive hrun (by decide), if_neg (by decide)] at hhandler
        obtain ⟨-, x, rfl⟩ := finishRead_eq_some hhandler
        refine trueResult_waits (v := .pipeReaders i) hsync (by decide) (hback x) ?_ hres
        rw [hc.queue_eq]
        simp
      · rintro (hid | ⟨-, -, pipe', hp', hne, -⟩)
        · simp only [ERROR] at hid
          omega
        · obtain rfl : pipe = pipe' := Option.some.inj (hp.symm.trans hp')
          exact hne hempty
    | @taken i pipe k₁ hopen hp hne hdrain =>
      obtain ⟨hc₁, -, hshape₁, -⟩ := h.readTake hoff hp kbuf len
      obtain ⟨s', hd, -⟩ := (drain_steps _ _ s hc₁).1 k₁ hdrain
      obtain ⟨hoff₁, hist, hhist, hmoved⟩ := hd.moved_off (hshape₁ i) hc₁ hoff (l := [_, _]) rfl
      simp only [movedBytes_readCall, movedBytes_delivered, movedBytes_nil, and_self, if_true,
        List.append_nil, Ring.length_contents] at hmoved
      have hnonneg := ((h.shape i).sound pipe hp).nonneg
      have hiff : ∀ x, TrueResult hw k (.read kbuf) ((k₁.storeUser x).freeBuffer kbuf) ↔
          (i : Int) = (min len pipe.bytes_in_buffer).toNat := fun x => by
        rw [trueResult_iff hsync (by decide) (hback x) hoff₁ hhist, hid, Int.toNat_natCast, hmoved]
      rw [sysPipeRead_eq hlive hrun (by decide), if_neg (by decide), hlen]
      constructor
      · rintro ⟨k', hhandler, hres⟩
        obtain ⟨hle, x, rfl⟩ := finishRead_eq_some hhandler
        have := (hiff x).1 hres
        exact Or.inr ⟨hopen, hle, pipe, hp, hne, by omega⟩
      · rintro (hid | ⟨-, hle, pipe', hp', -, hval⟩)
        · simp only [ERROR] at hid
          omega
        · obtain rfl : pipe = pipe' := Option.some.inj (hp.symm.trans hp')
          obtain ⟨x, hx⟩ : ∃ x, k₁.finishRead (k.uctxt.regs 1) kbuf len =
              some ((k₁.storeUser x).freeBuffer kbuf) := finishRead_of_nonneg hle
          exact ⟨_, hx, (hiff x).2 (by omega)⟩

/-! ## Writes -/

theorem sysPipeWrite_eq {kbuf : BufPtr} {data : Nat → UInt8} {rc : Int} (hlen : 0 ≤ k.uctxt.regs 2)
    (hsync : (PipeSyscall.write kbuf data).sync hw k = some (rc, k₁))
    (hrc : rc ≠ ProcessState.processBlocked.toInt) :
    sysPipeWrite hw k kbuf data = some (if rc = ERROR then k₁ else k₁.freeBuffer kbuf) := by
  have hrun : syncWritePipe hw (k.copyFromUser kbuf data (k.uctxt.regs 2)) (k.uctxt.regs 0) kbuf
      (k.uctxt.regs 2) = some (rc, k₁) := hsync
  unfold Kernel.copyFromUser at hrun
  simp only [sysPipeWrite, if_neg (not_lt.2 hlen), Option.bind_eq_bind, hrun, Option.bind_some, if_neg hrc]
  split
  · rfl
  · rfl

/-- A write that waits and then has been finished is on no list, and has moved all its bytes. -/
theorem ShapeInv.writeFinished (h : ShapeInv hw k s) (hoff : ∀ l, k.current_process ∉ s l) {pipe : Pipe}
    (hp : k.pipe i = some pipe) {buf : BufPtr} {len : Int} {m : Nat}
    (hm : m = min (hw.PIPE_BUFFER_LEN - pipe.bytes_in_buffer).toNat len.toNat) (hlt : (m : Int) < len)
    (hlive : k.kbufFreed buf = false) {q : Heap QueueId PcbPtr} (hk₁ : k₁ = writeNow hw k i pipe buf len m
      (pcbBlockedWrite (k.pcb k.current_process) i buf len m) q)
    (hc₁ : Coherent k₁ (Function.update s (.wait (.pipeWriters i))
      (s (.wait (.pipeWriters i)) ++ [k.current_process]))) {s' : QueueId → List PcbPtr}
    (hd : Drain hw i k₁ (Function.update s (.wait (.pipeWriters i))
      (s (.wait (.pipeWriters i)) ++ [k.current_process])) k' s')
    (hleft : k.current_process ∉ s' (.wait (.pipeWriters i))) :
    (∀ v, k.current_process ∉ k'.queue (.wait v)) ∧ ∃ h, k'.pipeHistory = k.pipeHistory ++ h ∧
      (movedBytes i k.current_process h).length = len.toNat := by
  obtain ⟨-, hshape₁, -⟩ := h.writeBlocked hoff hp hlive hk₁ hc₁
  obtain ⟨readers, _, _, hreaders, -, -, -, -, -, -, hother⟩ := hd.parted (hshape₁ i) hc₁
  rw [Function.update_of_ne (by simp)] at hreaders
  obtain ⟨h₁, hhist, hmoved⟩ := hd.moved (p := k.current_process) (hshape₁ i) hc₁ (by
    rw [Function.update_of_ne (by simp)]
    exact hoff _)
  have hhist₁ : k'.pipeHistory = k.pipeHistory ++
      (.writeCall i k.current_process ((List.range len.toNat).map (k.kbuf buf)) ::
        .accepted i k.current_process ((List.range m).map (k.kbuf buf)) :: h₁) := by
    rw [hhist, hk₁, writeNow, List.append_assoc]
    rfl
  refine ⟨fun v hmem => ?_, _, hhist₁, ?_⟩
  · rw [(hd.coherent hc₁).queue_eq] at hmem
    by_cases hv : v = .pipeWriters i
    · exact hleft (hv ▸ hmem)
    · by_cases hv' : v = .pipeReaders i
      · subst hv'
        exact hoff (.wait (.pipeReaders i)) (hreaders ▸ List.mem_append_right _ hmem)
      · rw [hother _ (by simp) (by simpa using hv') (by simpa using hv),
          Function.update_of_ne (by simpa using hv)] at hmem
        exact hoff _ hmem
  · have hleft₁ : leftAt i k₁ (Function.update s (.wait (.pipeWriters i))
        (s (.wait (.pipeWriters i)) ++ [k.current_process])) k.current_process = (len - m).toNat := by
      rw [leftAt, if_pos (by simp), hk₁]
      simp [writeNow, pcbBlockedWrite, Pcb.left]
    have hnone : leftAt i k' s' k.current_process = 0 := if_neg hleft
    simp only [movedBytes_writeCall, movedBytes_accepted, and_self, if_true, List.length_append,
      List.length_map, List.length_range]
    omega

/-- A write to an open pipe is done at once, with all its bytes, or its caller waits. -/
theorem ShapeInv.writeOutcome (h : ShapeInv hw k s) (hoff : ∀ l, k.current_process ∉ s l)
    (hidle : k.current_process ≠ k.idle_process) {id len rc : Int} {buf : BufPtr} (hle : 0 ≤ len)
    (hlive : k.kbufFreed buf = false) (hrun : syncWritePipe hw k id buf len = some (rc, k')) :
    (rc = ERROR ∧ k' = k ∧ writable k id = false) ∨
    (rc ≠ ERROR ∧ rc ≠ ProcessState.processBlocked.toInt ∧ writable k id = true ∧
      (WriteAtOnce hw k id buf len ∧ (∀ v, k.current_process ∉ k'.queue (.wait v)) ∧
          (∃ h, k'.pipeHistory = k.pipeHistory ++ h ∧
            (movedBytes id.toNat k.current_process h).length = len.toNat) ∨
        ¬ WriteAtOnce hw k id buf len ∧ ∃ v, k.current_process ∈ k'.queue (.wait v))) := by
  have htype : ¬ WrongType k (.writePipe id buf len) := fun hwrong => by
    have hnone : syncWritePipe hw k id buf len = none := run_wrong_type rfl hwrong
    rw [hrun] at hnone
    cases hnone
  obtain ⟨rc₁, k₁, hrun₁, hiff⟩ := h.writeReported hoff hidle htype hlive
  obtain ⟨rfl, rfl⟩ : rc = rc₁ ∧ k' = k₁ := by
    have := Option.some.inj (hrun.symm.trans hrun₁)
    exact ⟨congrArg Prod.fst this, congrArg Prod.snd this⟩
  cases writePipe_cases h.coherent hoff hidle hrun with
  | error hno => exact Or.inl ⟨rfl, rfl, hno⟩
  | @blocked i m n pipe q k₁ k' hopen hp hm hlt hk₁ hc₁ hdrain =>
    refine Or.inr ⟨by decide, by decide, hopen, ?_⟩
    obtain ⟨s', hd, -⟩ := (drain_steps _ _ _ hc₁).2 k' hdrain
    have hc' := hd.coherent hc₁
    rw [reported_blocked hc'] at hiff
    have hroom : WriteAtOnce hw k i buf len ↔ WriteDrains hw k (.writePipe i buf len) := by
      refine or_iff_right ?_
      rintro ⟨pipe', hp', hfits⟩
      obtain rfl : pipe = pipe' := Option.some.inj (hp.symm.trans hp')
      omega
    rw [hroom]
    by_cases hdrains : WriteDrains hw k (.writePipe i buf len)
    · left
      exact ⟨hdrains, h.writeFinished hoff hp hm hlt hlive hk₁ hc₁ hd fun hmem => hiff.1 hmem hdrains⟩
    · right
      refine ⟨hdrains, .pipeWriters i, ?_⟩
      rw [hc'.queue_eq]
      exact hiff.2 hdrains
  | @done i m n pipe k₁ k' hopen hp hm hlt hk₁ hdrain =>
    subst hk₁
    refine Or.inr ⟨by decide, by decide, hopen, Or.inl ?_⟩
    obtain ⟨hc₁, -, hshape₁, -⟩ := h.writeDone hoff hp buf len m
    obtain ⟨s', hd, -⟩ := (drain_steps _ _ s hc₁).2 k' hdrain
    obtain ⟨hoff₁, hist, hhist, hmoved⟩ := hd.moved_off (hshape₁ i) hc₁ hoff (l := [_, _]) rfl
    simp only [movedBytes_writeCall, movedBytes_accepted, movedBytes_nil, and_self, if_true,
      List.append_nil, List.length_map, List.length_range] at hmoved
    refine ⟨Or.inl ⟨pipe, hp, ?_⟩, hoff₁, hist, hhist, ?_⟩
    · omega
    · rw [Int.toNat_natCast]
      omega

theorem ShapeInv.writeResult (h : ShapeInv hw k s) (hoff : ∀ l, k.current_process ∉ s l)
    (hidle : k.current_process ≠ k.idle_process) (hmode : k.mode = .user) (kbuf : BufPtr)
    (data : Nat → UInt8) :
    (∃ k', sysPipeWrite hw k kbuf data = some k' ∧ TrueResult hw k (.write kbuf data) k') ↔
      WriteInId hw k (k.uctxt.regs 0) kbuf (k.uctxt.regs 2) := by
  by_cases hle : 0 ≤ k.uctxt.regs 2
  · have hinv := h.copyFromUser kbuf data (k.uctxt.regs 2)
    have hlive : (k.copyFromUser kbuf data (k.uctxt.regs 2)).kbufFreed kbuf = false := mallocBuffer_live k kbuf
    cases hsync : (PipeSyscall.write kbuf data).sync hw k with
    | none =>
      have hwrong : WrongType k (.readPipe (k.uctxt.regs 0) kbuf (k.uctxt.regs 2)) := by
        by_contra htype
        obtain ⟨rc, k', hwrite, -⟩ := hinv.writeReported hoff hidle htype hlive
        cases hsync.symm.trans hwrite
      obtain ⟨hne, -, hno⟩ := hwrong.noPipe
      refine iff_of_false ?_ ?_
      · rintro ⟨k', hhandler, -⟩
        have hrun : syncWritePipe hw (k.copyFromUser kbuf data (k.uctxt.regs 2)) (k.uctxt.regs 0) kbuf
          (k.uctxt.regs 2) = none := hsync
        unfold Kernel.copyFromUser at hrun
        simp [sysPipeWrite, hrun] at hhandler
      · rintro ⟨-, hid | ⟨hopen, -⟩⟩
        · exact hne hid
        · rw [hno] at hopen
          cases hopen
    | some x =>
      obtain ⟨rc, k₁⟩ := x
      obtain ⟨huctxt, hm, hcur⟩ := PipeSyscall.sync_frame h hoff hidle hsync
      have hback : GoesBack k k₁ k₁ := ⟨huctxt, ⟨hm.trans hmode, hcur⟩, rfl, rfl⟩
      have hfree : GoesBack k k₁ (k₁.freeBuffer kbuf) := ⟨huctxt, ⟨hm.trans hmode, hcur⟩, rfl, rfl⟩
      rcases hinv.writeOutcome hoff hidle hle hlive hsync with ⟨rfl, -, hno⟩ | ⟨hne, hrc, hopen, hcase⟩
      · have hno : writable k (k.uctxt.regs 0) = false := hno
        rw [sysPipeWrite_eq hle hsync (by decide), if_pos rfl]
        simp [trueResult_error hsync hback, WriteInId, hno, hle]
      · have hopen : writable k (k.uctxt.regs 0) = true := hopen
        have hid : k.uctxt.regs 0 ≠ ERROR := fun e => by
          simp [e, writable, getCheckSync, ERROR] at hopen
        rw [sysPipeWrite_eq hle hsync hrc, if_neg hne]
        rcases hcase with ⟨hat, hoff₁, hist, hhist, hmoved⟩ | ⟨hat, v, hmem⟩
        · have hat : WriteAtOnce hw k (k.uctxt.regs 0) kbuf (k.uctxt.regs 2) := hat
          have hiff := trueResult_iff hsync hne hfree hoff₁ hhist
          have hlen : ((k.uctxt.regs 2).toNat : Int) = k.uctxt.regs 2 := Int.toNat_of_nonneg hle
          rw [show (movedBytes (k.uctxt.regs 0).toNat k.current_process hist).length = _ from hmoved,
            hlen] at hiff
          simp [hiff, WriteInId, hle, hid, hopen, hat]
        · have hat : ¬ WriteAtOnce hw k (k.uctxt.regs 0) kbuf (k.uctxt.regs 2) := hat
          simp [trueResult_waits hsync hne hfree hmem, WriteInId, hid, hat]
  · refine iff_of_false ?_ fun h => hle h.1
    rintro ⟨k', hhandler, -⟩
    simp [sysPipeWrite, lt_of_not_ge hle] at hhandler

/-! ## Every call -/

/-- A pipe call of a process on no list, in any state that calls of `sync.c` lead to, with any id, user
buffer and length: control comes back with the true result if and only if the id in `regs[0]` is it. -/
theorem pipe_results {P : Kernel → SyncEvent → Prop} (h₀ : SyncStart k₀)
    {t : List (Kernel × SyncEvent)} (hrun : Run (syncMachine hw) P k₀ t k) (hfree : k.OffQueues p)
    (hidle : p ≠ k.idle_process) (u : UserContext) (c : PipeSyscall) :
    (∃ k', c.syscall.run hw (k.trapped p u) = some k' ∧ TrueResult hw (k.trapped p u) c k') ↔
      ResultInId hw (k.trapped p u) c := by
  obtain ⟨hshape, hlive⟩ := shapeRun h₀ hrun
  have h := hshape.trapped p u
  have hoff := hshape.coherent.offQueues_iff.1 hfree
  cases c with
  | read kbuf => exact h.readResult hoff hidle rfl (hlive kbuf)
  | write kbuf data => exact h.writeResult hoff hidle rfl kbuf data

/-- There are two pipes, both empty. -/
def twoPipeEvents : List SyncEvent :=
  [.call 102 (.initPipe 8 true fun _ => 0), .call 102 (.initPipe 12 true fun _ => 0)]

def twoPipeKernel : Kernel :=
  ((syncMachine .small).exec Boot.smallProcesses twoPipeEvents).get (by decide +kernel)

theorem twoPipeKernel_run : Run (syncMachine .small) (fun _ _ => True) Boot.smallProcesses
    ((syncMachine .small).trace Boot.smallProcesses twoPipeEvents) twoPipeKernel := by
  have hexec : (syncMachine .small).exec Boot.smallProcesses twoPipeEvents = some twoPipeKernel :=
    (Option.some_get _).symm
  exact Boot.smallProcesses_syncStart.shapeExec hexec (by decide +kernel)

theorem twoPipeKernel_free : twoPipeKernel.OffQueues 102 := by
  have hc := (shapeRun Boot.smallProcesses_syncStart twoPipeKernel_run).1.coherent
  exact hc.offQueues_iff_state.2 (by decide +kernel)

/-- The registers of a pipe call with the id `id`, a buffer at `140` and the length `1`. -/
def oneByte (id : Int) : UserContext :=
  ⟨0, 0, 0, 0, 0, 0, fun r => if r = 0 then id else if r = 1 then 140 else if r = 2 then 1 else 0⟩

/-- One byte is written to the pipe `1`. -/
theorem pipe_results_small : ∃ k', sysPipeWrite .small (twoPipeKernel.trapped 102 (oneByte 1)) 0
      (fun _ => 7) = some k' ∧
    TrueResult .small (twoPipeKernel.trapped 102 (oneByte 1)) (.write 0 fun _ => 7) k' := by
  refine (pipe_results Boot.smallProcesses_syncStart twoPipeKernel_run twoPipeKernel_free
    (by decide +kernel) (oneByte 1) (.write 0 fun _ => 7)).2 ?_
  have hpipe : (twoPipeKernel.pipe 1).any
      (fun pipe => 1 ≤ (2 - pipe.bytes_in_buffer).toNat) = true := by decide +kernel
  obtain ⟨pipe, hp, hfits⟩ := (Option.any_eq_true _ _).1 hpipe
  refine ⟨by decide, Or.inr ⟨by decide +kernel, rfl, Or.inl ⟨pipe, hp, ?_⟩⟩⟩
  have hfits : 1 ≤ (2 - pipe.bytes_in_buffer).toNat := by simpa using hfits
  show (1 : Int) ≤ (2 - pipe.bytes_in_buffer).toNat
  omega

/-- One byte is written to the pipe `0`, and the process is told that none was. -/
theorem pipe_results_fails : ¬ ∀ (hw : Hardware) (k₀ k : Kernel) (t : List (Kernel × SyncEvent))
    (p : PcbPtr) (u : UserContext) (c : PipeSyscall), SyncStart k₀ →
    Run (syncMachine hw) (fun _ _ => True) k₀ t k → k.OffQueues p → p ≠ k.idle_process →
    ∀ k', c.syscall.run hw (k.trapped p u) = some k' → TrueResult hw (k.trapped p u) c k' := by
  intro h
  have hback : (sysPipeWrite .small (twoPipeKernel.trapped 102 (oneByte 0)) 0 fun _ => 7).isSome := by
    decide +kernel
  obtain ⟨k', hk'⟩ := Option.isSome_iff_exists.1 hback
  have hres := h .small _ _ _ 102 (oneByte 0) (.write 0 fun _ => 7) Boot.smallProcesses_syncStart
    twoPipeKernel_run twoPipeKernel_free (by decide +kernel) k' hk'
  have hinv := (shapeRun Boot.smallProcesses_syncStart twoPipeKernel_run).1.trapped 102 (oneByte 0)
  have hoff := (hinv.coherent.offQueues_iff (p := 102)).1 twoPipeKernel_free
  obtain ⟨-, hid | ⟨-, hid, -⟩⟩ :=
    (hinv.writeResult hoff (by decide +kernel) rfl 0 fun _ => 7).1 ⟨k', hk', hres⟩
  · exact absurd hid (by decide)
  · exact absurd hid (by decide)

end Yalnix
