import Yalnix.Dispatch
import Yalnix.Proofs.Monitor
import Yalnix.Proofs.PipeLeak
import Yalnix.Proofs.TrapStep
import Yalnix.Proofs.UserBrk

/-!
# Calls that move nobody

As long as nobody waits for an object, a call on an object that has nothing to wait for leaves every
process where it is.
-/

namespace Yalnix

open Intrusive Transition

variable {hw : Hardware} {k k' k₁ : Kernel} {s s' : QueueId → List PcbPtr} {p : PcbPtr} {i : Nat}
  {c : Syscall}

/-! ## The invariant -/

/-- Nobody waits for an object, and whoever has the processor is running. -/
structure Calm (hw : Hardware) (k : Kernel) (s : QueueId → List PcbPtr) : Prop where
  steady : Steady k s
  call : CallInv k s
  noWaiter : ∀ w, s (.wait w) = []
  sound : ∀ i pipe, k.pipe i = some pipe → pipe.Sound hw
  running : k.mode = .user → (k.pcb k.current_process).state = .processRunning
  suspended : ∀ p caller, (k.pcb p).kernel_context = .schedule caller → caller.onObject = false
  caller : ∀ caller, k.mode = .atSchedule caller → caller.onObject = false

/-- `b` is `a` but for what does not say where the process is. -/
structure Pcb.Stays (a b : Pcb) : Prop where
  state : b.state = a.state
  context : b.kernel_context = a.kernel_context
  parent : b.parent = a.parent
  waiting : b.waiting_for_children = a.waiting_for_children

theorem Pcb.Stays.refl (a : Pcb) : a.Stays a := ⟨rfl, rfl, rfl, rfl⟩

theorem Pcb.Synced.stays {a b : Pcb} (h : a.Synced b) (hst : b.state = a.state) : a.Stays b := by
  refine ⟨hst, ?_, h.kin.1, h.kin.2⟩
  rw [h]

theorem stays_of_others {q : PcbPtr} (hne : ∀ n, n ≠ q → k'.pcb n = k.pcb n)
    (hq : (k.pcb q).Stays (k'.pcb q)) (n : PcbPtr) : (k.pcb n).Stays (k'.pcb n) := by
  by_cases e : n = q
  · exact e ▸ hq
  · rw [hne n e]
    exact .refl _

/-- The process `p` holds the lock in slot `i`. -/
def Kernel.Holds (k : Kernel) (p : PcbPtr) (i : Nat) : Prop := k.lock i = some ⟨true, some p⟩

/-- The call `c` moves nobody, and frees no lock but the one that it releases. -/
structure Quiet (hw : Hardware) (k : Kernel) (s : QueueId → List PcbPtr) (c : Syscall) (k' : Kernel) :
    Prop where
  coherent : Coherent k' s
  table : SyncTable k' s
  sound : ∀ i pipe, k'.pipe i = some pipe → pipe.Sound hw
  allocated : k'.allocated = k.allocated
  idle : k'.idle_process = k.idle_process
  current : k'.current_process = k.current_process
  mode : k'.mode = k.mode
  pcb : ∀ q, (k.pcb q).Stays (k'.pcb q)
  held : ∀ p i, k.Holds p i → k'.Holds p i ∨ c = .lockRelease ∧ k.uctxt.regs 0 = i ∧ p = k.current_process

namespace Calm

theorem off (h : Calm hw k s) (hmode : k.mode = .user) : ∀ l, k.current_process ∉ s l :=
  h.steady.off (Or.inl hmode)

/-- The pipes are in shape: nobody waits there. -/
theorem shape (h : Calm hw k s) : ShapeInv hw k s where
  coherent := h.steady.coherent
  table := h.call.table
  shape i := ⟨h.sound i, fun r hr => by simp [h.noWaiter] at hr, fun w hw => by simp [h.noWaiter] at hw⟩
  waits i pipe _ hne := absurd (h.noWaiter _) hne

/-- The registers, the buffers and the history say nothing of who is where. -/
theorem congr (h : Calm hw k s) (hk : k' = { k with
    mem := k'.mem, kbuf := k'.kbuf, kbufFreed := k'.kbufFreed, kstatus := k'.kstatus,
    kstatusAllocated := k'.kstatusAllocated, uctxt := k'.uctxt, userStores := k'.userStores,
    pipeHistory := k'.pipeHistory }) : Calm hw k' s := by
  rw [hk]
  have hc : ∀ K : Kernel, K.queues = k.queues → K.idle_process = k.idle_process → K.pcb = k.pcb →
      Coherent K s := fun K hq hi hp => h.steady.coherent.congr hq hi fun _ => by rw [hp]
  exact ⟨⟨hc _ rfl rfl rfl, h.steady.off, h.steady.running, h.steady.plain, h.steady.caller⟩,
    ⟨hc _ rfl rfl rfl, h.call.table.congr rfl rfl fun _ _ => Or.inl, h.call.idle_allocated,
      h.call.idle_flag, h.call.parents⟩,
    h.noWaiter, h.sound, h.running, h.suspended, h.caller⟩

/-- A call that moves nobody goes back to its caller. -/
theorem quiet (h : Calm hw k s) (hmode : k.mode = .user) (hq : Quiet hw k s c k') : Calm hw k' s where
  steady := .returns hmode hq.coherent hq.mode hq.current (h.off hmode) fun p => by
    rw [(hq.pcb p).context]
    exact h.steady.plain p
  call := ⟨hq.coherent, hq.table, by rw [hq.allocated, hq.idle]; exact h.call.idle_allocated,
    by rw [hq.idle, (hq.pcb _).waiting]; exact h.call.idle_flag,
    fun p => by rw [(hq.pcb p).parent]; exact h.call.parents p⟩
  noWaiter := h.noWaiter
  sound := hq.sound
  running _ := by
    rw [hq.current, (hq.pcb _).state]
    exact h.running hmode
  suspended p caller := by
    rw [(hq.pcb p).context]
    exact h.suspended p caller
  caller caller hno := h.caller caller (hq.mode ▸ hno)

end Calm

namespace Quiet

theorem refl (h : Calm hw k s) (c : Syscall) : Quiet hw k s c k :=
  ⟨h.steady.coherent, h.call.table, h.sound, rfl, rfl, rfl, rfl, fun _ => .refl _, fun _ _ => Or.inl⟩

/-- Then the handler changes what does not say who is where. -/
theorem congr (h : Quiet hw k s c k₁) (hk : k' = { k₁ with
    pcb := k'.pcb, mem := k'.mem, kbuf := k'.kbuf, kbufFreed := k'.kbufFreed, uctxt := k'.uctxt,
    userStores := k'.userStores })
    (hpcb : ∀ q, (k₁.pcb q).Stays (k'.pcb q)) : Quiet hw k s c k' where
  coherent := h.coherent.congr (by rw [hk]) (by rw [hk]) fun q => (hpcb q).state
  table := h.table.congr (by rw [hk]) (by rw [hk]) fun _ _ => Or.inl
  sound i pipe hp := h.sound i pipe (by rw [hk] at hp; exact hp)
  allocated := by rw [hk]; exact h.allocated
  idle := by rw [hk]; exact h.idle
  current := by rw [hk]; exact h.current
  mode := by rw [hk]; exact h.mode
  pcb q := ⟨(hpcb q).state.trans (h.pcb q).state, (hpcb q).context.trans (h.pcb q).context,
    (hpcb q).parent.trans (h.pcb q).parent, (hpcb q).waiting.trans (h.pcb q).waiting⟩
  held p i hp := by
    rw [hk]
    exact h.held p i hp

/-- What the handler does with its buffer before the call moves nobody. -/
theorem before {K : Kernel} (h : Quiet hw K s c k₁)
    (hK : K = { k with kbuf := K.kbuf, kbufFreed := K.kbufFreed }) : Quiet hw k s c k₁ := by
  rw [hK] at h
  exact ⟨h.coherent, h.table, h.sound, h.allocated, h.idle, h.current, h.mode, h.pcb, h.held⟩

theorem returnValue (h : Quiet hw k s c k₁) (v : Int) : Quiet hw k s c (k₁.returnValue v) :=
  h.congr rfl fun _ => .refl _

/-- A call of `sync.c` that leaves the lists and the states alone. -/
theorem ofSync (h : Calm hw k s) (hmode : k.mode = .user) (hidle : k.current_process ≠ k.idle_process)
    (call : SyncCall) (hlive : ∀ b ∈ call.buffer, k.kbufFreed b = false) {rc : Int}
    (hrun : call.run hw k = some (rc, k₁)) (hc : Coherent k₁ s)
    (hst : ∀ q, (k₁.pcb q).state = (k.pcb q).state)
    (hheld : ∀ p i, k.Holds p i → k₁.Holds p i ∨
      c = .lockRelease ∧ k.uctxt.regs 0 = i ∧ p = k.current_process) : Quiet hw k s c k₁ := by
  obtain ⟨s', hmoves⟩ := syncCall_moves h.steady.coherent h.call.table (h.off hmode) hidle hrun
  have hf := hmoves.frame
  have hs : s' = s := (hmoves.coherent h.steady.coherent).queue_eq.symm.trans hc.queue_eq
  obtain ⟨s₁, hshape, -⟩ := h.shape.call (h.off hmode) hidle hlive hrun
  exact ⟨hc, hs ▸ hmoves.table h.call.table, fun i => (hshape.shape i).sound, hf.allocated, hf.idle,
    hf.current, hf.mode, fun q => (hf.pcb q).stays (hst q), hheld⟩

end Quiet

/-! ## Pipes -/

/-- Where nobody waits there is nothing to drain. -/
theorem Drain.eq_of_noWaiter (hd : Drain hw i k s k' s') (hr : s (.wait (.pipeReaders i)) = [])
    (hs : s (.wait (.pipeWriters i)) = []) : k' = k := by
  cases hd with
  | refl => rfl
  | head hstep _ =>
    cases hstep with
    | serve hs' => simp [hr] at hs'
    | finish hs' => simp [hs] at hs'
    | refill hs' => simp [hs] at hs'

/-- A pipe is no lock. -/
theorem holds_setPipe {pipe x : Pipe} (hp : k.pipe i = some pipe)
    (ht : k'.sync_table = (k.setObject i (.pipe x)).sync_table) {j : Nat} (h : k.Holds p j) :
    k'.Holds p j := by
  have hne : j ≠ i := by
    rintro rfl
    obtain ⟨o, ho, hobj⟩ := pipe_eq_some hp
    simp [Kernel.Holds, Kernel.lock, ho, hobj, SyncObject.asLock] at h
  rw [Kernel.Holds, Kernel.lock, ht]
  rwa [Kernel.Holds, ← lock_setObject_ne hne (.pipe x)] at h

namespace Calm

/-- A read with its buffer there. -/
theorem pipeReadInto (h : Calm hw k s) (hmode : k.mode = .user) (hidle : k.current_process ≠ k.idle_process)
    {kbuf : BufPtr} (hlive : k.kbufFreed kbuf = false) (hgo : GoesOn hw k k.uctxt (.pipeRead kbuf))
    (hstep : sysPipeRead hw k kbuf = some k') : Quiet hw k s (.pipeRead kbuf) k' := by
  have hoff := h.off hmode
  obtain ⟨⟨rc, k₁⟩, hrun, -⟩ := Option.bind_eq_some_iff.1 hstep
  rw [mallocBuffer_of_live hlive] at hrun
  have hend := readPipe_ends h.steady.coherent h.sound hoff hidle hrun
  generalize hid : k.uctxt.regs 0 = id at hend
  have hgo : readable k id = true → ∃ pipe ∈ k.pipe id.toNat, pipe.bytes_in_buffer ≠ 0 := by
    rw [← hid]
    exact hgo
  cases hend with
  | error hno =>
    obtain rfl := Option.some.inj (hstep.symm.trans (sysPipeRead_eq hlive hrun (by decide)))
    exact .refl h _
  | blocked hopen hp hempty hc' =>
    obtain ⟨pipe, hp', hne⟩ := hgo hopen
    obtain rfl := Option.some.inj (hp.symm.trans hp')
    exact absurd hempty hne
  | @taken i pipe k₁ hopen hp hne hdrain =>
    obtain ⟨hc₁, -, -, -⟩ := h.shape.readTake hoff hp kbuf (k.uctxt.regs 2)
    obtain ⟨s', hd, -⟩ := (drain_steps _ _ s hc₁).1 k₁ hdrain
    obtain rfl := hd.eq_of_noWaiter (h.noWaiter _) (h.noWaiter _)
    have hquiet : Quiet hw k s (.pipeRead kbuf) (readTake hw k i pipe kbuf (k.uctxt.regs 2)) := by
      refine .ofSync h hmode hidle (.readPipe (k.uctxt.regs 0) kbuf (k.uctxt.regs 2)) ?_ hrun hc₁
        (fun q => ?_) fun p j hp' => Or.inl (holds_setPipe hp rfl hp')
      · rintro b ⟨⟩
        exact hlive
      · by_cases e : q = k.current_process
        · subst e
          simp [readTake]
        · simp [readTake, e]
    rw [sysPipeRead_eq hlive hrun (by decide), if_neg (by decide)] at hstep
    obtain ⟨-, rfl⟩ := finishRead_bytes hstep
    exact hquiet.congr rfl fun _ => .refl _

theorem pipeRead (h : Calm hw k s) (hmode : k.mode = .user) (hidle : k.current_process ≠ k.idle_process)
    {kbuf : BufPtr} (hgo : GoesOn hw k k.uctxt (.pipeRead kbuf)) (hstep : sysPipeRead hw k kbuf = some k') :
    Quiet hw k s (.pipeRead kbuf) k' := by
  have hnew : Calm hw (k.mallocBuffer kbuf) s := h.congr rfl
  have hquiet := hnew.pipeReadInto hmode hidle (mallocBuffer_live k kbuf) hgo
    ((sysPipeRead_malloc k kbuf).trans hstep)
  exact hquiet.before rfl

theorem pipeWrite (h : Calm hw k s) (hmode : k.mode = .user) (hidle : k.current_process ≠ k.idle_process)
    {kbuf : BufPtr} {data : Nat → UInt8} (hgo : GoesOn hw k k.uctxt (.pipeWrite kbuf data))
    (hstep : sysPipeWrite hw k kbuf data = some k') : Quiet hw k s (.pipeWrite kbuf data) k' := by
  have hlen : 0 ≤ k.uctxt.regs 2 := by
    by_contra hneg
    simp [sysPipeWrite, lt_of_not_ge hneg] at hstep
  -- the buffer has the bytes to write
  have hcopied : Calm hw (k.copyFromUser kbuf data (k.uctxt.regs 2)) s := h.congr rfl
  obtain ⟨⟨rc, k₁⟩, hsync⟩ : ∃ x, (PipeSyscall.write kbuf data).sync hw k = some x := by
    unfold sysPipeWrite at hstep
    rw [if_neg (by omega)] at hstep
    obtain ⟨x, hx, -⟩ := Option.bind_eq_some_iff.1 hstep
    exact ⟨x, hx⟩
  have hrun : syncWritePipe hw (k.copyFromUser kbuf data (k.uctxt.regs 2)) (k.uctxt.regs 0) kbuf
      (k.uctxt.regs 2) = some (rc, k₁) := hsync
  have hcase := writePipe_cases hcopied.steady.coherent (hcopied.off hmode) hidle hrun
  have hrc : rc ≠ ProcessState.processBlocked.toInt := by
    generalize k.uctxt.regs 0 = id at hcase
    cases hcase <;> decide
  have hk' := Option.some.inj (hstep.symm.trans (sysPipeWrite_eq hlen hsync hrc))
  suffices hquiet : Quiet hw (k.copyFromUser kbuf data (k.uctxt.regs 2)) s (.pipeWrite kbuf data) k₁ by
    have hquiet : Quiet hw k s (.pipeWrite kbuf data) k₁ := hquiet.before rfl
    rw [hk']
    split
    · exact hquiet
    · exact hquiet.congr rfl fun _ => .refl _
  generalize hid : k.uctxt.regs 0 = id at hcase
  have hgo : writable k id = true → ∃ pipe ∈ k.pipe id.toNat,
      k.uctxt.regs 2 ≤ (hw.PIPE_BUFFER_LEN - pipe.bytes_in_buffer).toNat := by
    rw [← hid]
    exact hgo
  cases hcase with
  | error hno => exact .refl hcopied _
  | @blocked i m n pipe q k₁ k' hopen hp hm hlt =>
    obtain ⟨pipe', hp', hfits⟩ := hgo hopen
    obtain rfl : pipe' = pipe := Option.some.inj (hp'.symm.trans hp)
    omega
  | @done i m n pipe k₁ k' hopen hp hm hlt hk₁ hdrain =>
    obtain ⟨hc₁, -, -, -⟩ := hcopied.shape.writeDone (hcopied.off hmode) hp kbuf (k.uctxt.regs 2) m
    rw [← hk₁] at hc₁
    obtain ⟨s', hd, -⟩ := (drain_steps _ _ s hc₁).2 _ hdrain
    obtain rfl := hd.eq_of_noWaiter (h.noWaiter _) (h.noWaiter _)
    refine .ofSync hcopied hmode hidle (.writePipe (k.uctxt.regs 0) kbuf (k.uctxt.regs 2)) ?_ hrun hc₁
      (fun q => ?_) fun p j hp' => Or.inl (holds_setPipe hp (by rw [hk₁]; rfl) hp')
    · rintro b ⟨⟩
      exact mallocBuffer_live k kbuf
    · rw [hk₁]
      by_cases e : q = (k.copyFromUser kbuf data (k.uctxt.regs 2)).current_process
      · subst e
        simp [writeNow, pcbDoneWrite]
      · simp [writeNow, e]

end Calm

/-! ## Locks and condition variables -/

/-- A lock changes hands, and all others are held as before. -/
theorem holds_setLock {lock new : Lock} (hl : k.lock i = some lock) {j : Nat} (h : k.Holds p j)
    (hi : lock = ⟨true, some p⟩ → j = i → new = ⟨true, some p⟩) : (k.setObject i (.lock new)).Holds p j := by
  by_cases e : j = i
  · subst e
    obtain rfl := Option.some.inj (hl.symm.trans h)
    rw [Kernel.Holds, lock_setObject hl, hi rfl rfl]
    rfl
  · rwa [Kernel.Holds, lock_setObject_ne e]

theorem returnSync_eq_some {r : Option (Int × Kernel)} (h : returnSync r = some k') :
    ∃ rc k₁, r = some (rc, k₁) ∧ k' = k₁.returnValue rc := by
  obtain ⟨⟨rc, k₁⟩, hr, h⟩ := Option.bind_eq_some_iff.1 h
  exact ⟨rc, k₁, hr, (Option.some.inj h).symm⟩

namespace Calm

theorem init (h : Calm hw k s) (hmode : k.mode = .user) (hidle : k.current_process ≠ k.idle_process)
    (call : SyncCall) (hbuffer : call.buffer = none) {object : SyncObject} {lists : Nat → List WaitList}
    {idp : Int} {allocated : Bool}
    (hcall : call.run hw k = syncInit object lists k idp allocated)
    (hlists : ∀ i, ∀ w ∈ lists i, w.slot = i)
    (hstep : returnSync (syncInit object lists k idp allocated) = some k') : Quiet hw k s c k' := by
  obtain ⟨rc, k₁, hrun, rfl⟩ := returnSync_eq_some hstep
  obtain ⟨hc, -⟩ := syncInit_keeps h.steady.coherent h.call.table hlists hrun
  have hquiet : Quiet hw k s c k₁ := by
    refine .ofSync h hmode hidle call (by simp [hbuffer]) (hcall.trans hrun) hc (fun q => ?_)
      fun p j hp => Or.inl ?_
    · rcases syncInit_cases hrun with rfl | ⟨i, hi, hfree, rfl⟩ <;> rfl
    · rcases syncInit_cases hrun with rfl | ⟨i, hi, hfree, rfl⟩
      · exact hp
      · -- a slot that is not in use has no lock
        have hne : j ≠ i := by
          rintro rfl
          obtain ⟨o, ho, -⟩ := lock_eq_some hp
          rw [h.call.table.used _ o ho] at hfree
          cases hfree
        simpa [Kernel.Holds, Kernel.lock, hne] using hp
  exact hquiet.returnValue rc

/-- A free lock is taken. -/
theorem lockAcquire (h : Calm hw k s) (hmode : k.mode = .user) (hidle : k.current_process ≠ k.idle_process)
    (hgo : GoesOn hw k k.uctxt .lockAcquire) (hstep : sysLockAcquire k = some k') :
    Quiet hw k s .lockAcquire k' ∧
      (k'.uctxt.regs 0 = ERROR ∨ ∃ i : Nat, k.uctxt.regs 0 = i ∧ k'.Holds k.current_process i) := by
  obtain ⟨⟨rc, k₁⟩, hrun, -⟩ := Option.bind_eq_some_iff.1 hstep
  have hreturn : rc ≠ ProcessState.processBlocked.toInt → k' = k₁.returnValue rc := fun hrc => by
    simp only [sysLockAcquire, hrun, Option.bind_eq_bind, Option.bind_some, if_neg hrc, Option.pure_def,
      Option.some.injEq] at hstep
    exact hstep.symm
  cases hcheck : getCheckSync k (k.uctxt.regs 0) with
  | none =>
    simp only [syncLockAcquire, hcheck, Option.some.injEq, Prod.mk.injEq] at hrun
    obtain ⟨rfl, rfl⟩ := hrun
    obtain rfl := hreturn (by decide)
    exact ⟨(Quiet.refl h _).returnValue _, Or.inl rfl⟩
  | some o =>
    obtain ⟨ho, hid⟩ := getCheckSync_eq_some hcheck
    cases hlock : o.object.asLock with
    | none => simp [syncLockAcquire, hcheck, hlock] at hrun
    | some lock =>
      have hl := asLock_eq_some hlock ho
      have hopen : lock.locked = false := hgo o hcheck lock hlock
      have heq : k₁ = k.setObject (k.uctxt.regs 0).toNat (.lock ⟨true, some k.current_process⟩) ∧
          rc = SUCCESS := by
        simp only [syncLockAcquire, hcheck, hlock, hopen, Option.bind_eq_bind, Option.bind_some,
          Bool.not_false, if_pos, Option.pure_def, Option.some.injEq, Prod.mk.injEq] at hrun
        exact ⟨hrun.2.symm, hrun.1.symm⟩
      obtain ⟨rfl, rfl⟩ := heq
      obtain rfl := hreturn (by decide)
      refine ⟨(Quiet.ofSync h hmode hidle (.lockAcquire (k.uctxt.regs 0)) (by simp [SyncCall.buffer]) hrun
        (h.steady.coherent.congr rfl rfl fun _ => rfl) (fun _ => rfl) fun p j hp => Or.inl ?_).returnValue _,
        Or.inr ⟨_, hid.symm, lock_setObject hl _⟩⟩
      refine holds_setLock hl hp fun e => ?_
      rw [e] at hopen
      cases hopen

/-- Nobody is there to get the lock that is released. -/
theorem lockRelease (h : Calm hw k s) (hmode : k.mode = .user) (hidle : k.current_process ≠ k.idle_process)
    (hstep : sysLockRelease k = some k') : Quiet hw k s .lockRelease k' := by
  obtain ⟨rc, k₁, hrun, rfl⟩ := returnSync_eq_some hstep
  have hsync : ∀ hc hst hheld, Quiet hw k s .lockRelease k₁ :=
    Quiet.ofSync h hmode hidle (.lockRelease (k.uctxt.regs 0)) (by simp [SyncCall.buffer]) hrun
  refine Quiet.returnValue ?_ rc
  unfold syncLockRelease at hrun
  split at hrun
  · obtain ⟨-, rfl⟩ := Prod.mk.inj (Option.some.inj hrun)
    exact .refl h _
  · rename_i o hcheck
    obtain ⟨ho, hid⟩ := getCheckSync_eq_some hcheck
    simp only [Option.bind_eq_bind, Option.bind_eq_some_iff] at hrun
    obtain ⟨lock, hlock, hrun⟩ := hrun
    have hl := asLock_eq_some hlock ho
    split at hrun
    · simp only [Option.bind_eq_some_iff, Option.pure_def, Option.some.injEq, Prod.mk.injEq] at hrun
      obtain ⟨-, -, -, rfl⟩ := hrun
      exact .refl h _
    · rename_i howner
      simp only [Option.bind_eq_some_iff, Option.pure_def, Option.some.injEq, Prod.mk.injEq] at hrun
      obtain ⟨k₂, hoffer, -, rfl⟩ := hrun
      obtain ⟨k₃, s', hoffer', hhand, -⟩ := h.steady.coherent.handOff (k.uctxt.regs 0).toNat lock
      obtain rfl := Option.some.inj (hoffer.symm.trans hoffer')
      cases hhand with
      | grant hs => simp [h.noWaiter] at hs
      | free =>
        refine hsync (h.steady.coherent.congr rfl rfl fun _ => rfl) (fun _ => rfl) fun p j hp => ?_
        by_cases e : j = (k.uctxt.regs 0).toNat
        · subst e
          obtain rfl := Option.some.inj (hl.symm.trans hp)
          exact Or.inr ⟨rfl, hid.symm, Option.some.inj (not_not.1 howner)⟩
        · exact Or.inl (holds_setLock hl hp fun _ he => absurd he e)

theorem signal (h : Calm hw k s) (hstep : sysSignal k = some k') : Quiet hw k s .signal k' := by
  obtain ⟨rc, k₁, hrun, rfl⟩ := returnSync_eq_some hstep
  suffices hsame : k₁ = k by
    subst hsame
    exact (Quiet.refl h _).returnValue rc
  unfold syncCvarSignal at hrun
  split at hrun
  · exact (Prod.mk.inj (Option.some.inj hrun)).2.symm
  · simp only [Option.bind_eq_bind, Option.bind_eq_some_iff] at hrun
    obtain ⟨-, -, hrun⟩ := hrun
    rw [if_pos (h.steady.coherent.count_eq_zero.2 (h.noWaiter _))] at hrun
    exact (Prod.mk.inj (Option.some.inj hrun)).2.symm

theorem broadcast (h : Calm hw k s) {rc : Int} (hstep : sysBroadcast k rc = some k') :
    Quiet hw k s (.broadcast rc) k' := by
  obtain ⟨rc', k₁, hrun, rfl⟩ := returnSync_eq_some hstep
  suffices hsame : k₁ = k by
    subst hsame
    exact (Quiet.refl h _).returnValue rc'
  unfold syncCvarBroadcast at hrun
  split at hrun
  · exact (Prod.mk.inj (Option.some.inj hrun)).2.symm
  · simp only [Option.bind_eq_bind, Option.bind_eq_some_iff] at hrun
    obtain ⟨-, -, hrun⟩ := hrun
    rw [if_pos (h.steady.coherent.count_eq_zero.2 (h.noWaiter _))] at hrun
    exact (Prod.mk.inj (Option.some.inj hrun)).2.symm

/-! ## Calls on the memory of the caller -/

theorem exec (h : Calm hw k s) {req : LoadRequest} (hstep : sysExec hw k req = some k') :
    Quiet hw k s (.exec req) k' := by
  simp only [sysExec, Option.bind_eq_bind, Option.bind_eq_some_iff, Option.pure_def, Option.some.injEq,
    Prod.exists] at hstep
  obtain ⟨rc, m, proc, hload, rfl⟩ := hstep
  obtain ⟨pt, brk, uc, rfl⟩ := loadProgram_frame hload
  refine (Quiet.refl h _).congr rfl (stays_of_others (q := k.current_process) (fun n hn => ?_) ?_)
  · simp [Kernel.modifyPcb, hn]
  · constructor <;> simp [Kernel.modifyPcb]

theorem brk (h : Calm hw k s) (hstep : sysBrk hw k = some k') : Quiet hw k s .brk k' := by
  have hgrown : ∀ m pt v, Quiet hw k s .brk ((grown k m pt).returnValue v) := fun m pt v => by
    refine (Quiet.refl h _).congr rfl (stays_of_others (q := k.current_process) (fun n hn => ?_) ?_)
    · simp [Kernel.returnValue, grown, Kernel.modifyPcb, hn]
    · constructor <;> simp [Kernel.returnValue, grown, Kernel.modifyPcb]
  rw [sysBrk_eq] at hstep
  split_ifs at hstep
  · obtain rfl := Option.some.inj hstep
    exact (Quiet.refl h _).returnValue _
  · obtain rfl := Option.some.inj hstep
    exact (Quiet.refl h _).returnValue _
  · obtain ⟨r, -, hstep⟩ := Option.bind_eq_some_iff.1 hstep
    obtain rfl := Option.some.inj hstep
    exact hgrown _ _ _
  · obtain rfl := Option.some.inj hstep
    exact hgrown _ _ _

end Calm

end Yalnix
