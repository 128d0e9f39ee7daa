import Yalnix.Proofs.DrainCount
import Yalnix.Proofs.IdChecks
import Yalnix.Proofs.LockCall
import Yalnix.Proofs.RingRun

/-!
# What a result says of the caller

Reads, acquisitions and waits report where their caller is. A write that blocks does so unless the drain
loops have finished it.
-/

namespace Yalnix

open Intrusive Transition

variable {hw : Hardware} {k k' k₀ : Kernel} {s s' : QueueId → List PcbPtr} {i : Nat} {p : PcbPtr}
  {v : WaitList}

/-! ## Results -/

theorem Reported.error (hc : Coherent k s) (hoff : ∀ l, p ∉ s l) :
    Reported (k.pcb p).state p v ERROR k := by
  refine ⟨iff_of_false (by decide) fun ⟨_, hmem⟩ => ?_, fun e => absurd e (by decide)⟩
  rw [hc.queue_eq] at hmem
  exact hoff _ hmem

theorem Reported.done (hc : Coherent k' s') (hoff : ∀ l, p ∉ s' l)
    (hst : (k'.pcb p).state = (k.pcb p).state) : Reported (k.pcb p).state p v SUCCESS k' := by
  refine ⟨iff_of_false (by decide) fun ⟨_, hmem⟩ => ?_, fun _ => ⟨hst, hc.offQueues_iff.2 hoff⟩⟩
  rw [hc.queue_eq] at hmem
  exact hoff _ hmem

/-- Who waits has the state of those who wait. -/
theorem reported_blocked (hc : Coherent k' s') :
    Reported (k.pcb p).state p v PCB_BLOCKED k' ↔ p ∈ s' (.wait v) := by
  constructor
  · intro h
    have hmem := (h.blocked.1 rfl).2
    rwa [hc.queue_eq] at hmem
  · intro hmem
    refine ⟨iff_of_true rfl ⟨hc.listed _ p hmem, ?_⟩, fun e => absurd e (by decide)⟩
    rwa [hc.queue_eq]

/-! ## Reads and writes -/

/-- The drain loops at a pipe in shape end, and leave alone who is on no list. -/
theorem PipeShape.drained (h : PipeShape hw k s i) (hc : Coherent k s) {pipe : Pipe}
    (hp : k.pipe i = some pipe) (loop : DrainLoop) : ∃ k' s',
      loop.run hw (drainTurns k i) k i = some k' ∧ Drain hw i k s k' s' ∧ Coherent k' s' := by
  obtain ⟨k', hk'⟩ := h.ends hc hp loop
  have hrun := hk' _ le_rfl
  obtain ⟨s', hd, -⟩ := DrainLoop.drain hc hrun
  exact ⟨k', s', hrun, hd, hd.coherent hc⟩

theorem Reported.drained (hoff : ∀ l, p ∉ s l) {k₁ : Kernel} (hd : Drain hw i k₁ s k' s')
    (hc : Coherent k' s') (hst : (k₁.pcb p).state = (k.pcb p).state) :
    Reported (k.pcb p).state p v SUCCESS k' := by
  obtain ⟨hpcb, hsub⟩ := hd.off (hoff _) (hoff _)
  exact .done hc (fun l hl => hoff l (hsub l hl)) (by rw [hpcb, hst])

theorem ShapeInv.readReported (h : ShapeInv hw k s) (hoff : ∀ l, k.current_process ∉ s l)
    (hidle : k.current_process ≠ k.idle_process) {id len : Int} {buf : BufPtr}
    (htype : ¬ WrongType k (.readPipe id buf len)) :
    ∃ rc k', syncReadPipe hw k id buf len = some (rc, k') ∧
      Reported (k.pcb k.current_process).state k.current_process (.pipeReaders id.toNat) rc k' := by
  cases hcheck : getCheckSync k id with
  | none => exact ⟨ERROR, k, by simp [syncReadPipe, hcheck], .error h.coherent hoff⟩
  | some o =>
    obtain ⟨pipe, hobj⟩ := asPipe_of_type (type_of_not_wrong htype (by simp [SyncCall.expects]) hcheck)
    obtain ⟨ho, hid⟩ := getCheckSync_eq_some hcheck
    have hp : k.pipe id.toNat = some pipe := by rw [Kernel.pipe, ho]; exact hobj
    rw [syncReadPipe_eq hcheck hobj ((h.shape _).sound pipe hp).read_lt]
    split
    · exact ⟨ERROR, k, rfl, .error h.coherent hoff⟩
    · split
      · have htr : InTransit (k.record (.readCall id.toNat k.current_process len)) s k.current_process :=
          (h.coherent.transit hoff).congr rfl rfl fun _ _ => rfl
        obtain ⟨k₁, q, hins, -, hc₁⟩ := (htr.modifyPcb _).enqueue (l := .wait (.pipeReaders id.toNat))
          (fun pcb => { pcb with state := .processBlocked }) rfl hidle
        exact ⟨_, _, Option.map_eq_some_iff.2 ⟨k₁, hins, rfl⟩, (reported_blocked hc₁).2 (by simp)⟩
      · obtain ⟨hc₁, -, hshape₁, -⟩ := h.readTake hoff hp buf len
        obtain ⟨k', s', hrun, hd, hc'⟩ := (hshape₁ id.toNat).drained hc₁ (pipe_setObject hp _) .writers
        have hst : ((Yalnix.readTake hw k id.toNat pipe buf len).pcb k.current_process).state =
            (k.pcb k.current_process).state := by simp [Yalnix.readTake]
        exact ⟨_, k', Option.map_eq_some_iff.2 ⟨k', hrun, rfl⟩, .drained hoff hd hc' hst⟩

/-- Only one who waits last is among those who wait on. -/
theorem mem_of_suffix {α : Type} {xs ys zs : List α} {a : α} (h : xs ++ [a] = ys ++ zs) :
    a ∈ zs ↔ zs ≠ [] := by
  rcases List.eq_nil_or_concat zs with rfl | ⟨zs', b, rfl⟩
  · simp
  · rw [List.concat_eq_append, ← List.append_assoc] at h
    obtain ⟨-, hlast⟩ := List.append_inj' h rfl
    simp [List.singleton_inj.1 hlast]

theorem writeDrains_iff {buf : BufPtr} {len : Int} : WriteDrains hw k (.writePipe i buf len) ↔
    writable k i = true ∧ hw.PIPE_BUFFER_LEN < len ∧ k.pending i + (len - hw.PIPE_BUFFER_LEN) ≤
      (hw.PIPE_BUFFER_LEN *
        (refills hw.PIPE_BUFFER_LEN hw.PIPE_BUFFER_LEN (k.requests i)).1 : Nat) := Iff.rfl

/-- After a write that does not fit, the caller waits on unless the drain loops finish all writers. -/
theorem ShapeInv.writeBlockedReported (h : ShapeInv hw k s) (hoff : ∀ l, k.current_process ∉ s l)
    {pipe : Pipe} (hp : k.pipe i = some pipe) (hopen : writable k i = true) {buf : BufPtr} {len : Int}
    {m : Nat} (hm : m = min (hw.PIPE_BUFFER_LEN - pipe.bytes_in_buffer).toNat len.toNat)
    (hlt : (m : Int) < len) (hlive : k.kbufFreed buf = false) {q : Heap QueueId PcbPtr} {k₁ : Kernel}
    (hk₁ : k₁ = writeNow hw k i pipe buf len m (pcbBlockedWrite (k.pcb k.current_process) i buf len m) q)
    (hc₁ : Coherent k₁ (Function.update s (.wait (.pipeWriters i))
      (s (.wait (.pipeWriters i)) ++ [k.current_process]))) :
    ∃ k', syncDrainReaders hw (drainTurns k₁ i) k₁ i = some k' ∧
      (Reported (k.pcb k.current_process).state k.current_process (.pipeWriters i) PCB_BLOCKED k' ↔
        ¬ WriteDrains hw k (.writePipe i buf len)) := by
  obtain ⟨-, hshape₁, -⟩ := h.writeBlocked hoff hp hlive hk₁ hc₁
  have hp₁ : k₁.pipe i = some (pipe.putAll hw ((List.range m).map (k.kbuf buf))) := by
    rw [hk₁]
    exact pipe_setObject hp _
  obtain ⟨k', s', hrun, hd, hc'⟩ := (hshape₁ i).drained hc₁ hp₁ .readers
  refine ⟨k', hrun, ?_⟩
  have hnonneg := ((h.shape i).sound pipe hp).nonneg
  have hN := hw.pipe_pos
  -- the caller is the last of the writers
  obtain ⟨_, writers, _, -, hwriters, -⟩ := hd.parted (hshape₁ i) hc₁
  rw [Function.update_self] at hwriters
  rw [reported_blocked hc', mem_of_suffix hwriters, ← hc'.queue_eq, ne_eq, not_iff_not]
  have hreq : requests k₁ (Function.update s (.wait (.pipeWriters i))
      (s (.wait (.pipeWriters i)) ++ [k.current_process])) i = k.requests i := by
    rw [Kernel.requests, h.coherent.queue_eq]
    refine requests_congr (Function.update_of_ne (by simp) _ _) fun r hr => ?_
    have hne : r ≠ k.current_process := fun e => hoff _ (e ▸ hr)
    rw [hk₁]
    simp [writeNow, hne]
  have hpend : pending k₁ (Function.update s (.wait (.pipeWriters i))
      (s (.wait (.pipeWriters i)) ++ [k.current_process])) i = k.pending i + (len - m).toNat := by
    have hsame : ((s (.wait (.pipeWriters i))).map fun w => (k₁.pcb w).left) =
        (s (.wait (.pipeWriters i))).map fun w => (k.pcb w).left := map_left_congr fun w hmem => by
      have hne : w ≠ k.current_process := fun e => hoff _ (e ▸ hmem)
      rw [hk₁]
      simp [writeNow, hne]
    have hself : (k₁.pcb k.current_process).left = (len - m).toNat := by
      rw [hk₁]
      simp [writeNow, pcbBlockedWrite, Pcb.left]
    rw [pending, Kernel.pending, h.coherent.queue_eq, Function.update_self, List.map_append, hsame]
    simp [hself]
  have hbytes₁ : (pipe.putAll hw ((List.range m).map (k.kbuf buf))).bytes_in_buffer =
      pipe.bytes_in_buffer + m := by
    rw [putAll_bytes]
    simp
  have hiff := (drain_uses (drainTurns k₁ i) k₁ _ hc₁ (hshape₁ i) _ hp₁ k').2
    (pipe.bytes_in_buffer + m).toNat (by omega) (by omega) (by omega) hrun
  rw [hpend, hreq] at hiff
  rw [hiff]
  -- who waits to read does so at an empty buffer
  have hempty : k.requests i = [] ∨
      (pipe.bytes_in_buffer = 0 ∧ (m = hw.PIPE_BUFFER_LEN ∨ m = len.toNat)) := by
    by_cases hs : s (.wait (.pipeReaders i)) = []
    · exact Or.inl (by rw [Kernel.requests, h.coherent.queue_eq, hs]; rfl)
    · have hzero := h.waits i pipe hp hs
      exact Or.inr ⟨hzero, by omega⟩
  rw [writeDrains_iff]
  rcases hempty with hnil | ⟨hzero, hm'⟩
  · rw [hnil]
    simp only [refills, mul_zero]
    constructor
    · intro hle
      omega
    · rintro ⟨-, hN, hle⟩
      omega
  · have hmN : m = hw.PIPE_BUFFER_LEN := by omega
    rw [show (pipe.bytes_in_buffer + (m : Int)).toNat = hw.PIPE_BUFFER_LEN by omega]
    subst hmN
    constructor
    · intro hle
      refine ⟨hopen, hlt, ?_⟩
      omega
    · rintro ⟨-, -, hle⟩
      omega

theorem ShapeInv.writeReported (h : ShapeInv hw k s) (hoff : ∀ l, k.current_process ∉ s l)
    (hidle : k.current_process ≠ k.idle_process) {id len : Int} {buf : BufPtr}
    (htype : ¬ WrongType k (.writePipe id buf len)) (hlive : k.kbufFreed buf = false) :
    ∃ rc k', syncWritePipe hw k id buf len = some (rc, k') ∧
      (Reported (k.pcb k.current_process).state k.current_process (.pipeWriters id.toNat) rc k' ↔
        ¬ WriteDrains hw k (.writePipe id buf len)) := by
  cases hcheck : getCheckSync k id with
  | none =>
    refine ⟨ERROR, k, by simp [syncWritePipe, hcheck], iff_of_true (.error h.coherent hoff) ?_⟩
    rintro ⟨hopen, -⟩
    simp [writable, hcheck] at hopen
  | some o =>
    obtain ⟨pipe, hobj⟩ := asPipe_of_type (type_of_not_wrong htype (by simp [SyncCall.expects]) hcheck)
    obtain ⟨ho, hid⟩ := getCheckSync_eq_some hcheck
    generalize id.toNat = i at ho hid
    subst hid
    have hp : k.pipe i = some pipe := by rw [Kernel.pipe, ho]; exact hobj
    have hwritable : writable k i = pipe.open_for_write := by simp [writable, hcheck, hobj]
    rw [syncWritePipe_eq hcheck hobj _ rfl]
    generalize hm : min (hw.PIPE_BUFFER_LEN - pipe.bytes_in_buffer).toNat len.toNat = m
    split
    · rename_i hclosed
      refine ⟨ERROR, k, rfl, iff_of_true (.error h.coherent hoff) ?_⟩
      rintro ⟨hopen, -⟩
      simp [hwritable] at hopen
      simp [hopen] at hclosed
    · rename_i hopen
      have hopen : writable k i = true := by simpa [hwritable] using hopen
      split
      · rename_i hlt
        have htr : InTransit (writeNow hw k i pipe buf len m
            (pcbBlockedWrite (k.pcb k.current_process) i buf len m) k.queues) s k.current_process :=
          (h.coherent.transit hoff).congr rfl rfl fun q hq => by simp [writeNow, hq]
        obtain ⟨q, hins, hc₁⟩ := htr.insertTail (l := .wait (.pipeWriters i))
          (by simp [writeNow, pcbBlockedWrite, QueueId.state]) hidle
        obtain ⟨k', hrun, hiff⟩ := h.writeBlockedReported hoff hp hopen hm.symm hlt hlive rfl hc₁
        refine ⟨PCB_BLOCKED, k', ?_, hiff⟩
        rw [hins]
        exact Option.map_eq_some_iff.2 ⟨k', hrun, rfl⟩
      · rename_i hlt
        obtain ⟨hc₁, -, hshape₁, -⟩ := h.writeDone hoff hp buf len m
        obtain ⟨k', s', hrun, hd, hc'⟩ := (hshape₁ i).drained hc₁ (pipe_setObject hp _) .readers
        have hst : ((writeNow hw k i pipe buf len m (pcbDoneWrite (k.pcb k.current_process) len m)
            k.queues).pcb k.current_process).state = (k.pcb k.current_process).state := by
          simp [writeNow, pcbDoneWrite]
        refine ⟨SUCCESS, k', Option.map_eq_some_iff.2 ⟨k', hrun, rfl⟩,
          iff_of_true (.drained hoff hd hc' hst) ?_⟩
        -- what fits into the buffer is not more than it holds
        have hnonneg := ((h.shape i).sound pipe hp).nonneg
        rw [writeDrains_iff]
        rintro ⟨-, hN, -⟩
        omega

/-! ## Locks and condition variables -/

theorem Coherent.acquireReported (hc : Coherent k s) (hoff : ∀ l, k.current_process ∉ s l)
    (hidle : k.current_process ≠ k.idle_process) {id : Int} (htype : ¬ WrongType k (.lockAcquire id)) :
    ∃ rc k', syncLockAcquire k id = some (rc, k') ∧
      Reported (k.pcb k.current_process).state k.current_process (.lockWaiters id.toNat) rc k' := by
  cases hcheck : getCheckSync k id with
  | none => exact ⟨ERROR, k, by simp [syncLockAcquire, hcheck], .error hc hoff⟩
  | some o =>
    obtain ⟨lock, hlock⟩ := asLock_of_type (type_of_not_wrong htype (by simp [SyncCall.expects]) hcheck)
    rcases hc.lockAcquire hoff hidle hcheck hlock with ⟨-, hrun⟩ | ⟨-, q, hrun, hc'⟩
    · exact ⟨_, _, hrun, .done (hc.congr rfl rfl fun _ => rfl) hoff rfl⟩
    · exact ⟨_, _, hrun, (reported_blocked hc').2 (by simp)⟩

theorem Coherent.waitReported (hc : Coherent k s) (hoff : ∀ l, k.current_process ∉ s l)
    (hidle : k.current_process ≠ k.idle_process) {cvar_id lock_id : Int}
    (htype : ¬ WrongType k (.cvarWait cvar_id lock_id)) :
    (∃ rc k', syncCvarWait k cvar_id lock_id = some (rc, k') ∧
      Reported (k.pcb k.current_process).state k.current_process (.cvarWaiters cvar_id.toNat) rc k') ↔
      ¬ OwnerMissing k (.cvarWait cvar_id lock_id) := by
  cases hcvar : getCheckSync k cvar_id with
  | none =>
    refine iff_of_true ⟨ERROR, k, by simp [syncCvarWait, hcvar], .error hc hoff⟩ ?_
    rintro ⟨hlive, -⟩
    exact hlive hcvar
  | some cvar =>
    cases hcheck : getCheckSync k lock_id with
    | none =>
      refine iff_of_true ⟨ERROR, k, by simp [syncCvarWait, hcvar, hcheck], .error hc hoff⟩ ?_
      rintro ⟨-, sync, lock, hsync, -⟩
      rw [hcheck] at hsync
      cases hsync
    | some o =>
      have hasCvar := asCvar_of_type (type_of_not_wrong htype (by simp [SyncCall.expects]) hcvar)
      obtain ⟨lock, hlock⟩ :=
        asLock_of_type (type_of_not_wrong htype (by simp [SyncCall.expects]) hcheck)
      have hmissing : OwnerMissing k (.cvarWait cvar_id lock_id) ↔ lock.owner = none := by
        constructor
        · rintro ⟨-, sync, lock', hsync, hlock', howner⟩
          obtain rfl : o = sync := Option.some.inj (hcheck.symm.trans hsync)
          obtain rfl : lock = lock' := Option.some.inj (hlock.symm.trans hlock')
          exact howner
        · intro howner
          exact ⟨by simp [hcvar], o, lock, hcheck, hlock, howner⟩
      rw [hmissing]
      cases howner : lock.owner with
      | none =>
        -- the message of the error path has nobody to name
        refine iff_of_false ?_ (by simp)
        rintro ⟨rc, k', hrun, -⟩
        simp [syncCvarWait, hcvar, hcheck, hlock, howner] at hrun
      | some owner =>
        refine iff_of_true ?_ (by simp)
        by_cases e : owner = k.current_process
        · subst e
          obtain ⟨k₁, s₁, q, -, -, hrun, hc'⟩ := hc.cvarWait hoff hidle hcvar hasCvar hcheck hlock howner
          exact ⟨_, _, hrun, (reported_blocked hc').2 (by simp)⟩
        · exact ⟨ERROR, k, by simp [syncCvarWait, hcvar, hcheck, hlock, howner, e], .error hc hoff⟩

/-! ## Every call -/

/-- A call that may block, with ids of the right types, in any state that calls of `sync.c` lead to:
it returns and its result agrees with where the caller is, except for a write that the drain loops
finish, and a wait with a lock that nobody owns. -/
theorem blocked_reported {P : Kernel → SyncEvent → Prop} (h₀ : SyncStart k₀)
    {t : List (Kernel × SyncEvent)} (hrun : Run (syncMachine hw) P k₀ t k) {c : SyncCall}
    (hen : (syncMachine hw).enabled k (.call p c)) (hv : c.waitList = some v) (htype : ¬ WrongType k c) :
    (∃ rc k', c.run hw { k with current_process := p } = some (rc, k') ∧
      Reported (k.pcb p).state p v rc k') ↔
      ¬ WriteDrains hw k c ∧ ¬ OwnerMissing k c := by
  obtain ⟨hshape, hlive⟩ := shapeRun h₀ hrun
  have h := hshape.setCurrent p
  obtain ⟨hfree, hidle⟩ := hen
  have hoff := hshape.coherent.offQueues_iff.1 hfree
  cases c with
  | readPipe id buf len =>
    obtain rfl := Option.some.inj hv
    exact iff_of_true (h.readReported hoff hidle htype) ⟨fun h => h, fun h => h⟩
  | writePipe id buf len =>
    obtain rfl := Option.some.inj hv
    obtain ⟨rc, k', hwrite, hiff⟩ := h.writeReported hoff hidle htype (hlive buf)
    constructor
    · rintro ⟨rc₁, k₁, hwrite₁, hrep⟩
      obtain ⟨rfl, rfl⟩ : rc = rc₁ ∧ k' = k₁ := by
        have := Option.some.inj (hwrite.symm.trans hwrite₁)
        exact ⟨congrArg Prod.fst this, congrArg Prod.snd this⟩
      exact ⟨hiff.1 hrep, fun h => h⟩
    · rintro ⟨hdrains, -⟩
      exact ⟨rc, k', hwrite, hiff.2 hdrains⟩
  | lockAcquire id =>
    obtain rfl := Option.some.inj hv
    exact iff_of_true (h.coherent.acquireReported hoff hidle htype) ⟨fun h => h, fun h => h⟩
  | cvarWait cvar_id lock_id =>
    obtain rfl := Option.some.inj hv
    constructor
    · intro hrep
      exact ⟨fun h => h, (h.coherent.waitReported hoff hidle htype).1 hrep⟩
    · rintro ⟨-, hmissing⟩
      exact (h.coherent.waitReported hoff hidle htype).2 hmissing
  | _ => cases hv

/-- The process `103` waits to read, too. -/
def twoWaitEvents : List SyncEvent :=
  [.store 2 fun n => n.toUInt8, .call 102 (.initPipe 8 true fun _ => 0), .call 102 (.readPipe 0 0 2),
    .call 103 (.readPipe 0 1 1)]

def twoWaitKernel : Kernel :=
  ((syncMachine .small).exec Boot.smallProcesses twoWaitEvents).get (by decide +kernel)

theorem twoWaitKernel_run : Run (syncMachine .small) (fun _ _ => True) Boot.smallProcesses
    ((syncMachine .small).trace Boot.smallProcesses twoWaitEvents) twoWaitKernel := by
  have hexec : (syncMachine .small).exec Boot.smallProcesses twoWaitEvents = some twoWaitKernel :=
    (Option.some_get _).symm
  exact Boot.smallProcesses_syncStart.shapeExec hexec (by decide +kernel)

/-- The process `104` writes to the pipe, whatever the length. -/
theorem twoWaitKernel_call (len : Int) :
    (syncMachine .small).enabled twoWaitKernel (.call 104 (.writePipe 0 2 len)) ∧
      ¬ WrongType twoWaitKernel (.writePipe 0 2 len) := by
  have hc := (shapeRun Boot.smallProcesses_syncStart twoWaitKernel_run).1.coherent
  refine ⟨⟨hc.offQueues_iff_state.2 (by decide +kernel), by decide +kernel⟩, ?_⟩
  rintro ⟨a, ha, sync, hcheck, htype⟩
  obtain rfl := List.mem_singleton.1 ha
  have hpipe : (getCheckSync twoWaitKernel 0).all (fun o => o.object.asPipe.isSome) = true := by
    decide +kernel
  rw [show getCheckSync twoWaitKernel 0 = some sync from hcheck] at hpipe
  simp [asPipe_type htype] at hpipe

/-- Two bytes fit, and both are taken by `102`. -/
theorem blocked_reported_small : ∃ rc k', syncWritePipe .small
    { twoWaitKernel with current_process := 104 } 0 2 2 = some (rc, k') ∧
    Reported (twoWaitKernel.pcb 104).state 104 (.pipeWriters 0) rc k' := by
  obtain ⟨hen, htype⟩ := twoWaitKernel_call 2
  refine (blocked_reported Boot.smallProcesses_syncStart twoWaitKernel_run hen rfl htype).2 ⟨?_, id⟩
  rintro ⟨-, hlt, -⟩
  exact absurd hlt (by decide)

/-- Three bytes do not fit, but `102` and `103` take them, and `104` is ready. -/
theorem blocked_reported_fails : ¬ ∀ (hw : Hardware) (k₀ k : Kernel) (t : List (Kernel × SyncEvent))
    (p : PcbPtr) (c : SyncCall) (v : WaitList), SyncStart k₀ →
    Run (syncMachine hw) (fun _ _ => True) k₀ t k → (syncMachine hw).enabled k (.call p c) →
    c.waitList = some v → ¬ WrongType k c → (∀ a ∈ readArgs (.call p c), 0 ≤ a.2) →
    (∀ a ∈ writeArgs (.call p c), 0 ≤ a.2) → ∃ rc k',
      c.run hw { k with current_process := p } = some (rc, k') ∧
        Reported (k.pcb p).state p v rc k' := by
  intro h
  obtain ⟨hen, htype⟩ := twoWaitKernel_call 3
  obtain ⟨rc, k', hrun, hrep⟩ := h .small _ _ _ 104 (.writePipe 0 2 3) _ Boot.smallProcesses_syncStart
    twoWaitKernel_run hen rfl htype (by decide) (by decide)
  have hresult : (syncWritePipe .small { twoWaitKernel with current_process := 104 } 0 2 3).map
      (fun x => (x.1, (x.2.pcb 104).state)) = some (PCB_BLOCKED, .processReady) := by decide +kernel
  rw [show syncWritePipe .small { twoWaitKernel with current_process := 104 } 0 2 3 = some (rc, k')
    from hrun] at hresult
  simp only [Option.map_some, Option.some.injEq, Prod.mk.injEq] at hresult
  have hst := (hrep.blocked.1 hresult.1).1
  rw [hresult.2] at hst
  cases hst

end Yalnix
