import Yalnix.Proofs.PipeStep

/-!
# The calls on pipes

`SyncReadPipe` blocks on an empty pipe and else takes bytes and drains the writers; `SyncWritePipe` puts
what there is room for, blocks with the rest, and drains the readers.
-/

namespace Yalnix

open Intrusive

variable {hw : Hardware} {k k' : Kernel} {s s' : QueueId → List PcbPtr}

/-- The caller has taken `n` bytes from the pipe in slot `i`. -/
def readNow (hw : Hardware) (k : Kernel) (i : Nat) (pipe : Pipe) (buf : BufPtr) (len : Int)
    (n : Nat) : Kernel :=
  let curr := k.current_process
  { k with
    pcb := Function.update k.pcb curr
      { k.pcb curr with user_context := (k.pcb curr).user_context.setReg0 n }
    sync_table := (k.setObject i (.pipe (pipe.drop hw n))).sync_table
    kbuf := Function.update k.kbuf buf (readLoop hw 0 pipe (k.kbuf buf) 0 n).2.1
    pipeHistory := k.pipeHistory ++ [.readCall i curr len,
      .delivered i curr (Ring.contents hw.PIPE_BUFFER_LEN pipe.buffer pipe.read_pos n)] }

/-- The caller has taken what is there of what it asked for. A negative length is taken off the counter,
and no byte is copied. -/
def readTake (hw : Hardware) (k : Kernel) (i : Nat) (pipe : Pipe) (buf : BufPtr) (len : Int) : Kernel :=
  let curr := k.current_process
  let v := min len pipe.bytes_in_buffer
  { k with
    pcb := Function.update k.pcb curr
      { k.pcb curr with user_context := (k.pcb curr).user_context.setReg0 v }
    sync_table := (k.setObject i (.pipe { pipe with
      read_pos := (pipe.read_pos + v.toNat) % hw.PIPE_BUFFER_LEN
      bytes_in_buffer := pipe.bytes_in_buffer - v })).sync_table
    kbuf := Function.update k.kbuf buf (readLoop hw 0 pipe (k.kbuf buf) 0 v.toNat).2.1
    pipeHistory := k.pipeHistory ++ [.readCall i curr len,
      .delivered i curr (Ring.contents hw.PIPE_BUFFER_LEN pipe.buffer pipe.read_pos v.toNat)] }

theorem readTake_eq {i n : Nat} {pipe : Pipe} {buf : BufPtr} {len : Int}
    (hn : (n : Int) = min len pipe.bytes_in_buffer) :
    readTake hw k i pipe buf len = readNow hw k i pipe buf len n := by
  simp only [readTake, readNow, ← hn, Int.toNat_natCast]
  rfl

/-- The caller waits for bytes. -/
def readBlocked (k : Kernel) (i : Nat) (buf : BufPtr) (len : Int) (q : Heap QueueId PcbPtr) : Kernel :=
  let curr := k.current_process
  { k with
    pcb := Function.update k.pcb curr { k.pcb curr with
      waiting_pipe_id := i
      pipe_buffer := some buf
      pipe_len := len
      state := .processBlocked }
    pipeHistory := k.pipeHistory ++ [.readCall i curr len]
    queues := q }

/-- `SyncReadPipe` of a pipe, written out. -/
theorem syncReadPipe_eq {id len : Int} {buf : BufPtr} {o : SyncObj} {pipe : Pipe}
    (hcheck : getCheckSync k id = some o) (hobj : o.object.asPipe = some pipe)
    (hlt : pipe.read_pos < hw.PIPE_BUFFER_LEN) : syncReadPipe hw k id buf len =
      if !pipe.open_for_read then some (ERROR, k)
      else if pipe.bytes_in_buffer = 0 then
        (((k.record (.readCall id.toNat k.current_process len)).modifyPcb k.current_process
          fun pcb => { pcb with
            waiting_pipe_id := id
            pipe_buffer := some buf
            pipe_len := len }).insertTail (.wait (.pipeReaders id.toNat)) k.current_process).map
          fun k₁ => (PCB_BLOCKED, k₁.setState k.current_process .processBlocked)
      else
        (syncDrainWriters hw (drainTurns (readTake hw k id.toNat pipe buf len) id.toNat)
          (readTake hw k id.toNat pipe buf len) id.toNat).map fun k₁ => (SUCCESS, k₁) := by
  unfold syncReadPipe
  simp only [hcheck, hobj, Option.bind_eq_bind, Option.bind_some]
  split
  · rfl
  · split
    · exact Option.map_eq_bind.symm
    · have hmin : (if len < pipe.bytes_in_buffer then len else pipe.bytes_in_buffer) =
          min len pipe.bytes_in_buffer := by omega
      have key : ∀ K, K = readTake hw k id.toNat pipe buf len →
          (syncDrainWriters hw (drainTurns K id.toNat) K id.toNat).bind
              (fun k₁ => some (SUCCESS, k₁)) =
            (syncDrainWriters hw (drainTurns (readTake hw k id.toNat pipe buf len) id.toNat)
              (readTake hw k id.toNat pipe buf len) id.toNat).map fun k₁ => (SUCCESS, k₁) := by
        rintro K rfl
        exact Option.map_eq_bind.symm
      refine key _ ?_
      simp only [readTake, hmin, readLoop_eq 0 _ 0 _ hlt]
      apply Kernel.ext <;> try rfl
      · simp [Kernel.record, Kernel.setObject, Kernel.setReg0, Kernel.modifyPcb]
      · simp [Kernel.record, Kernel.setObject, Kernel.setReg0, Kernel.modifyPcb]

/-- What `SyncReadPipe` can do, when it does not read a negative length. -/
inductive ReadCase (hw : Hardware) (k : Kernel) (s : QueueId → List PcbPtr) (buf : BufPtr) (len : Int) :
    Int → Int → Kernel → Prop where
  | error {id : Int} : ReadCase hw k s buf len id ERROR k
  | blocked {i : Nat} {pipe : Pipe} {q : Heap QueueId PcbPtr} (hp : k.pipe i = some pipe)
      (hempty : pipe.bytes_in_buffer = 0)
      (hc : Coherent (readBlocked k i buf len q) (Function.update s (.wait (.pipeReaders i))
        (s (.wait (.pipeReaders i)) ++ [k.current_process]))) :
      ReadCase hw k s buf len i PCB_BLOCKED (readBlocked k i buf len q)
  | taken {i n m : Nat} {pipe : Pipe} {k' : Kernel} (hp : k.pipe i = some pipe)
      (hne : pipe.bytes_in_buffer ≠ 0) (hn : (n : Int) = min len pipe.bytes_in_buffer)
      (hdrain : syncDrainWriters hw m (readNow hw k i pipe buf len n) i = some k') :
      ReadCase hw k s buf len i SUCCESS k'

/-- What `SyncReadPipe` can do, whatever the length. -/
inductive ReadEnd (hw : Hardware) (k : Kernel) (s : QueueId → List PcbPtr) (buf : BufPtr) (len : Int) :
    Int → Int → Kernel → Prop where
  | error {id : Int} (hno : readable k id = false) : ReadEnd hw k s buf len id ERROR k
  | blocked {i : Nat} {pipe : Pipe} {q : Heap QueueId PcbPtr} (hopen : readable k i = true)
      (hp : k.pipe i = some pipe) (hempty : pipe.bytes_in_buffer = 0)
      (hc : Coherent (readBlocked k i buf len q) (Function.update s (.wait (.pipeReaders i))
        (s (.wait (.pipeReaders i)) ++ [k.current_process]))) :
      ReadEnd hw k s buf len i PCB_BLOCKED (readBlocked k i buf len q)
  | taken {i : Nat} {pipe : Pipe} {k' : Kernel} (hopen : readable k i = true)
      (hp : k.pipe i = some pipe) (hne : pipe.bytes_in_buffer ≠ 0)
      (hdrain : syncDrainWriters hw (drainTurns (readTake hw k i pipe buf len) i)
        (readTake hw k i pipe buf len) i = some k') : ReadEnd hw k s buf len i SUCCESS k'

theorem readPipe_ends (hc : Coherent k s) (hv : ∀ i pipe, k.pipe i = some pipe → pipe.Sound hw)
    (hfree : ∀ l, k.current_process ∉ s l) (hidle : k.current_process ≠ k.idle_process)
    {id len rc : Int} {buf : BufPtr}
    (hrun : syncReadPipe hw k id buf len = some (rc, k')) : ReadEnd hw k s buf len id rc k' := by
  cases hcheck : getCheckSync k id with
  | none =>
    simp only [syncReadPipe, hcheck, Option.some.injEq, Prod.mk.injEq] at hrun
    obtain ⟨rfl, rfl⟩ := hrun
    exact .error (by simp [readable, hcheck])
  | some o =>
    obtain ⟨ho, hid⟩ := getCheckSync_eq_some hcheck
    cases hobj : o.object.asPipe with
    | none => simp [syncReadPipe, hcheck, hobj] at hrun
    | some pipe =>
      have hreadable : readable k id = pipe.open_for_read := by simp [readable, hcheck, hobj]
      have hp : k.pipe id.toNat = some pipe := by rw [Kernel.pipe, ho]; exact hobj
      rw [syncReadPipe_eq hcheck hobj (hv _ pipe hp).read_lt] at hrun
      generalize id.toNat = i at *
      subst hid
      split at hrun
      · rename_i hclosed
        simp only [Option.some.injEq, Prod.mk.injEq] at hrun
        obtain ⟨rfl, rfl⟩ := hrun
        exact .error (by simpa [hreadable] using hclosed)
      · rename_i hopen
        have hopen : readable k i = true := by simpa [hreadable] using hopen
        split at hrun
        · rename_i hempty
          simp only [Option.map_eq_some_iff, Prod.mk.injEq] at hrun
          obtain ⟨k₁, hins, rfl, rfl⟩ := hrun
          have htr : InTransit (k.record (.readCall i k.current_process len)) s k.current_process :=
            (hc.transit hfree).congr rfl rfl fun _ _ => rfl
          obtain ⟨k₂, q, hins', hk₂, hc₂⟩ := (htr.modifyPcb _).enqueue (l := .wait (.pipeReaders i))
            (fun pcb => { pcb with state := .processBlocked }) rfl hidle
          obtain rfl : k₁ = k₂ := Option.some.inj (hins.symm.trans hins')
          have hk₁ : k₁.setState k.current_process .processBlocked = readBlocked k i buf len q := by
            refine hk₂.trans ?_
            simp [readBlocked, Kernel.modifyPcb, Kernel.record]
          rw [hk₁]
          refine .blocked hopen hp hempty ?_
          rw [← hk₁]
          exact hc₂
        · rename_i hne
          simp only [Option.map_eq_some_iff, Prod.mk.injEq] at hrun
          obtain ⟨k₁, hdrain, rfl, rfl⟩ := hrun
          exact .taken hopen hp hne hdrain

theorem readPipe_cases (hc : Coherent k s) (hv : ∀ i pipe, k.pipe i = some pipe → pipe.Valid hw)
    (hfree : ∀ l, k.current_process ∉ s l) (hidle : k.current_process ≠ k.idle_process)
    {id len rc : Int} {buf : BufPtr} (hlen : 0 ≤ len)
    (hrun : syncReadPipe hw k id buf len = some (rc, k')) : ReadCase hw k s buf len id rc k' := by
  cases readPipe_ends hc (fun i pipe hp => (hv i pipe hp).sound) hfree hidle hrun with
  | error hno => exact .error
  | blocked hopen hp hempty hc' => exact .blocked hp hempty hc'
  | @taken i pipe k' hopen hp hne hdrain =>
    have hnonneg := (hv i pipe hp).nonneg
    have hn : ((min len pipe.bytes_in_buffer).toNat : Int) = min len pipe.bytes_in_buffer := by omega
    rw [readTake_eq hn] at hdrain
    exact .taken hp hne hn hdrain

/-- The caller has put the first `m` bytes of its buffer into the pipe in slot `i`. -/
def writeNow (hw : Hardware) (k : Kernel) (i : Nat) (pipe : Pipe) (buf : BufPtr) (len : Int)
    (m : Nat) (pcb : Pcb) (q : Heap QueueId PcbPtr) : Kernel :=
  let out := (List.range m).map (k.kbuf buf)
  { k with
    pcb := Function.update k.pcb k.current_process pcb
    sync_table := (k.setObject i (.pipe (pipe.putAll hw out))).sync_table
    pipeHistory := k.pipeHistory ++
      [.writeCall i k.current_process ((List.range len.toNat).map (k.kbuf buf)),
        .accepted i k.current_process out]
    queues := q }

/-- The caller after a write that is not done. -/
def pcbBlockedWrite (pcb : Pcb) (i : Nat) (buf : BufPtr) (len : Int) (m : Nat) : Pcb :=
  { pcb with
    write_loc := m
    pipe_buffer := some buf
    pipe_len := len
    waiting_pipe_id := i
    state := .processBlocked }

/-- The caller after a write that is done. -/
def pcbDoneWrite (pcb : Pcb) (len : Int) (m : Nat) : Pcb :=
  { pcb with write_loc := m, user_context := pcb.user_context.setReg0 len }

/-- `SyncWritePipe` to a pipe, written out. -/
theorem syncWritePipe_eq {i : Nat} {len : Int} {buf : BufPtr} {o : SyncObj} {pipe : Pipe}
    (hcheck : getCheckSync k i = some o) (hobj : o.object.asPipe = some pipe) :
    ∀ m, m = min (hw.PIPE_BUFFER_LEN - pipe.bytes_in_buffer).toNat len.toNat →
    syncWritePipe hw k i buf len =
      if !pipe.open_for_write then some (ERROR, k)
      else if (m : Int) < len then
        ((writeNow hw k i pipe buf len m (pcbBlockedWrite (k.pcb k.current_process) i buf len m)
          k.queues).insertTail (.wait (.pipeWriters i)) k.current_process).bind fun k₁ =>
            (syncDrainReaders hw (drainTurns k₁ i) k₁ i).map fun k₂ => (PCB_BLOCKED, k₂)
      else
        let k₁ := writeNow hw k i pipe buf len m (pcbDoneWrite (k.pcb k.current_process) len m) k.queues
        (syncDrainReaders hw (drainTurns k₁ i) k₁ i).map fun k₂ => (SUCCESS, k₂) := by
  rintro m hm
  have hloop : writeLoop hw (fun _ written => written < hw.PIPE_BUFFER_LEN - pipe.bytes_in_buffer)
      (k.kbuf buf) len pipe 0 0 len.toNat = _ :=
    writeLoop_eq (fun p w hpw => by simp; omega) le_rfl (by simp) m hm
  simp only [Int.toNat_zero, Nat.zero_add, Int.zero_add] at hloop
  have hkb : ∀ e, (k.record e).kbuf = k.kbuf := fun _ => rfl
  unfold syncWritePipe
  simp only [hcheck, hobj, Option.bind_eq_bind, Option.bind_some, Int.toNat_natCast, hkb, hloop]
  split
  · rfl
  · split
    · have key : ∀ K, K = writeNow hw k i pipe buf len m
            (pcbBlockedWrite (k.pcb k.current_process) i buf len m) k.queues →
          ((K.insertTail (.wait (.pipeWriters i)) k.current_process).bind fun k₁ =>
              (syncDrainReaders hw (drainTurns k₁ i) k₁ i).bind fun k₂ => some (PCB_BLOCKED, k₂)) =
            ((writeNow hw k i pipe buf len m (pcbBlockedWrite (k.pcb k.current_process) i buf len m)
              k.queues).insertTail (.wait (.pipeWriters i)) k.current_process).bind fun k₁ =>
                (syncDrainReaders hw (drainTurns k₁ i) k₁ i).map fun k₂ => (PCB_BLOCKED, k₂) := by
        rintro K rfl
        simp only [Option.map_eq_bind]
        rfl
      refine key _ ?_
      apply Kernel.ext <;> try rfl
      · funext q
        by_cases e : q = k.current_process
        · subst e
          simp [Kernel.modifyPcb, Kernel.record, Kernel.setObject, writeNow, pcbBlockedWrite]
        · simp [Kernel.modifyPcb, Kernel.record, Kernel.setObject, writeNow, e]
      · simp [Kernel.modifyPcb, Kernel.record, Kernel.setObject, writeNow]
    · have key : ∀ K, K = writeNow hw k i pipe buf len m
            (pcbDoneWrite (k.pcb k.current_process) len m) k.queues →
          ((syncDrainReaders hw (drainTurns K i) K i).bind fun k₂ => some (SUCCESS, k₂)) =
            let k₁ := writeNow hw k i pipe buf len m (pcbDoneWrite (k.pcb k.current_process) len m)
              k.queues
            (syncDrainReaders hw (drainTurns k₁ i) k₁ i).map fun k₂ => (SUCCESS, k₂) := by
        rintro K rfl
        exact Option.map_eq_bind.symm
      refine key _ ?_
      apply Kernel.ext <;> try rfl
      · funext q
        by_cases e : q = k.current_process
        · subst e
          simp [Kernel.modifyPcb, Kernel.setReg0, Kernel.record, Kernel.setObject, writeNow,
            pcbDoneWrite]
        · simp [Kernel.modifyPcb, Kernel.setReg0, Kernel.record, Kernel.setObject, writeNow, e]
      · simp [Kernel.setReg0, Kernel.modifyPcb, Kernel.record, Kernel.setObject, writeNow]

/-- What `SyncWritePipe` can do. -/
inductive WriteCase (hw : Hardware) (k : Kernel) (s : QueueId → List PcbPtr) (buf : BufPtr)
    (len : Int) : Int → Int → Kernel → Prop where
  | error {id : Int} (hno : writable k id = false) : WriteCase hw k s buf len id ERROR k
  | blocked {i m n : Nat} {pipe : Pipe} {q : Heap QueueId PcbPtr} {k₁ k' : Kernel}
      (hopen : writable k i = true) (hp : k.pipe i = some pipe)
      (hm : m = min (hw.PIPE_BUFFER_LEN - pipe.bytes_in_buffer).toNat len.toNat)
      (hlt : (m : Int) < len)
      (hk₁ : k₁ = writeNow hw k i pipe buf len m
        (pcbBlockedWrite (k.pcb k.current_process) i buf len m) q)
      (hc : Coherent k₁ (Function.update s (.wait (.pipeWriters i))
        (s (.wait (.pipeWriters i)) ++ [k.current_process])))
      (hdrain : syncDrainReaders hw n k₁ i = some k') : WriteCase hw k s buf len i PCB_BLOCKED k'
  | done {i m n : Nat} {pipe : Pipe} {k₁ k' : Kernel} (hopen : writable k i = true)
      (hp : k.pipe i = some pipe)
      (hm : m = min (hw.PIPE_BUFFER_LEN - pipe.bytes_in_buffer).toNat len.toNat)
      (hlt : ¬ (m : Int) < len)
      (hk₁ : k₁ = writeNow hw k i pipe buf len m (pcbDoneWrite (k.pcb k.current_process) len m)
        k.queues)
      (hdrain : syncDrainReaders hw n k₁ i = some k') : WriteCase hw k s buf len i SUCCESS k'

theorem writePipe_cases (hc : Coherent k s) (hfree : ∀ l, k.current_process ∉ s l)
    (hidle : k.current_process ≠ k.idle_process) {id len rc : Int} {buf : BufPtr}
    (hrun : syncWritePipe hw k id buf len = some (rc, k')) : WriteCase hw k s buf len id rc k' := by
  cases hcheck : getCheckSync k id with
  | none =>
    simp only [syncWritePipe, hcheck, Option.some.injEq, Prod.mk.injEq] at hrun
    obtain ⟨rfl, rfl⟩ := hrun
    exact .error (by simp [writable, hcheck])
  | some o =>
    obtain ⟨ho, hid⟩ := getCheckSync_eq_some hcheck
    generalize id.toNat = i at ho hid
    subst hid
    cases hobj : o.object.asPipe with
    | none => simp [syncWritePipe, hcheck, hobj] at hrun
    | some pipe =>
      have hwritable : writable k i = pipe.open_for_write := by simp [writable, hcheck, hobj]
      have hp : k.pipe i = some pipe := by rw [Kernel.pipe, ho]; exact hobj
      rw [syncWritePipe_eq hcheck hobj _ rfl] at hrun
      generalize hm : min (hw.PIPE_BUFFER_LEN - pipe.bytes_in_buffer).toNat len.toNat = m at hrun
      split at hrun
      · rename_i hclosed
        simp only [Option.some.injEq, Prod.mk.injEq] at hrun
        obtain ⟨rfl, rfl⟩ := hrun
        exact .error (by simpa [hwritable] using hclosed)
      · rename_i hopen
        have hopen : writable k i = true := by simpa [hwritable] using hopen
        split at hrun
        · rename_i hlt
          simp only [Option.bind_eq_some_iff, Option.map_eq_some_iff, Prod.mk.injEq] at hrun
          obtain ⟨k₁, hins, k₂, hdrain, rfl, rfl⟩ := hrun
          have htr : InTransit (writeNow hw k i pipe buf len m
              (pcbBlockedWrite (k.pcb k.current_process) i buf len m) k.queues) s
              k.current_process :=
            (hc.transit hfree).congr rfl rfl fun q hq => by simp [writeNow, hq]
          obtain ⟨q, hins', hc₁⟩ := htr.insertTail (l := .wait (.pipeWriters i))
            (by simp [writeNow, pcbBlockedWrite, QueueId.state]) hidle
          obtain rfl := Option.some.inj (hins.symm.trans hins')
          exact .blocked hopen hp hm.symm hlt rfl hc₁ hdrain
        · rename_i hlt
          simp only [Option.map_eq_some_iff, Prod.mk.injEq] at hrun
          obtain ⟨k₂, hdrain, rfl, rfl⟩ := hrun
          exact .done hopen hp hm.symm hlt rfl hdrain

end Yalnix
