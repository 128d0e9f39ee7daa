import Yalnix.Pcb

/-!
# Pipes, locks and condition variables

`sync.c`. The return code comes with the new state; reading an object through a pointer of the wrong
type has no result.
-/

namespace Yalnix

open Intrusive

variable (hw : Hardware)

def MAX_SYNCS : Nat := 128

def PCB_BLOCKED : Int := 30

/-! ## The table -/

/-- `GetNewID`. -/
def getNewID (k : Kernel) : Int × Kernel :=
  match (List.range MAX_SYNCS).find? fun i => !k.id_used i with
  | some i =>
    (i, { k with
      id_used := Function.update k.id_used i true
      global_sync_counter := k.global_sync_counter + 1 })
  | none => (ERROR, k)

/-- `InitSyncObject`; `allocated` is whether `malloc` gives the `sync_obj_t`. After a failed `GetNewID`
the C code goes on with a freed object and the slot `-1`. -/
def initSyncObject (k : Kernel) (object : SyncObject) (allocated : Bool) : Option (Int × Kernel) :=
  if !allocated then some (ERROR, k)
  else
    let (id, k) := getNewID k
    if id < 0 then none
    else some (id, { k with sync_table := Function.update k.sync_table id.toNat (some ⟨id, object⟩) })

/-- `GetCheckSync`: the object of a live id, whatever its type. -/
def getCheckSync (k : Kernel) (id : Int) : Option SyncObj :=
  if id < 0 ∨ id ≥ MAX_SYNCS then none else k.sync_table id.toNat

/-- `SyncInitPipe`, `SyncInitLock` and `SyncInitCvar` share one shape: a new object with the wait lists
`lists id`, whose id is stored through `idp`. -/
def syncInit (object : SyncObject) (lists : Nat → List WaitList) (k : Kernel) (idp : Int)
    (allocated : Bool) : Option (Int × Kernel) :=
  if k.global_sync_counter ≥ MAX_SYNCS then some (ERROR, k)
  else do
    let (rc, k) ← initSyncObject k object allocated
    if rc = ERROR then return (ERROR, k)
    else
      let queues := (lists rc.toNat).foldl (fun q w => q.listInit (.wait w)) k.queues
      return (SUCCESS, { k with
        queues := queues
        userStores := k.userStores ++ [.word k.current_process idp rc] })

/-! ## Pipes -/

/-- A new pipe; its buffer is as `malloc` gave it. -/
def newPipe (buffer : Nat → UInt8) : Pipe := ⟨buffer, 0, 0, 0, true, true⟩

def syncInitPipe (k : Kernel) (pipe_idp : Int) (allocated : Bool) (buffer : Nat → UInt8) :
    Option (Int × Kernel) :=
  syncInit (.pipe (newPipe buffer)) (fun i => [.pipeReaders i, .pipeWriters i]) k pipe_idp allocated

/-- The pipe in slot `i`, read through its pointer. -/
def Kernel.pipe (k : Kernel) (i : Nat) : Option Pipe := (k.sync_table i).bind (·.object.asPipe)

/-- `dest[i] = buffer[read_pos]` and the step of `read_pos`. -/
def Pipe.stepRead (pipe : Pipe) (dec : Int) : Pipe :=
  { pipe with
    read_pos := (pipe.read_pos + 1) % hw.PIPE_BUFFER_LEN
    bytes_in_buffer := pipe.bytes_in_buffer - dec }

/-- The loop that copies `n` more bytes to `dest[i..]`; `dec` is what it takes off `bytes_in_buffer` at
each turn. The last component is the bytes stored. -/
def readLoop (dec : Int) (pipe : Pipe) (dest : Nat → UInt8) (i : Nat) :
    Nat → Pipe × (Nat → UInt8) × List UInt8
  | 0 => (pipe, dest, [])
  | n + 1 =>
    let b := pipe.buffer pipe.read_pos
    let (pipe, dest, out) := readLoop dec (pipe.stepRead hw dec) (Function.update dest i b) (i + 1) n
    (pipe, dest, b :: out)

/-- `buffer[write_pos] = b` and the steps of `write_pos` and `bytes_in_buffer`. -/
def Pipe.put (pipe : Pipe) (b : UInt8) : Pipe :=
  { pipe with
    buffer := Function.update pipe.buffer pipe.write_pos b
    write_pos := (pipe.write_pos + 1) % hw.PIPE_BUFFER_LEN
    bytes_in_buffer := pipe.bytes_in_buffer + 1 }

/-- The loop that copies `src[write_loc..len)` into the buffer while there is `room`, for at most `n`
bytes; `written` counts them. The last component is the bytes put into the buffer. -/
def writeLoop (room : Pipe → Int → Bool) (src : Nat → UInt8) (len : Int) (pipe : Pipe)
    (written write_loc : Int) : Nat → Pipe × Int × List UInt8
  | 0 => (pipe, write_loc, [])
  | n + 1 =>
    if room pipe written ∧ write_loc < len then
      let b := src write_loc.toNat
      let (pipe, write_loc, out) :=
        writeLoop room src len (pipe.put hw b) (written + 1) (write_loc + 1) n
      (pipe, write_loc, b :: out)
    else (pipe, write_loc, [])

/-- The body of the loop of `SyncDrainReaders` after the `pop`, up to the ready queue: `reader` takes
what is there of what it asked for. A store into a freed buffer has no result. -/
def serveReader (k : Kernel) (i : Nat) (pipe : Pipe) (reader : PcbPtr) : Option Kernel := do
  let dest ← (k.pcb reader).pipe_buffer
  let req := (k.pcb reader).pipe_len
  let avl := pipe.bytes_in_buffer
  let to_read := if req < avl then req else avl
  if 0 < to_read.toNat ∧ k.kbufFreed dest then none
  else
    let (pipe, bytes, out) := readLoop hw 1 pipe (k.kbuf dest) 0 to_read.toNat
    let k := { k.setObject i (.pipe pipe) with kbuf := Function.update k.kbuf dest bytes }
    let k := k.record (.delivered i reader out)
    let k := k.setReg0 reader to_read
    return k.modifyPcb reader fun pcb =>
      { pcb with waiting_pipe_id := -1, state := .processDefault }

/-- The body of the loop of `SyncDrainWriters` after the `pop`, up to its test: `writer` fills the
buffer from where it stopped. A load from a freed buffer has no result. -/
def fillFromWriter (k : Kernel) (i : Nat) (pipe : Pipe) (writer : PcbPtr) : Option Kernel := do
  let src ← (k.pcb writer).pipe_buffer
  let len := (k.pcb writer).pipe_len
  let loc := (k.pcb writer).write_loc
  let (pipe, loc, out) := writeLoop hw (fun pipe _ => pipe.bytes_in_buffer < hw.PIPE_BUFFER_LEN)
    (k.kbuf src) len pipe 0 loc (len - loc).toNat
  if 0 < out.length ∧ k.kbufFreed src then none
  else
    let k := (k.setObject i (.pipe pipe)).record (.accepted i writer out)
    return k.modifyPcb writer fun pcb => { pcb with write_loc := loc }

/-- The end of a write in `SyncDrainWriters`, up to the ready queue. -/
def finishWriter (k : Kernel) (writer : PcbPtr) : Kernel :=
  let len := (k.pcb writer).pipe_len
  let k := k.modifyPcb writer fun pcb =>
    { pcb with
      pipe_buffer := none
      pipe_len := 0
      write_loc := 0
      waiting_pipe_id := -1
      state := .processDefault }
  k.setReg0 writer len

mutual

/-- `SyncDrainWriters` on the pipe in slot `i`, for at most `n` turns of the two drain loops. -/
def syncDrainWriters : Nat → Kernel → Nat → Option Kernel
  | 0, _, _ => none
  | n + 1, k, i => do
    let (node, k) ← k.pop (.wait (.pipeWriters i))
    let pipe ← k.pipe i
    match node with
    | none =>
      if pipe.bytes_in_buffer ≠ 0 ∧ k.count (.wait (.pipeReaders i)) ≠ 0 then
        syncDrainReaders n k i
      else some k
    | some writer =>
      let k ← fillFromWriter hw k i pipe writer
      if (k.pcb writer).write_loc < (k.pcb writer).pipe_len then
        let k ← k.insertHead (.wait (.pipeWriters i)) writer
        let pipe ← k.pipe i
        if pipe.bytes_in_buffer ≠ 0 ∧ k.count (.wait (.pipeReaders i)) ≠ 0 then
          syncDrainReaders n k i
        else some k
      else
        let k ← addToReadyQueue (finishWriter k writer) writer
        syncDrainWriters n k i

/-- `SyncDrainReaders` on the pipe in slot `i`. Both exits test `readers.count` before they drain the
writers. -/
def syncDrainReaders : Nat → Kernel → Nat → Option Kernel
  | 0, _, _ => none
  | n + 1, k, i => do
    let pipe ← k.pipe i
    if pipe.bytes_in_buffer > 0 then
      let (node, k) ← k.pop (.wait (.pipeReaders i))
      match node with
      | none =>
        if pipe.bytes_in_buffer < hw.PIPE_BUFFER_LEN ∧ k.count (.wait (.pipeReaders i)) ≠ 0 then
          syncDrainWriters n k i
        else some k
      | some reader =>
        let k ← serveReader hw k i pipe reader
        let k ← addToReadyQueue k reader
        syncDrainReaders n k i
    else
      if pipe.bytes_in_buffer < hw.PIPE_BUFFER_LEN ∧ k.count (.wait (.pipeReaders i)) ≠ 0 then
        syncDrainWriters n k i
      else some k

end

/-- Turns enough for the drain loops: each waiting process is passed at most twice by each loop. -/
def drainTurns (k : Kernel) (i : Nat) : Nat :=
  4 * ((k.count (.wait (.pipeReaders i))).toNat + (k.count (.wait (.pipeWriters i))).toNat) + 4

/-- `SyncReadPipe`. -/
def syncReadPipe (k : Kernel) (pipe_id : Int) (buf : BufPtr) (len : Int) : Option (Int × Kernel) :=
  let curr := k.current_process
  match getCheckSync k pipe_id with
  | none => some (ERROR, k)
  | some sync => do
    let i := pipe_id.toNat
    let pipe ← sync.object.asPipe
    if !pipe.open_for_read then return (ERROR, k)
    else
      let k := k.record (.readCall i curr len)
      if pipe.bytes_in_buffer = 0 then
        let k := k.modifyPcb curr fun pcb =>
          { pcb with waiting_pipe_id := pipe_id, pipe_buffer := some buf, pipe_len := len }
        let k ← k.insertTail (.wait (.pipeReaders i)) curr
        return (PCB_BLOCKED, k.setState curr .processBlocked)
      else
        let to_read := if len < pipe.bytes_in_buffer then len else pipe.bytes_in_buffer
        let (pipe, bytes, out) := readLoop hw 0 pipe (k.kbuf buf) 0 to_read.toNat
        let k := { k with kbuf := Function.update k.kbuf buf bytes }
        let k := k.setReg0 curr to_read
        let k := k.setObject i (.pipe { pipe with bytes_in_buffer := pipe.bytes_in_buffer - to_read })
        let k := k.record (.delivered i curr out)
        let k ← syncDrainWriters hw (drainTurns k i) k i
        return (SUCCESS, k)

/-- `SyncWritePipe`. -/
def syncWritePipe (k : Kernel) (pipe_id : Int) (buf : BufPtr) (len : Int) : Option (Int × Kernel) :=
  match getCheckSync k pipe_id with
  | none => some (ERROR, k)
  | some sync => do
    let i := pipe_id.toNat
    let pipe ← sync.object.asPipe
    if !pipe.open_for_write then return (ERROR, k)
    else
      let space := hw.PIPE_BUFFER_LEN - pipe.bytes_in_buffer
      let writer := k.current_process
      let k := k.record (.writeCall i writer ((List.range len.toNat).map (k.kbuf buf)))
      let (pipe, loc, out) := writeLoop hw (fun _ written => written < space) (k.kbuf buf) len pipe 0 0
        len.toNat
      let k := (k.setObject i (.pipe pipe)).record (.accepted i writer out)
      let k := k.modifyPcb writer fun pcb => { pcb with write_loc := loc }
      if loc < len then
        let k := k.modifyPcb writer fun pcb =>
          { pcb with
            pipe_buffer := some buf
            pipe_len := len
            waiting_pipe_id := pipe_id
            state := .processBlocked }
        let k ← k.insertTail (.wait (.pipeWriters i)) writer
        let k ← syncDrainReaders hw (drainTurns k i) k i
        return (PCB_BLOCKED, k)
      else
        let k := k.setReg0 writer len
        let k ← syncDrainReaders hw (drainTurns k i) k i
        return (SUCCESS, k)

/-! ## Locks -/

def syncInitLock (k : Kernel) (lock_idp : Int) (allocated : Bool) : Option (Int × Kernel) :=
  syncInit (.lock ⟨false, none⟩) (fun i => [.lockWaiters i]) k lock_idp allocated

/-- `SyncLockAcquire`. -/
def syncLockAcquire (k : Kernel) (lock_id : Int) : Option (Int × Kernel) :=
  match getCheckSync k lock_id with
  | none => some (ERROR, k)
  | some sync => do
    let i := lock_id.toNat
    let lock ← sync.object.asLock
    if !lock.locked then
      return (SUCCESS, k.setObject i (.lock ⟨true, some k.current_process⟩))
    else
      let k ← k.insertTail (.wait (.lockWaiters i)) k.current_process
      return (PCB_BLOCKED, k.modifyPcb k.current_process fun pcb =>
        { pcb with state := .processBlocked, waiting_lock_id := lock_id })

/-- The release shared by `SyncLockRelease` and `SyncCvarWait`: the first waiter of the lock in slot
`i` becomes the owner, or the lock becomes free. -/
def handOff (k : Kernel) (i : Nat) (lock : Lock) : Option Kernel :=
  if k.count (.wait (.lockWaiters i)) ≠ 0 then do
    let (node, k) ← k.pop (.wait (.lockWaiters i))
    let next ← node
    let k := k.modifyPcb next fun pcb => { pcb with state := .processDefault, waiting_lock_id := -1 }
    let k ← addToReadyQueue k next
    return k.setObject i (.lock { lock with owner := some next })
  else some (k.setObject i (.lock ⟨false, none⟩))

/-- `SyncLockRelease`. The message of the error path reads `lock->owner->pid`. -/
def syncLockRelease (k : Kernel) (lock_id : Int) : Option (Int × Kernel) :=
  match getCheckSync k lock_id with
  | none => some (ERROR, k)
  | some sync => do
    let lock ← sync.object.asLock
    if lock.owner ≠ some k.current_process then
      let _owner ← lock.owner
      return (ERROR, k)
    else
      let k ← handOff k lock_id.toNat lock
      return (SUCCESS, k)

/-! ## Condition variables -/

def syncInitCvar (k : Kernel) (cvar_idp : Int) (allocated : Bool) : Option (Int × Kernel) :=
  syncInit .cvar (fun i => [.cvarWaiters i]) k cvar_idp allocated

/-- `SyncCvarWait`. -/
def syncCvarWait (k : Kernel) (cvar_id lock_id : Int) : Option (Int × Kernel) :=
  match getCheckSync k cvar_id with
  | none => some (ERROR, k)
  | some cvar =>
    match getCheckSync k lock_id with
    | none => some (ERROR, k)
    | some sync => do
      let lock ← sync.object.asLock
      let curr := k.current_process
      if lock.owner ≠ some curr then
        let _owner ← lock.owner
        return (ERROR, k)
      else
        let k ← handOff k lock_id.toNat lock
        let () ← cvar.object.asCvar
        let k ← k.insertTail (.wait (.cvarWaiters cvar_id.toNat)) curr
        return (PCB_BLOCKED, k.modifyPcb curr fun pcb =>
          { pcb with waiting_cvar_id := cvar_id, state := .processBlocked })

/-- One waiter of the condition variable in slot `i` becomes ready. -/
def wakeCvarWaiter (k : Kernel) (i : Nat) : Option Kernel := do
  let (node, k) ← k.pop (.wait (.cvarWaiters i))
  let next ← node
  let k := k.modifyPcb next fun pcb => { pcb with waiting_cvar_id := -1, state := .processDefault }
  addToReadyQueue k next

/-- `SyncCvarSignal`. -/
def syncCvarSignal (k : Kernel) (cvar_id : Int) : Option (Int × Kernel) :=
  match getCheckSync k cvar_id with
  | none => some (ERROR, k)
  | some sync => do
    let () ← sync.object.asCvar
    if k.count (.wait (.cvarWaiters cvar_id.toNat)) = 0 then return (0, k)
    else
      let k ← wakeCvarWaiter k cvar_id.toNat
      return (0, k)

/-- The loop of `SyncCvarBroadcast`, for at most `n` waiters. -/
def broadcastLoop (i : Nat) : Nat → Kernel → Option Kernel
  | 0, k => if k.count (.wait (.cvarWaiters i)) = 0 then some k else none
  | n + 1, k =>
    if k.count (.wait (.cvarWaiters i)) = 0 then some k
    else do
      let k ← wakeCvarWaiter k i
      broadcastLoop i n k

/-- `SyncCvarBroadcast`. After the loop the C function ends without a `return`; `rc` is the value its
caller then finds. -/
def syncCvarBroadcast (k : Kernel) (cvar_id : Int) (rc : Int) : Option (Int × Kernel) :=
  match getCheckSync k cvar_id with
  | none => some (ERROR, k)
  | some sync => do
    let () ← sync.object.asCvar
    if k.count (.wait (.cvarWaiters cvar_id.toNat)) = 0 then return (0, k)
    else
      let k ← broadcastLoop cvar_id.toNat (k.count (.wait (.cvarWaiters cvar_id.toNat))).toNat k
      return (rc, k)

end Yalnix
