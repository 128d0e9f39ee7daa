import Yalnix.SyncRun
import Yalnix.Ring

/-!
# Runs of pipe calls

What a pipe is for: the bytes accepted from the writers come out to the readers, in order. The history
says what was accepted and delivered; the buffer holds the difference.
-/

namespace Yalnix

open Intrusive Transition

variable (hw : Hardware)

/-- The bytes in the buffer, oldest first. -/
def Pipe.contents (pipe : Pipe) : List UInt8 :=
  Ring.contents hw.PIPE_BUFFER_LEN pipe.buffer pipe.read_pos pipe.bytes_in_buffer.toNat

/-- The positions and the counter agree. -/
structure Pipe.Valid (pipe : Pipe) : Prop where
  nonneg : 0 ≤ pipe.bytes_in_buffer
  le : pipe.bytes_in_buffer ≤ hw.PIPE_BUFFER_LEN
  read_lt : pipe.read_pos < hw.PIPE_BUFFER_LEN
  write_eq : pipe.write_pos = (pipe.read_pos + pipe.bytes_in_buffer.toNat) % hw.PIPE_BUFFER_LEN

/-! ## The history of a pipe -/

/-- The slot of the pipe at which something happened. -/
def PipeEvent.slot : PipeEvent → Nat
  | .readCall i _ _ => i
  | .writeCall i _ _ => i
  | .accepted i _ _ => i
  | .delivered i _ _ => i

/-- The bytes put into the pipe in slot `i` so far. -/
def acceptedBytes (i : Nat) (h : List PipeEvent) : List UInt8 :=
  h.flatMap fun e => match e with
    | .accepted j _ bytes => if j = i then bytes else []
    | _ => []

/-- The bytes taken out of the pipe in slot `i` so far. -/
def deliveredBytes (i : Nat) (h : List PipeEvent) : List UInt8 :=
  h.flatMap fun e => match e with
    | .delivered j _ bytes => if j = i then bytes else []
    | _ => []

/-- A write call: its source buffer, and the bytes that were accepted on its behalf. -/
structure Write where
  writer : PcbPtr
  src : List UInt8
  accepted : List UInt8
deriving DecidableEq

/-- All bytes of the write were accepted. -/
def Write.done (r : Write) : Bool := r.accepted = r.src

/-- Bytes accepted from `writer` belong to its newest write; the newest write is first. -/
def acceptFor (writer : PcbPtr) (bytes : List UInt8) : List Write → List Write
  | [] => []
  | r :: rs =>
    if r.writer = writer then { r with accepted := r.accepted ++ bytes } :: rs
    else r :: acceptFor writer bytes rs

/-- What one event adds to the writes of the pipe in slot `i`. -/
def logEvent (i : Nat) (ws : List Write) : PipeEvent → List Write
  | .writeCall j w src => if j = i then ⟨w, src, []⟩ :: ws else ws
  | .accepted j w bytes => if j = i then acceptFor w bytes ws else ws
  | _ => ws

/-- The write calls on the pipe in slot `i`, newest first. -/
def writeLog (i : Nat) (h : List PipeEvent) : List Write := h.foldl (logEvent i) []

/-- Who wrote, and what. -/
def Write.call (r : Write) : PcbPtr × List UInt8 := (r.writer, r.src)

/-- The id names a pipe that is open for writing. -/
def writable (k : Kernel) (pipe_id : Int) : Bool :=
  ((getCheckSync k pipe_id).bind (·.object.asPipe)).any (·.open_for_write)

/-- The id names a pipe that is open for reading. -/
def readable (k : Kernel) (pipe_id : Int) : Bool :=
  ((getCheckSync k pipe_id).bind (·.object.asPipe)).any (·.open_for_read)

/-- The call of `SyncWritePipe` on the pipe in slot `i` that an event is. -/
def writeCall (i : Nat) : Kernel × SyncEvent → Option (PcbPtr × List UInt8)
  | (k, .call p (.writePipe pipe_id buf len)) =>
    if pipe_id = i ∧ writable k pipe_id then
      some (p, (List.range len.toNat).map (k.kbuf buf))
    else none
  | _ => none

/-! ## The runs -/

/-- The calls on pipes: lengths are not negative, and the buffer of a call is not one that a blocked
process reads into or writes from (the handlers allocate one for each call). Nobody else stores into
the buffer of a blocked writer. -/
def PipeCall (k : Kernel) : SyncEvent → Prop
  | .call _ (.initPipe _ _ _) => True
  | .call _ (.readPipe _ buf len) => 0 ≤ len ∧
    ∀ i < MAX_SYNCS, ∀ w ∈ k.queue (.wait (.pipeWriters i)), (k.pcb w).pipe_buffer ≠ some buf
  | .call _ (.writePipe _ buf len) => 0 ≤ len ∧
    ∀ i < MAX_SYNCS, ∀ r ∈ k.queue (.wait (.pipeReaders i)), (k.pcb r).pipe_buffer ≠ some buf
  | .schedule _ => True
  | .store buf _ =>
    ∀ i < MAX_SYNCS, ∀ w ∈ k.queue (.wait (.pipeWriters i)), (k.pcb w).pipe_buffer ≠ some buf
  | _ => False

instance (k : Kernel) : (e : SyncEvent) → Decidable (PipeCall k e)
  | .call _ (.initPipe _ _ _) => inferInstanceAs (Decidable True)
  | .call _ (.readPipe _ _ _) => inferInstanceAs (Decidable (_ ∧ _))
  | .call _ (.writePipe _ _ _) => inferInstanceAs (Decidable (_ ∧ _))
  | .schedule _ => inferInstanceAs (Decidable True)
  | .store _ _ => inferInstanceAs (Decidable (∀ i < MAX_SYNCS, _))
  | .call _ (.initLock _ _) => inferInstanceAs (Decidable False)
  | .call _ (.lockAcquire _) => inferInstanceAs (Decidable False)
  | .call _ (.lockRelease _) => inferInstanceAs (Decidable False)
  | .call _ (.initCvar _ _) => inferInstanceAs (Decidable False)
  | .call _ (.cvarWait _ _) => inferInstanceAs (Decidable False)
  | .call _ (.cvarSignal _) => inferInstanceAs (Decidable False)
  | .call _ (.cvarBroadcast _ _) => inferInstanceAs (Decidable False)

/-- The write `r` of a process that is blocked in it. -/
structure InProgress (k : Kernel) (r : Write) : Prop where
  nonneg : 0 ≤ (k.pcb r.writer).write_loc
  lt : (k.pcb r.writer).write_loc < (k.pcb r.writer).pipe_len
  src : ∃ b, (k.pcb r.writer).pipe_buffer = some b ∧
    r.src = (List.range (k.pcb r.writer).pipe_len.toNat).map (k.kbuf b)
  accepted : r.accepted = r.src.take (k.pcb r.writer).write_loc.toNat

/-- The invariant of the pipe in slot `i`. -/
structure PipeInv (k : Kernel) (s : QueueId → List PcbPtr) (i : Nat) : Prop where
  fresh : k.pipe i = none → ∀ e ∈ k.pipeHistory, e.slot ≠ i
  valid : ∀ pipe, k.pipe i = some pipe → pipe.Valid hw
  /-- What was accepted is what was delivered and what is in the buffer. -/
  stream : ∀ pipe, k.pipe i = some pipe →
    deliveredBytes i k.pipeHistory ++ pipe.contents hw = acceptedBytes i k.pipeHistory
  /-- The writes that are not done are those of the blocked writers, in their order. -/
  blocked : ((writeLog i k.pipeHistory).filter (!·.done)).map Write.writer =
    (s (.wait (.pipeWriters i))).reverse
  /-- Only the newest write of a process may be not done. -/
  newest : (writeLog i k.pipeHistory).Pairwise fun r r' => r'.writer = r.writer → r'.done = true
  progress : ∀ r ∈ writeLog i k.pipeHistory, r.done = false → InProgress k r
  reader : ∀ r ∈ s (.wait (.pipeReaders i)), ∃ b, (k.pcb r).pipe_buffer = some b ∧
    0 ≤ (k.pcb r).pipe_len

/-- The invariant of the pipes. -/
structure PipesInv (k : Kernel) (s : QueueId → List PcbPtr) : Prop where
  coherent : Coherent k s
  table : SyncTable k s
  pipe : ∀ i, PipeInv hw k s i
  /-- No reader waits with a buffer that a writer writes from. -/
  apart : ∀ i j, ∀ r ∈ s (.wait (.pipeReaders i)), ∀ w ∈ s (.wait (.pipeWriters j)),
    (k.pcb r).pipe_buffer ≠ (k.pcb w).pipe_buffer
  live : ∀ b, k.kbufFreed b = false

/-- A call that takes `k` to `k'` tells the writer `w` its result `len` when it has no more to wait for
at the pipe in slot `i`, and then all its bytes were accepted. -/
def Told (i : Nat) (k k' : Kernel) (w : PcbPtr) (len : Int) : Prop :=
  (w ∈ k'.queue (.wait (.pipeWriters i)) ∧ (k'.pcb w).user_context = (k.pcb w).user_context) ∨
  (w ∉ k'.queue (.wait (.pipeWriters i)) ∧ (k'.pcb w).user_context.regs 0 = len ∧
    ∀ r ∈ writeLog i k'.pipeHistory, r.writer = w → r.accepted = r.src)

end Yalnix
