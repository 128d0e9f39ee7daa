import Yalnix.PipeOrder

/-!
# The drain loops at any pipe

What the drain loops need of a pipe and of those who wait there, and what they do with them: each is
still waiting afterwards, or ready.
-/

namespace Yalnix

open Intrusive

variable (hw : Hardware)

/-- What of `Pipe.Valid` no call can break. -/
structure Pipe.Sound (pipe : Pipe) : Prop where
  nonneg : 0 ≤ pipe.bytes_in_buffer
  read_lt : pipe.read_pos < hw.PIPE_BUFFER_LEN

/-- The pipe in slot `i` is sound, and who waits there has a buffer that has not been freed. -/
structure PipeShape (k : Kernel) (s : QueueId → List PcbPtr) (i : Nat) : Prop where
  sound : ∀ pipe, k.pipe i = some pipe → pipe.Sound hw
  reader : ∀ r ∈ s (.wait (.pipeReaders i)), ∃ b, (k.pcb r).pipe_buffer = some b ∧ k.kbufFreed b = false
  writer : ∀ w ∈ s (.wait (.pipeWriters i)), (∃ b, (k.pcb w).pipe_buffer = some b ∧ k.kbufFreed b = false) ∧
    0 ≤ (k.pcb w).write_loc

/-- The invariant of the pipes in every run, whatever the calls ask for. -/
structure ShapeInv (k : Kernel) (s : QueueId → List PcbPtr) : Prop where
  coherent : Coherent k s
  table : SyncTable k s
  shape : ∀ i, PipeShape hw k s i
  /-- Readers wait for an empty buffer. -/
  waits : ∀ i pipe, k.pipe i = some pipe → s (.wait (.pipeReaders i)) ≠ [] → pipe.bytes_in_buffer = 0

/-- The kernel buffer of a call on a pipe. -/
def SyncCall.buffer : SyncCall → Option BufPtr
  | .readPipe _ buf _ => some buf
  | .writePipe _ buf _ => some buf
  | _ => none

/-- The counter is in range, the positions are in the buffer, and the counter is the way between them. -/
structure Pipe.Agrees (pipe : Pipe) : Prop where
  nonneg : 0 ≤ pipe.bytes_in_buffer
  le : pipe.bytes_in_buffer ≤ hw.PIPE_BUFFER_LEN
  read_lt : pipe.read_pos < hw.PIPE_BUFFER_LEN
  write_lt : pipe.write_pos < hw.PIPE_BUFFER_LEN
  distance : (pipe.write_pos : Int) = (pipe.read_pos + pipe.bytes_in_buffer) % hw.PIPE_BUFFER_LEN

/-- The id and the length of a read call. -/
def readArgs : SyncEvent → Option (Int × Int)
  | .call _ (.readPipe pipe_id _ len) => some (pipe_id, len)
  | _ => none

/-- No negative length is read. -/
def ReadsNonneg (e : SyncEvent) : Prop := ∀ a ∈ readArgs e, 0 ≤ a.2

instance (e : SyncEvent) : Decidable (ReadsNonneg e) :=
  inferInstanceAs (Decidable (∀ a ∈ readArgs e, 0 ≤ a.2))

/-- No negative length is read from an open pipe with bytes. -/
def ReadsForward (k : Kernel) (e : SyncEvent) : Prop :=
  ∀ a ∈ readArgs e, readable k a.1 = true → a.2 < 0 →
    ∀ pipe ∈ k.pipe a.1.toNat, pipe.bytes_in_buffer = 0

instance (k : Kernel) (e : SyncEvent) : Decidable (ReadsForward k e) :=
  inferInstanceAs (Decidable (∀ a ∈ readArgs e, _ → _ → ∀ pipe ∈ k.pipe a.1.toNat, _))

/-- Who waits at the pipe in slot `i` asks for no negative length, or has bytes left. -/
structure PipeLengths (k : Kernel) (s : QueueId → List PcbPtr) (i : Nat) : Prop where
  reader : ∀ r ∈ s (.wait (.pipeReaders i)), 0 ≤ (k.pcb r).pipe_len
  writer : ∀ w ∈ s (.wait (.pipeWriters i)), (k.pcb w).write_loc < (k.pcb w).pipe_len

/-- The two drain loops. -/
inductive DrainLoop where
  | writers
  | readers

def DrainLoop.run : DrainLoop → Nat → Kernel → Nat → Option Kernel
  | writers => syncDrainWriters hw
  | readers => syncDrainReaders hw

/-- The process waits as before, but that its write may have gone on. -/
def Advanced (a b : Pcb) : Prop :=
  ∃ loc, b = { a with write_loc := loc } ∧ a.write_loc ≤ loc ∧ (loc = a.write_loc ∨ loc < a.pipe_len)

/-- Those who waited at the pipe in slot `i` are those who still wait, in their old order, and those who
are new at the end of the ready queue, each once. -/
def Parted (i : Nat) (k : Kernel) (s : QueueId → List PcbPtr) (k' : Kernel)
    (s' : QueueId → List PcbPtr) : Prop :=
  ∃ readers writers ready,
    s (.wait (.pipeReaders i)) = readers ++ s' (.wait (.pipeReaders i)) ∧
    s (.wait (.pipeWriters i)) = writers ++ s' (.wait (.pipeWriters i)) ∧
    s' .ready = s .ready ++ ready ∧ ready.Perm (readers ++ writers) ∧
    (∀ r ∈ s' (.wait (.pipeReaders i)), k'.pcb r = k.pcb r) ∧
    (∀ w ∈ (s' (.wait (.pipeWriters i))).head?, Advanced (k.pcb w) (k'.pcb w)) ∧
    (∀ w ∈ (s' (.wait (.pipeWriters i))).tail, k'.pcb w = k.pcb w) ∧
    ∀ l, l ≠ .ready → l ≠ .wait (.pipeReaders i) → l ≠ .wait (.pipeWriters i) → s' l = s l

end Yalnix
