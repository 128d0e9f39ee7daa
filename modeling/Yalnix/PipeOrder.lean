import Yalnix.PipeRun

/-!
# Waiting writers

The drain loops refill the buffer only while a reader waits. So a writer may stay blocked while there is
space, and a later write may overtake it; here is when that does not happen.
-/

namespace Yalnix

open Intrusive

variable (hw : Hardware)

/-- What the readers that wait at the pipe in slot `i` ask for, in their order. -/
def Kernel.requests (k : Kernel) (i : Nat) : List Nat :=
  (k.queue (.wait (.pipeReaders i))).map fun r => (k.pcb r).pipe_len.toNat

/-- The requests take in turn from `avail` bytes; when nothing is left and there is another request, `N`
bytes are filled in. How often that happens, and what is left at the end. -/
def refills (N : Nat) : Nat → List Nat → Nat × Nat
  | avail, [] => (0, avail)
  | avail, r :: rs =>
    if r < avail then refills N (avail - r) rs
    else match rs with
      | [] => (0, 0)
      | _ :: _ => let (n, left) := refills N N rs; (n + 1, left)

/-- The id and the length of a write call. -/
def writeArgs : SyncEvent → Option (Int × Int)
  | .call _ (.writePipe pipe_id _ len) => some (pipe_id, len)
  | _ => none

/-- A write to the pipe in slot `i` is used up by the buffer and its refills, or nothing is taken of the
last filling. Where no reader waits, that is so. -/
def WriteFits (i : Nat) (k : Kernel) (e : SyncEvent) : Prop :=
  ∀ a ∈ writeArgs e, a.1 = i →
    let x := refills hw.PIPE_BUFFER_LEN hw.PIPE_BUFFER_LEN (k.requests i)
    a.2 ≤ hw.PIPE_BUFFER_LEN * (x.1 + 1) ∨ x.2 = hw.PIPE_BUFFER_LEN

instance (i : Nat) (k : Kernel) (e : SyncEvent) : Decidable (WriteFits hw i k e) :=
  inferInstanceAs (Decidable (∀ a ∈ writeArgs e, a.1 = i → _ ∨ _))

/-- Writers wait for a full buffer, and readers for an empty one. -/
def NoLostWakeup (k : Kernel) (s : QueueId → List PcbPtr) (i : Nat) : Prop :=
  ∀ pipe, k.pipe i = some pipe →
    (s (.wait (.pipeWriters i)) ≠ [] → pipe.bytes_in_buffer = hw.PIPE_BUFFER_LEN) ∧
    (s (.wait (.pipeReaders i)) ≠ [] → pipe.bytes_in_buffer = 0)

/-- A write of at least one byte to the pipe in slot `i` finds no blocked writer, or no space. -/
def WriteInTurn (i : Nat) (k : Kernel) (e : SyncEvent) : Prop :=
  ∀ a ∈ writeArgs e, a.1 = i → 0 < a.2 →
    k.queue (.wait (.pipeWriters i)) = [] ∨
      ∀ pipe ∈ k.pipe i, pipe.bytes_in_buffer = hw.PIPE_BUFFER_LEN

instance (i : Nat) (k : Kernel) (e : SyncEvent) : Decidable (WriteInTurn hw i k e) :=
  inferInstanceAs (Decidable (∀ a ∈ writeArgs e, a.1 = i → 0 < a.2 → _ ∨ ∀ pipe ∈ k.pipe i, _))

end Yalnix
