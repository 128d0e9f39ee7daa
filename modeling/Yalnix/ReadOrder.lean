import Yalnix.PipeShape

/-!
# Reads in order

A read takes bytes at once or waits, and who waits is served in the order of the calls. The history of a
pipe says who asked for how much, and who got what.
-/

namespace Yalnix

open Intrusive

/-- The calls of `SyncReadPipe` and `SyncWritePipe` without negative lengths, beside new pipes,
`schedule` and stores into kernel buffers. -/
def PipeTraffic : SyncEvent → Prop
  | .call _ (.initPipe _ _ _) => True
  | .call _ (.readPipe _ _ len) => 0 ≤ len
  | .call _ (.writePipe _ _ len) => 0 ≤ len
  | .schedule _ => True
  | .store _ _ => True
  | _ => False

instance : DecidablePred PipeTraffic
  | .call _ (.initPipe _ _ _) => inferInstanceAs (Decidable True)
  | .call _ (.readPipe _ _ len) => inferInstanceAs (Decidable (0 ≤ len))
  | .call _ (.writePipe _ _ len) => inferInstanceAs (Decidable (0 ≤ len))
  | .schedule _ => inferInstanceAs (Decidable True)
  | .store _ _ => inferInstanceAs (Decidable True)
  | .call _ (.initLock _ _) => inferInstanceAs (Decidable False)
  | .call _ (.lockAcquire _) => inferInstanceAs (Decidable False)
  | .call _ (.lockRelease _) => inferInstanceAs (Decidable False)
  | .call _ (.initCvar _ _) => inferInstanceAs (Decidable False)
  | .call _ (.cvarWait _ _) => inferInstanceAs (Decidable False)
  | .call _ (.cvarSignal _) => inferInstanceAs (Decidable False)
  | .call _ (.cvarBroadcast _ _) => inferInstanceAs (Decidable False)

/-- The read calls at the pipe in slot `i`, oldest first: who asked, and for how much. -/
def reads (i : Nat) (h : List PipeEvent) : List (PcbPtr × Int) :=
  h.flatMap fun e => match e with
    | .readCall j r len => if j = i then [(r, len)] else []
    | _ => []

/-- Who got bytes of the pipe in slot `i`, oldest first. -/
def served (i : Nat) (h : List PipeEvent) : List PcbPtr :=
  h.flatMap fun e => match e with
    | .delivered j r _ => if j = i then [r] else []
    | _ => []

/-- The bytes that were put into the pipe in slot `i` and not yet taken out. -/
def available (i : Nat) (h : List PipeEvent) : Int :=
  (acceptedBytes i h).length - (deliveredBytes i h).length

/-- The call of `SyncReadPipe` on the pipe in slot `i` that an event is. -/
def readCall (i : Nat) : Kernel × SyncEvent → Option (PcbPtr × Int)
  | (k, .call p (.readPipe pipe_id _ len)) =>
    if pipe_id = i ∧ readable k pipe_id then some (p, len) else none
  | _ => none

/-- Every delivery serves the oldest read that was not yet served, with what is there of what it asked
for. -/
def ServedInOrder (i : Nat) (h : List PipeEvent) : Prop :=
  ∀ h₁ r out h₂, h = h₁ ++ .delivered i r out :: h₂ →
    ∃ len, (reads i h₁)[(served i h₁).length]? = some (r, len) ∧
      (out.length : Int) = min len (available i h₁)

/-- The reads that were served, and those of the processes that wait. -/
def ReadsOf (i : Nat) (k : Kernel) (s : QueueId → List PcbPtr) : Prop :=
  ∃ done, reads i k.pipeHistory =
      done ++ (s (.wait (.pipeReaders i))).map (fun r => (r, (k.pcb r).pipe_len)) ∧
    done.length = (served i k.pipeHistory).length

/-- The invariant of the reads at the pipe in slot `i`. -/
structure ReadInv (k : Kernel) (s : QueueId → List PcbPtr) (i : Nat) : Prop where
  fresh : k.pipe i = none → ∀ e ∈ k.pipeHistory, e.slot ≠ i
  count : ∀ pipe, k.pipe i = some pipe → pipe.bytes_in_buffer = available i k.pipeHistory
  line : ReadsOf i k s
  nonneg : ∀ r ∈ s (.wait (.pipeReaders i)), 0 ≤ (k.pcb r).pipe_len
  order : ServedInOrder i k.pipeHistory

/-- A call that takes `k` to `k'` leaves the reader `r` waiting at the pipe in slot `i`, or makes it
ready with the number of bytes that it got as its result. -/
def ReaderTold (i : Nat) (k k' : Kernel) (r : PcbPtr) : Prop :=
  (r ∈ k'.queue (.wait (.pipeReaders i)) ∧ k'.pcb r = k.pcb r) ∨
  (r ∉ k'.queue (.wait (.pipeReaders i)) ∧ r ∈ k'.queue .ready ∧
    ∃ h₁ out h₂, k'.pipeHistory = k.pipeHistory ++ h₁ ++ .delivered i r out :: h₂ ∧
      (k'.pcb r).user_context.regs 0 = out.length)

end Yalnix
