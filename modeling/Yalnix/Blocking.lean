import Yalnix.IdChecks
import Yalnix.PipeShape

/-!
# What a result says of the caller

A call that may block returns `PCB_BLOCKED` or `SUCCESS`, and its caller goes to sleep or goes on by
that. `SyncWritePipe` chooses before it drains the readers, and so may finish what it calls blocked.
-/

namespace Yalnix

variable (hw : Hardware)

/-- The wait list that a call may put its caller on. -/
def SyncCall.waitList : SyncCall → Option WaitList
  | .readPipe pipe_id _ _ => some (.pipeReaders pipe_id.toNat)
  | .writePipe pipe_id _ _ => some (.pipeWriters pipe_id.toNat)
  | .lockAcquire lock_id => some (.lockWaiters lock_id.toNat)
  | .cvarWait cvar_id _ => some (.cvarWaiters cvar_id.toNat)
  | _ => none

/-- The result `rc` of a call of `p`, which leads to `k'`, agrees with where `p` is: blocked on the list
`v`, or in the state `st` as before and on no list. -/
structure Reported (st : ProcessState) (p : PcbPtr) (v : WaitList) (rc : Int) (k' : Kernel) : Prop where
  blocked : rc = PCB_BLOCKED ↔ (k'.pcb p).state = .processBlocked ∧ p ∈ k'.queue (.wait v)
  success : rc = SUCCESS → (k'.pcb p).state = st ∧ k'.OffQueues p

/-- The bytes that the writer `w` has left. -/
def Pcb.left (w : Pcb) : Nat := (w.pipe_len - w.write_loc).toNat

/-- The bytes that the writers have left that wait at the pipe in slot `i`. -/
def Kernel.pending (k : Kernel) (i : Nat) : Nat :=
  ((k.queue (.wait (.pipeWriters i))).map fun w => (k.pcb w).left).sum

/-- A write of more than the buffer holds, which the drain loops finish in the same call: the refills
that the waiting readers need take all that the writers have left. -/
def WriteDrains (k : Kernel) : SyncCall → Prop
  | .writePipe pipe_id _ len => writable k pipe_id = true ∧ hw.PIPE_BUFFER_LEN < len ∧
    k.pending pipe_id.toNat + (len - hw.PIPE_BUFFER_LEN) ≤ (hw.PIPE_BUFFER_LEN *
      (refills hw.PIPE_BUFFER_LEN hw.PIPE_BUFFER_LEN (k.requests pipe_id.toNat)).1 : Nat)
  | _ => False

/-- The call reads the pid of the owner of a lock that nobody owns. -/
def OwnerMissing (k : Kernel) : SyncCall → Prop
  | .cvarWait cvar_id lock_id => getCheckSync k cvar_id ≠ none ∧
    ∃ sync lock, getCheckSync k lock_id = some sync ∧ sync.object.asLock = some lock ∧
      lock.owner = none
  | _ => False

end Yalnix
