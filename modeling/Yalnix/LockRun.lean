import Yalnix.SyncRun
import Yalnix.FifoLock

/-!
# Runs of lock and condition variable calls

What a lock is for: `FifoLock`. The lock in slot `i` is one, with the processes of its wait list in
line.
-/

namespace Yalnix

open Intrusive Transition

/-- The calls on locks and condition variables, and `schedule`. -/
def LockEvent : SyncEvent → Prop
  | .call _ (.initLock _ _) => True
  | .call _ (.lockAcquire _) => True
  | .call _ (.lockRelease _) => True
  | .call _ (.initCvar _ _) => True
  | .call _ (.cvarWait _ _) => True
  | .call _ (.cvarSignal _) => True
  | .call _ (.cvarBroadcast _ _) => True
  | .schedule _ => True
  | _ => False

/-- The process that asks for the lock in slot `i` while it is held. -/
def contendedAcquire (i : Nat) : Kernel × SyncEvent → Option PcbPtr
  | (k, .call p (.lockAcquire lock_id)) =>
    if lock_id = i ∧ (k.lock i).any (·.locked) then some p else none
  | _ => none

/-- The new owner, when a step passes the held lock in slot `i` on. -/
def contendedGrant (hw : Hardware) (i : Nat) (x : Kernel × SyncEvent) : Option PcbPtr := do
  let k' ← (syncMachine hw).step x.1 x.2
  let old ← x.1.lock i
  let new ← k'.lock i
  if old.locked ∧ new.owner ≠ old.owner then new.owner else none

/-- The invariant of the locks. -/
structure LockInv (k : Kernel) (s : QueueId → List PcbPtr) : Prop where
  coherent : Coherent k s
  table : SyncTable k s
  locked_iff : ∀ i lock, k.lock i = some lock → (lock.locked = true ↔ lock.owner ≠ none)
  contended : ∀ i lock, k.lock i = some lock → lock.owner = none → s (.wait (.lockWaiters i)) = []
  waiting : ∀ i p, p ∈ s (.wait (.lockWaiters i)) → (k.pcb p).waiting_lock_id = i

/-- The lock in slot `i`, with its wait list. -/
def LockInv.fifo {k : Kernel} {s : QueueId → List PcbPtr} (h : LockInv k s) {i : Nat} {lock : Lock}
    (hl : k.lock i = some lock) : FifoLock PcbPtr :=
  ⟨lock.owner, s (.wait (.lockWaiters i)), h.contended i lock hl⟩

end Yalnix
