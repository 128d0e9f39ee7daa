import Yalnix.IdChecks
import Yalnix.LockRun

/-!
# Runs of calls on condition variables

What a condition variable is for: who waits gives up the lock and joins a line at once, and leaves the
line by a signal or a broadcast, from the front.
-/

namespace Yalnix

/-- A state with no synchronization object, in which nobody has waited for one. -/
structure CvarStart (k : Kernel) : Prop where
  sync : SyncStart k
  ids : ∀ p, k.allocated p = true → ∀ y, (k.pcb p).waitingId y = -1

/-- A call of a process on locks or condition variables, or `schedule`. -/
def CvarEvent (k : Kernel) (e : SyncEvent) : Prop :=
  LockEvent e ∧ ∀ p c, e = .call p c → k.allocated p = true

/-- The calls on condition variables. -/
def SyncCall.onCvar : SyncCall → Bool
  | .cvarWait _ _ => true
  | .cvarSignal _ => true
  | .cvarBroadcast _ _ => true
  | _ => false

/-- There are objects with these ids, and `p` owns the second, a lock. -/
def mayWait (k : Kernel) (p : PcbPtr) (cvar_id lock_id : Int) : Bool :=
  (getCheckSync k cvar_id).isSome &&
    ((getCheckSync k lock_id).bind (·.object.asLock)).any fun lock => lock.owner = some p

/-- Who goes to wait for the condition variable in slot `i`. -/
def cvarWaits (i : Nat) : Kernel × SyncEvent → List PcbPtr
  | (k, .call p (.cvarWait cvar_id lock_id)) =>
    if cvar_id = i ∧ mayWait k p cvar_id lock_id then [p] else []
  | _ => []

/-- Who is woken at the condition variable in slot `i`: by a signal the longest waiting process, and by a
broadcast all. -/
def cvarWakes (i : Nat) : Kernel × SyncEvent → List PcbPtr
  | (k, .call _ (.cvarSignal cvar_id)) =>
    if cvar_id = i then (k.queue (.wait (.cvarWaiters i))).take 1 else []
  | (k, .call _ (.cvarBroadcast cvar_id _)) =>
    if cvar_id = i then k.queue (.wait (.cvarWaiters i)) else []
  | _ => []

/-- The lock in slot `j` is given up: its first waiter owns it and is ready, or it is free. -/
def HandedOn (k k' : Kernel) (j : Nat) : Prop :=
  match k.queue (.wait (.lockWaiters j)) with
  | [] => k'.lock j = some ⟨false, none⟩ ∧ k'.queue .ready = k.queue .ready
  | n :: xs => (k'.lock j).bind (·.owner) = some n ∧ k'.queue (.wait (.lockWaiters j)) = xs ∧
    k'.queue .ready = k.queue .ready ++ [n]

/-- What an event does at the condition variables. -/
structure CvarStep (k : Kernel) (e : SyncEvent) (k' : Kernel) : Prop where
  /-- Who waits joins the end of the line, and who is woken leaves it at the front. -/
  line : ∀ i, k.queue (.wait (.cvarWaiters i)) ++ cvarWaits i (k, e) =
    cvarWakes i (k, e) ++ k'.queue (.wait (.cvarWaiters i))
  /-- Who waits has given up the lock. -/
  release : ∀ p c l, e = .call p (.cvarWait c l) → mayWait k p c l = true → HandedOn k k' l.toNat
  /-- Who is woken goes to the end of the ready queue, and nobody else moves. -/
  ready : ∀ p c, (e = .call p (.cvarSignal c) ∨ ∃ rc, e = .call p (.cvarBroadcast c rc)) →
    k'.queue .ready = k.queue .ready ++ cvarWakes c.toNat (k, e) ∧
    ∀ l, l ≠ .ready → l ≠ .wait (.cvarWaiters c.toNat) → k'.queue l = k.queue l

end Yalnix
