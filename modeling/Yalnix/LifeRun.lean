import Yalnix.CallRun
import Yalnix.LockRun

/-!
# What runs of calls do to queues, owners and saved contexts

Three records of a run: the calls of `remove_from_{}_queue`, each with the state in which it is made;
who has exited; and what steps did to the saved context of a process that waits.
-/

namespace Yalnix

open Intrusive Transition

variable (hw : Hardware)

/-! ## Removals -/

/-- The call `remove_from_{queue}_queue(process)` in the state `state`. -/
structure Removal where
  queue : QueueId
  state : Kernel
  process : PcbPtr

/-- If the process passes the check of its state, it is on the queue. -/
def Removal.Finds (r : Removal) : Prop :=
  (r.state.pcb r.process).state = r.queue.state → r.state.queues.OnList r.queue r.process

/-- The removals of `updateDelayedLoop`. -/
def delayRemovals : Nat → Option (Ref QueueId PcbPtr) → Kernel → List Removal
  | n + 1, some (.node p), k =>
    let next := k.queues.next (.node p)
    let k := k.modifyPcb p fun pcb => { pcb with delay_ticks := pcb.delay_ticks - 1 }
    if (k.pcb p).delay_ticks = 0 then
      ⟨.delay, k, p⟩ :: match addToReadyQueue (removeFromDelayQueue k p) p with
        | some k => delayRemovals n next k
        | none => []
    else delayRemovals n next k
  | _, _, _ => []

/-- The removals of `updateDelayedProcesses`. -/
def updateRemovals (k : Kernel) : List Removal :=
  if k.queues.listIsEmpty .delay then []
  else delayRemovals (k.count .delay).toNat (k.queues.next (.head .delay)) k

/-- The removals of `sysWait`. -/
def waitRemovals (k : Kernel) : List Removal :=
  if k.family.listIsEmpty k.current_process then []
  else match findZombieChild k k.current_process with
    | some (some z) => [⟨.zombie, k, z⟩]
    | _ => []

/-- The removals of `leaveQueue`. -/
def leaveRemovals (k : Kernel) (process : PcbPtr) : List Removal :=
  match (k.pcb process).state with
  | .processReady => [⟨.ready, k, process⟩]
  | .processDelayed => [⟨.delay, k, process⟩]
  | .processBlocked => [⟨.blocked, k, process⟩]
  | _ => []

/-- The removals of `terminateProcess`: the process from its own queue, and its parent from the blocked
queue. -/
def terminateRemovals (k : Kernel) (process : PcbPtr) (status : Int) : List Removal :=
  match releaseProcess hw k process status with
  | none => []
  | some k =>
    leaveRemovals k process ++
      let k := leaveQueue k process
      match (k.pcb process).parent with
      | some parent => if (k.pcb parent).waiting_for_children ≠ 0 then [⟨.blocked, k, parent⟩] else []
      | none => []

/-- The removals of a step. -/
def removals (k : Kernel) : CallEvent → List Removal
  | .handler p u (.wait _) => waitRemovals { k with current_process := p, uctxt := u }
  | .handler p u .exit =>
    terminateRemovals hw { k with current_process := p, uctxt := u } p (u.regs 0)
  | .clock u => updateRemovals { k with uctxt := u }
  | _ => []

/-- No object is reclaimed. -/
def CallEvent.Keeps : CallEvent → Prop
  | .reclaim _ => False
  | _ => True

/-! ## Owners -/

/-- The calls on locks and condition variables, the handlers that give up the processor, the clock and
`schedule`. -/
def LockLife : CallEvent → Prop
  | .sync p c => LockEvent (.call p c)
  | .handler _ _ .exit => True
  | .handler _ _ .delay => True
  | .clock _ => True
  | .schedule _ => True
  | _ => False

/-- A process that exits owns no lock. -/
def ExitsFree (k : Kernel) : CallEvent → Prop
  | .handler p _ .exit => ∀ i lock, k.lock i = some lock → lock.owner ≠ some p
  | _ => True

/-- The process has called `SysExit`. -/
def Terminated (t : List (Kernel × CallEvent)) (p : PcbPtr) : Prop :=
  ∃ x ∈ t, ∃ u, x.2 = .handler p u .exit

/-- A state in which nobody has waited for a child. -/
structure LifeStart (k : Kernel) : Prop where
  call : CallStart k
  waiting : ∀ p, (k.pcb p).waiting_for_children = 0

/-! ## Saved contexts -/

/-- The saved user context of `p`. -/
def Kernel.saved (k : Kernel) (p : PcbPtr) : UserContext := (k.pcb p).user_context

/-- The process waits on some list, and is not the one whose context `schedule` saves in this step. -/
def Waits (p : PcbPtr) (x : Kernel × CallEvent) : Prop :=
  (∃ l, x.1.queues.OnList l p) ∧ ∀ caller, x.2 = .schedule caller → x.1.current_process ≠ p

/-- The step completes the call in which `p` is blocked: it is a call on the pipe that `p` waits for, or
the exit of a child while `p` is blocked in `SysWait`. -/
inductive Completes (p : PcbPtr) (k : Kernel) : CallEvent → Prop where
  | pipe {q : PcbPtr} {c : SyncCall} {w : WaitList} (hw : w.type = .pipe) (hc : c.Touches w)
      (hp : k.queues.OnList (.wait w) p) : Completes p k (.sync q c)
  | child {q : PcbPtr} {u : UserContext} (hq : (k.pcb q).parent = some p)
      (hp : k.queues.OnList .blocked p) : Completes p k (.handler q u .exit)

/-- When a process exits whose parent has asked for a child, the parent is blocked for a child. -/
def ExitWakes (k : Kernel) : CallEvent → Prop
  | .handler p _ .exit => ∀ parent, (k.pcb p).parent = some parent →
    (k.pcb parent).waiting_for_children ≠ 0 → k.queues.OnList .blocked parent
  | _ => True

/-- The steps that write to no context but the caller's and that of the process they complete a call
of. -/
def KeepsContexts (k : Kernel) (e : CallEvent) : Prop := KeepsQueues k e ∧ e.Keeps ∧ ExitWakes k e

/-- What has become of the saved context of `p` in the steps `t` from `k` to `k'`: nothing, or one step
has completed the call that `p` was blocked in, written `regs[0]`, and made `p` ready. -/
inductive ContextKept (p : PcbPtr) (k : Kernel) (t : List (Kernel × CallEvent)) (k' : Kernel) :
    Prop where
  | kept (hsteps : ∀ x ∈ t, x.1.saved p = k.saved p) (hlast : k'.saved p = k.saved p)
  | completed {t₁ t₂ : List (Kernel × CallEvent)} {x : Kernel × CallEvent} (v : Int)
      (ht : t = t₁ ++ x :: t₂) (hcompletes : Completes p x.1 x.2)
      (hbefore : ∀ y ∈ t₁ ++ [x], y.1.saved p = k.saved p)
      (hafter : ∀ y ∈ t₂, y.1.saved p = (k.saved p).setReg0 v ∧ y.1.queues.OnList .ready p)
      (hlast : k'.saved p = (k.saved p).setReg0 v ∧ ∀ l, k'.queues.OnList l p → l = .ready)

end Yalnix
