import Yalnix.Contracts
import Yalnix.PipeResult
import Yalnix.ReapRun

/-!
# Who runs, and who is ready

The handlers take the result `PCB_BLOCKED` for that of a call that is done, and go back to a process that
waits. The clock handler takes the processor from a process without putting it on the ready queue. Here
is what holds in the runs in which no call has to wait, and in those in which, besides, no tick takes the
processor from a process.
-/

namespace Yalnix

open Intrusive Transition

variable (hw : Hardware)

/-! ## Who runs -/

/-- The call of `schedule` is made for a pipe, a lock or a condition variable. -/
def ScheduleCaller.onObject : ScheduleCaller → Bool
  | sysPipeRead _ _ _ => true
  | sysPipeWrite _ => true
  | sysLockAcquire => true
  | sysCvarWait _ => true
  | _ => false

/-- A state in user mode with no synchronization object, in which the state of the running process says that
it runs. -/
structure DispatchStart (k : Kernel) : Prop where
  delay : DelayStart k
  call : CallStart k
  running : (k.pcb k.current_process).state = .processRunning
  suspended : ∀ p caller, (k.pcb p).kernel_context = .schedule caller → caller.onObject = false

/-- With the registers `u` a call on a pipe or a lock has nothing to wait for: there are bytes to read,
there is room for all that is written, and the lock is free. -/
def GoesOn (k : Kernel) (u : UserContext) : Syscall → Prop
  | .pipeRead _ => readable k (u.regs 0) = true →
    ∃ pipe ∈ k.pipe (u.regs 0).toNat, pipe.bytes_in_buffer ≠ 0
  | .pipeWrite _ _ => writable k (u.regs 0) = true →
    ∃ pipe ∈ k.pipe (u.regs 0).toNat, u.regs 2 ≤ (hw.PIPE_BUFFER_LEN - pipe.bytes_in_buffer).toNat
  | .lockAcquire => ∀ sync ∈ getCheckSync k (u.regs 0), ∀ lock ∈ sync.object.asLock, lock.locked = false
  | _ => True

/-- The steps in which no call has to wait, and no process is made at an address that is on a list or the
caller's own. -/
def NeverWaits (k : Kernel) : TrapEvent → Prop
  | .kernel _ (.fork child_pcb) => k.OffQueues child_pcb ∧ child_pcb ≠ k.current_process
  | .kernel u c => GoesOn hw k u c
  | _ => True

instance (k : Kernel) (u : UserContext) : (c : Syscall) → Decidable (GoesOn hw k u c)
  | .pipeRead _ => inferInstanceAs (Decidable (readable k (u.regs 0) = true →
    ∃ pipe ∈ k.pipe (u.regs 0).toNat, pipe.bytes_in_buffer ≠ 0))
  | .pipeWrite _ _ => inferInstanceAs (Decidable (writable k (u.regs 0) = true →
    ∃ pipe ∈ k.pipe (u.regs 0).toNat, u.regs 2 ≤ (hw.PIPE_BUFFER_LEN - pipe.bytes_in_buffer).toNat))
  | .lockAcquire => inferInstanceAs (Decidable
    (∀ sync ∈ getCheckSync k (u.regs 0), ∀ lock ∈ sync.object.asLock, lock.locked = false))
  | .fork _ | .exec _ | .exit | .wait _ | .getPid | .brk | .delay | .pipeInit _ _ | .lockInit _
  | .lockRelease | .cvarInit _ | .signal | .broadcast _ | .cvarWait | .unimplemented =>
    inferInstanceAs (Decidable True)

/-- After the steps `t` that follow the call `x`, its caller is back in user mode for the first time. -/
structure Back (x : Kernel × TrapEvent) (t : List (Kernel × TrapEvent)) (k : Kernel) : Prop where
  mode : k.mode = .user
  current : k.current_process = x.1.current_process
  first : ∀ y ∈ t, ¬ (y.1.mode = .user ∧ y.1.current_process = x.1.current_process)

/-- The state in which the trace `t`, which leads to `k`, begins. -/
def firstState (t : List (Kernel × TrapEvent)) (k : Kernel) : Kernel := (t.head?.map Prod.fst).getD k

/-- The process `p` has come back from `SysLockAcquire(i)` without an error, and has not called
`SysLockRelease(i)` since. -/
def PastAcquire (t : List (Kernel × TrapEvent)) (k : Kernel) (p : PcbPtr) (i : Nat) : Prop :=
  ∃ t₁ k₁ u t₂ t₃, t = t₁ ++ (k₁, .kernel u .lockAcquire) :: (t₂ ++ t₃) ∧
    k₁.current_process = p ∧ u.regs 0 = (i : Int) ∧
    Back (k₁, .kernel u .lockAcquire) t₂ (firstState t₃ k) ∧ (firstState t₃ k).uctxt.regs 0 ≠ ERROR ∧
    ∀ y ∈ t₃, y.1.current_process = p → ∀ v, y.2 = .kernel v .lockRelease → v.regs 0 ≠ i

/-- The pipe call `c` that was made in `k` has moved its bytes, when it is back in `k'`: a write all of
them, and a read at least one, if it asked for any, which it has in user memory. -/
def PipeSyscall.Moved (k k' : Kernel) (moved : List UInt8) : PipeSyscall → Prop
  | read _ => (moved.length : Int) ≤ k.uctxt.regs 2 ∧ (0 < k.uctxt.regs 2 → moved ≠ []) ∧
    ∃ data, k'.userStores = k.userStores ++ [.bytes k.current_process (k.uctxt.regs 1) data] ∧
      moved <+: data
  | write _ _ => (moved.length : Int) = k.uctxt.regs 2

/-- The pipe call `c` that was made in `k` is refused or done, when it is back in `k'`. -/
def Transferred (k : Kernel) (c : PipeSyscall) (k' : Kernel) : Prop :=
  ∀ rc k₁, c.sync hw k = some (rc, k₁) → rc = ERROR ∨ ∃ h, k'.pipeHistory = k.pipeHistory ++ h ∧
    c.Moved k k' (movedBytes (k.uctxt.regs 0).toNat k.current_process h)

/-- What is to be said of a run with the trace `t` that has led to `k`. -/
structure NoRunningWaiter (t : List (Kernel × TrapEvent)) (k : Kernel) : Prop where
  /-- Whoever is in user mode is running, and on no list. -/
  free : k.mode = .user →
    (k.pcb k.current_process).state = .processRunning ∧ k.OffQueues k.current_process
  /-- `SysLockAcquire` goes back to the owner of the lock, or with an error. -/
  acquired : ∀ t₁ k₁ u t₂, t = t₁ ++ (k₁, .kernel u .lockAcquire) :: t₂ →
    Back (k₁, .kernel u .lockAcquire) t₂ k →
    k.uctxt.regs 0 = ERROR ∨ ∃ i : Nat, u.regs 0 = i ∧ k.Owns k₁.current_process i
  exclusive : ∀ p q i, PastAcquire t k p i → PastAcquire t k q i → p = q
  /-- `SysPipeRead` and `SysPipeWrite` go back when the bytes are moved, or with an error. -/
  transferred : ∀ t₁ k₁ u c t₂, t = t₁ ++ (k₁, .kernel u (PipeSyscall.syscall c)) :: t₂ →
    Back (k₁, .kernel u c.syscall) t₂ k → Transferred hw { k₁ with uctxt := u } c k

/-! ## Who is ready -/

/-- Whoever is allocated has the processor, is the idle process, or is on a list. -/
def Kernel.EverybodyPlaced (k : Kernel) : Prop :=
  ∀ p, k.allocated p = true → p ≠ k.idle_process → p ≠ k.current_process → ∃ l, k.queues.OnList l p

/-- The tick takes the processor from a process other than the idle one: its time is up, and somebody is
ready or becomes so. -/
def TakesProcessor (k : Kernel) : Prop :=
  k.current_process ≠ k.idle_process ∧
    (k.pcb k.current_process).time_slice ≤ (k.pcb k.current_process).run_time ∧
    (k.queue .ready ≠ [] ∨ ∃ p ∈ k.queue .delay, (k.pcb p).delay_ticks = 1)

instance (k : Kernel) : Decidable (TakesProcessor k) := inferInstanceAs (Decidable (_ ∧ _ ∧ (_ ∨ _)))

/-- No call has to wait, and no tick takes the processor from a process. -/
def LosesNobody (k : Kernel) (e : TrapEvent) : Prop :=
  NeverWaits hw k e ∧ ∀ u, e = .clock u → ¬ TakesProcessor k

def TrapEvent.isSchedule : TrapEvent → Bool
  | .schedule => true
  | _ => false

/-- How often `schedule` was called. -/
def switches (t : List (Kernel × TrapEvent)) : Nat := t.countP (·.2.isSchedule)

/-- What is to be said of a run with the trace `t` that has led to `k`. -/
structure NobodyLost (t : List (Kernel × TrapEvent)) (k : Kernel) : Prop where
  /-- Who neither waits nor has exited has the processor, or is on the ready queue once. -/
  placed : ∀ p, k.Lives p → p ≠ k.idle_process → (k.pcb p).state ≠ .processDelayed →
    (k.pcb p).state ≠ .processBlocked →
    p = k.current_process ∧ p ∉ k.queue .ready ∨
      p ≠ k.current_process ∧ (k.queue .ready).count p = 1
  /-- Who loses the processor to a tick is put on the ready queue. -/
  preempted : ∀ t₁ k₁ u k₂, t = t₁ ++ [(k₁, .clock u), (k₂, .schedule)] →
    k₁.current_process ≠ k₁.idle_process → k.queues.OnList .ready k₁.current_process
  /-- Who is at place `j` of the ready queue gets the processor with the call of `schedule` after `j`
  more. -/
  dispatched : ∀ t₁ t₂ k₂ p, t = t₁ ++ t₂ ++ [(k₂, .schedule)] →
    ((firstState t₂ k₂).queue .ready)[switches t₂]? = some p → k.current_process = p

end Yalnix
