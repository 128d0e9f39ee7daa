import Yalnix.LifeRun
import Yalnix.Timers

/-!
# Runs of delays

Traps that call `SysDelay`, clock interrupts, and the switches between processes. What the delay queue is
for: `Timers`.
-/

namespace Yalnix

open Intrusive Transition

/-- Nothing but what the process `p` itself was doing goes on when it resumes: no process is moved. -/
def KernelContext.Plain (p : PcbPtr) : KernelContext → Prop
  | .sysFork child_pcb _ => child_pcb = p
  | .schedule (.sysCvarWait _) => False
  | _ => True

def DelayEvent : TrapEvent → Prop
  | .kernel _ .delay => True
  | .kernel _ _ => False
  | _ => True

def TrapEvent.isClock : TrapEvent → Bool
  | .clock _ => true
  | _ => false

/-- How often the clock has interrupted. -/
def clockTicks (t : List (Kernel × TrapEvent)) : Nat := t.countP (·.2.isClock)

/-- The process `p` calls `SysDelay(n)`. -/
def Delays (p : PcbPtr) (n : Int) (x : Kernel × TrapEvent) : Prop :=
  x.1.current_process = p ∧ ∃ u, x.2 = .kernel u .delay ∧ u.regs 0 = n

/-- A state in user mode with any processes; nobody is suspended in `SysCvarWait`. -/
structure DelayStart (k : Kernel) : Prop where
  coherent : Coherent k k.queue
  mode : k.mode = .user
  current : k.OffQueues k.current_process
  plain : ∀ p, (k.pcb p).kernel_context.Plain p

/-- What is to be said of a run with the trace `t` that has led to `k`. -/
structure DelayExact (t : List (Kernel × TrapEvent)) (k : Kernel) : Prop where
  /-- As long as the ticks are fewer than asked for, the process is delayed by the rest of them. -/
  waits : ∀ t₁ x t₂ p n, t = t₁ ++ x :: t₂ → Delays p n x → clockTicks t₂ < n →
    k.queues.OnList .delay p ∧ (k.pcb p).delay_ticks = n - clockTicks t₂
  /-- The last of the ticks makes it ready, with `0` as the result of its call. -/
  wakes : ∀ t₁ x t₂ k' u p n, t = t₁ ++ x :: t₂ ++ [(k', .clock u)] → Delays p n x →
    clockTicks t₂ + 1 = n →
    k'.queues.OnList .delay p ∧ k.queues.OnList .ready p ∧ (k.saved p).regs 0 = 0
  /-- After that no tick finds it delayed, unless it asks again. -/
  once : ∀ t₁ x t₂ p n, t = t₁ ++ x :: t₂ → Delays p n x → 1 ≤ n → n ≤ clockTicks t₂ →
    (∀ y ∈ t₂, ∀ m, Delays p m y → m ≤ 0) → ¬ k.queues.OnList .delay p
  /-- Delays that end with the same tick make ready in the order of the calls. -/
  order : ∀ t₁ x t₂ y t₃ k' u p n q m, t = t₁ ++ x :: t₂ ++ y :: t₃ ++ [(k', .clock u)] →
    Delays p n x → Delays q m y → n = clockTicks t₂ + m → clockTicks t₃ + 1 = m →
    ∃ xs, k.queue .ready = k'.queue .ready ++ xs ∧ [p, q].Sublist xs
  /-- A step changes a delayed process other than its caller by one tick at most. -/
  others : ∀ t₁ k' e p, t = t₁ ++ [(k', e)] → k'.queues.OnList .delay p → p ≠ k'.current_process →
    k.pcb p = if e.isClock then { k'.pcb p with
        delay_ticks := (k'.pcb p).delay_ticks - 1
        state := if (k'.pcb p).delay_ticks = 1 then .processReady else .processDelayed }
      else k'.pcb p

/-! ## The timers of a kernel -/

/-- The delay queue, as timers. -/
def timersOf (k : Kernel) (s : QueueId → List PcbPtr) : List (PcbPtr × Int) :=
  (s .delay).map fun p => (p, (k.pcb p).delay_ticks)

/-- What a step does to the timers. -/
def timerEvent : Kernel × TrapEvent → Option (Timers.Event PcbPtr)
  | (k, .kernel u .delay) => if 0 < u.regs 0 then some (.set k.current_process (u.regs 0)) else none
  | (_, .clock _) => some .tick
  | _ => none

end Yalnix
