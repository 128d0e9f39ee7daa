import Yalnix.ReapRun

/-!
# Who comes first

One child that exits, and one parent that waits for it, from one state on and in both orders.
-/

namespace Yalnix

open Intrusive Transition

variable (hw : Hardware)

/-- No process makes a call, except to give up the processor. -/
def Silent : TrapEvent → Prop
  | .kernel _ .delay => True
  | .kernel _ _ => False
  | _ => True

/-- The process `c` exits with `status`. -/
def ExitCall (c : PcbPtr) (status : Int) (x : Kernel × TrapEvent) : Prop :=
  x.1.current_process = c ∧ ∃ u, x.2 = .kernel u .exit ∧ u.regs 0 = status

/-- The process `p` calls `SysWait` with `status_ptr`. -/
def WaitCall (p : PcbPtr) (status_ptr : Int) (x : Kernel × TrapEvent) : Prop :=
  x.1.current_process = p ∧
    ∃ u kstatus_ptr, x.2 = .kernel u (.wait kstatus_ptr) ∧ u.regs 0 = status_ptr ∧ kstatus_ptr ≠ 0

/-- The events `es` can happen from `k₀` on, and the only other calls among them are `x` and
then `y`. -/
structure CallsInOrder (k₀ : Kernel) (es : List TrapEvent) (x y : Kernel × TrapEvent) : Prop where
  enabled : ∀ z ∈ (trapMachine hw).trace k₀ es, (trapMachine hw).enabled z.1 z.2
  split : ∃ t₁ t₂ t₃, (trapMachine hw).trace k₀ es = t₁ ++ x :: (t₂ ++ y :: t₃) ∧
    ∀ z ∈ t₁ ++ t₂ ++ t₃, Silent z.2

/-- The child `c` exits before its parent `p` calls `SysWait`. -/
def ExitFirst (k₀ : Kernel) (p c : PcbPtr) (status status_ptr : Int) (es : List TrapEvent) : Prop :=
  ∃ x y, CallsInOrder hw k₀ es x y ∧ ExitCall c status x ∧ WaitCall p status_ptr y

/-- The parent `p` is blocked in `SysWait` when its child `c` exits. -/
def WaitFirst (k₀ : Kernel) (p c : PcbPtr) (status status_ptr : Int) (es : List TrapEvent) : Prop :=
  ∃ x y, CallsInOrder hw k₀ es x y ∧ WaitCall p status_ptr x ∧ ExitCall c status y ∧ y.1.BlockedInWait p

/-- The process that a store goes to. -/
def UserStore.target : UserStore → PcbPtr
  | word p _ _ => p
  | bytes p _ _ => p

namespace Kernel

/-- The stores into the memory of `p` since `k₀`. -/
def storesTo (k₀ k : Kernel) (p : PcbPtr) : List UserStore :=
  (k.userStores.drop k₀.userStores.length).filter fun s => s.target = p

/-- The PCB is freed and linked nowhere. -/
def Gone (k : Kernel) (c : PcbPtr) : Prop :=
  k.allocated c = false ∧ k.OffQueues c ∧ ∀ p, ¬ k.family.OnList p c

end Kernel

/-- Of the parent `p` that has waited for `c` there is the same to be seen in `k` and in `k'`. -/
structure SameReaping (k₀ k k' : Kernel) (p c : PcbPtr) (status_ptr : Int) : Prop where
  back : k.mode = .user ∧ k.current_process = p ∧ k'.mode = .user ∧ k'.current_process = p
  result : k.uctxt.regs 0 = k'.uctxt.regs 0
  status : status_ptr ≠ 0 →
    ∃ v, k₀.storesTo k p = [.word p status_ptr v] ∧ k₀.storesTo k' p = [.word p status_ptr v]
  null : status_ptr = 0 → k₀.storesTo k p = [] ∧ k₀.storesTo k' p = []
  children : k.children p = k'.children p
  flag : (k.pcb p).waiting_for_children = (k'.pcb p).waiting_for_children
  gone : k.Gone c ∧ k'.Gone c

/-- The events `es` and `es'` both come to an end, and it is the same for the parent `p`. -/
def SameEnd (k₀ : Kernel) (p c : PcbPtr) (status_ptr : Int) (es es' : List TrapEvent) : Prop :=
  ∃ k k', (trapMachine hw).exec k₀ es = some k ∧ (trapMachine hw).exec k₀ es' = some k' ∧
    SameReaping k₀ k k' p c status_ptr

end Yalnix
