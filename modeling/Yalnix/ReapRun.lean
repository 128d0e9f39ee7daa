import Yalnix.FamilyRun

/-!
# What a parent is told of its children

The account of a process: which children it has made, which of them have exited, and what `SysWait` has
returned to it. It is kept from outside, by what the steps of a run show.
-/

namespace Yalnix

open Intrusive Transition

variable (hw : Hardware)

/-- A return of `SysWait`: the pid, where the status is to be stored, and what was stored. -/
structure WaitReturn where
  pid : Int
  status_ptr : Int
  stores : List UserStore

/-- The account of a process since it was made: the pids of its children, pid and status of those that
have exited, and the successful returns of `SysWait`. -/
structure Account where
  births : List Int
  exits : List (Int × Int)
  returns : List WaitReturn

namespace Account

def new : Account := ⟨[], [], []⟩

/-- The process is back from `SysWait` in the state `k'`. -/
def addReturn (a : Account) (k k' : Kernel) (status_ptr : Int) : Account :=
  { a with returns := a.returns ++
    [⟨k'.uctxt.regs 0, status_ptr, k'.userStores.drop k.userStores.length⟩] }

/-- What the step from `k` to `k'` adds to the account of `p`. -/
def update (p : PcbPtr) (k k' : Kernel) (e : TrapEvent) (a : Account) : Account :=
  match e with
  | .kernel _ (.fork child) =>
    if k'.allocated child = k.allocated child then a
    else if child = p then new
    else if k.current_process = p then { a with births := a.births ++ [(k'.pcb child).pid] }
    else a
  | .kernel u .exit =>
    if (k.pcb k.current_process).parent = some p then
      { a with exits := a.exits ++ [((k.pcb k.current_process).pid, u.regs 0)] }
    else a
  | .kernel u (.wait _) =>
    if k.current_process = p ∧ k'.mode = .user ∧ k'.uctxt.regs 0 ≠ ERROR then a.addReturn k k' (u.regs 0)
    else a
  | .resume =>
    match (k.pcb k.current_process).kernel_context with
    | .schedule (.sysWait status_ptr _) =>
      if k.current_process = p then a.addReturn k k' status_ptr else a
    | _ => a
  | _ => a

end Account

/-- The account of `p` after the trace `t`. -/
def account (p : PcbPtr) (t : List (Kernel × TrapEvent)) : Account :=
  t.foldl (fun a x => match (trapMachine hw).step x.1 x.2 with
    | some k' => a.update p x.1 k' x.2
    | none => a) .new

/-- The return tells of a child with this pid and status. -/
def WaitReturn.Tells (p : PcbPtr) (r : WaitReturn) (x : Int × Int) : Prop :=
  r.pid = x.1 ∧ (r.status_ptr ≠ 0 → r.stores = [.word p r.status_ptr x.2])

namespace Kernel

/-- The process is there and has not exited. -/
def Lives (k : Kernel) (p : PcbPtr) : Prop := k.allocated p = true ∧ (k.pcb p).state ≠ .processZombie

/-- Pid and status. -/
def receipt (k : Kernel) (c : PcbPtr) : Int × Int := ((k.pcb c).pid, (k.pcb c).exit_code)

/-- The terminated children that `SysWait` can find. -/
def unreaped (k : Kernel) (p : PcbPtr) : List (Int × Int) :=
  ((k.children p).filter fun c => k.allocated c ∧ (k.pcb c).state = .processZombie).map k.receipt

/-- What a suspended `SysWait` of `p` has been given, and not yet returned. -/
def handed (k : Kernel) (p : PcbPtr) : List (Int × Int) :=
  match (k.pcb p).kernel_context with
  | .schedule (.sysWait _ kstatus_ptr) =>
    if p ∈ k.queue .ready ∨ k.mode = .resumed ∧ k.current_process = p then
      [((k.saved p).regs 0, k.kstatus kstatus_ptr)]
    else []
  | _ => []

/-- `p` is blocked in `SysWait`. -/
def BlockedInWait (k : Kernel) (p : PcbPtr) : Prop :=
  k.queues.OnList .blocked p ∧
    ∃ status_ptr kstatus_ptr, (k.pcb p).kernel_context = .schedule (.sysWait status_ptr kstatus_ptr)

end Kernel

/-- What is to be said of a run with the trace `t` that has led to `k`. -/
structure ReapedOnce (t : List (Kernel × TrapEvent)) (k : Kernel) : Prop where
  /-- Every exit of a child is told by one return of `SysWait`, or still to be told. -/
  once : ∀ p, k.Lives p → ∃ told, List.Forall₂ (WaitReturn.Tells p) (account hw p t).returns told ∧
    (account hw p t).exits.Perm (told ++ (k.unreaped p ++ k.handed p))
  /-- Whoever is blocked in `SysWait` has no terminated child. -/
  wakes : ∀ p, k.Lives p → k.BlockedInWait p → k.unreaped p = []
  /-- `SysWait` returns `ERROR` when all children have been reaped, and only then. -/
  refuses : ∀ t₁ k₁ u kstatus_ptr t₂ k₂, t = t₁ ++ (k₁, .kernel u (.wait kstatus_ptr)) :: t₂ →
    (trapMachine hw).step k₁ (.kernel u (.wait kstatus_ptr)) = some k₂ →
    (k₂.mode = .user ∧ k₂.uctxt.regs 0 = ERROR ↔
      (account hw k₁.current_process t₁).births.Perm
        ((account hw k₁.current_process t₁).returns.map WaitReturn.pid))
  /-- An exit writes to no saved context but that of a parent blocked in `SysWait`. -/
  outside : ∀ k₁ u k₂ p, (k₁, .kernel u .exit) ∈ t →
    (trapMachine hw).step k₁ (.kernel u .exit) = some k₂ → k₂.saved p ≠ k₁.saved p →
    k₁.BlockedInWait p ∧ (k₁.pcb k₁.current_process).parent = some p

/-- The orderly steps in which `SysWait` is called by a process without children or with one that has not
been freed, and gets a cell for the status. -/
def WaitsWell (k : Kernel) (e : TrapEvent) : Prop :=
  Orderly k e ∧ ∀ u kstatus_ptr, e = .kernel u (.wait kstatus_ptr) → kstatus_ptr ≠ 0 ∧
    (k.children k.current_process = [] ∨ ∃ c ∈ k.children k.current_process, k.allocated c = true)

/-- A state in which nobody has children or has waited for one. -/
structure ReapStart (k : Kernel) : Prop where
  family : FamilyStart k
  childless : ∀ p, k.children p = []
  noneBlocked : k.queue .blocked = []
  noWait : ∀ p status_ptr kstatus_ptr,
    (k.pcb p).kernel_context ≠ .schedule (.sysWait status_ptr kstatus_ptr)

/-- `WaitsWell`, as far as states say it. -/
def waitsWell (k : Kernel) : TrapEvent → Bool
  | .kernel _ (.fork _) => false
  | .kernel _ .exit => match (k.pcb k.current_process).parent with
    | some parent => (k.pcb parent).waiting_for_children = 0 ∨ (k.pcb parent).state = .processBlocked
    | none => true
  | .kernel _ (.wait kstatus_ptr) => kstatus_ptr ≠ 0 ∧
    (k.children k.current_process).any fun c => k.allocated c
  | _ => true

end Yalnix
