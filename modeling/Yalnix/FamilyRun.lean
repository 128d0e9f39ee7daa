import Yalnix.ForkRun

/-!
# Runs of families

Any process forks, waits for its children and exits; the clock and `SysDelay` take it off the
processor. What the code frees stays where it was linked.
-/

namespace Yalnix

open Intrusive Transition

def FamilyEvent : TrapEvent → Prop
  | .kernel _ (.fork _) => True
  | .kernel _ (.wait _) => True
  | .kernel _ .exit => True
  | .kernel _ .delay => True
  | .kernel _ _ => False
  | _ => True

/-- The steps that keep lists and families whole: an address for a fork is linked nowhere, and when a
process exits whose parent has ever waited for a child, the parent is blocked. -/
def Orderly (k : Kernel) : TrapEvent → Prop
  | .kernel _ (.fork child_pcb) => k.OffQueues child_pcb ∧ ∀ p, ¬ k.family.OnList p child_pcb
  | .kernel _ .exit => ∀ parent, (k.pcb k.current_process).parent = some parent →
    (k.pcb parent).waiting_for_children ≠ 0 → (k.pcb parent).state = .processBlocked
  | _ => True

/-- A state in user mode in which the parent pointers agree with the children lists, and nobody waits for
an object. -/
structure FamilyStart (k : Kernel) : Prop where
  fork : ForkStart k
  noWaiter : ∀ w, k.queue (.wait w) = []
  idle_flag : (k.pcb k.idle_process).waiting_for_children = 0
  kin : ∀ c p, k.allocated c = true → ((k.pcb c).parent = some p ↔ k.family.OnList p c)
  living : ∀ p c, k.family.OnList p c → p ≠ c ∧ (k.pcb p).state ≠ .processZombie

/-! ## Dangling pointers -/

/-- Every PCB that is linked is allocated, and parents and children agree. -/
structure NoDangling (k : Kernel) : Prop where
  current : ∀ caller, k.mode = .atSchedule caller → k.allocated k.current_process = true
  queues : ∀ l p, k.queues.OnList l p → k.allocated p = true
  children : ∀ p c, k.allocated p = true → k.family.OnList p c → k.allocated c = true
  parents : ∀ c p, k.allocated c = true → (k.pcb c).parent = some p → k.allocated p = true
  kin : ∀ p c, k.allocated p = true → k.allocated c = true →
    (k.family.OnList p c ↔ (k.pcb c).parent = some p)

/-- The step frees no PCB: the caller of `SysWait` has no terminated child, and the caller of `SysExit` has
none either, nor a parent that has ever waited for a child. -/
def FreesNobody (k : Kernel) : TrapEvent → Prop
  | .kernel _ (.wait _) => ∀ z, findZombieChild k k.current_process ≠ some (some z)
  | .kernel _ .exit => (∀ z, findZombieChild k k.current_process ≠ some (some z)) ∧
    ∀ parent, (k.pcb k.current_process).parent = some parent →
      (k.pcb parent).waiting_for_children = 0
  | _ => True

instance : (o : Option (Option PcbPtr)) → Decidable (∀ z, o ≠ some (some z))
  | none => isTrue fun _ h => by cases h
  | some none => isTrue fun _ h => by cases h
  | some (some z) => isFalse fun h => h z rfl

instance (P : PcbPtr → Prop) [DecidablePred P] : (o : Option PcbPtr) → Decidable (∀ p, o = some p → P p)
  | none => isTrue fun _ h => by cases h
  | some p => decidable_of_iff (P p) ⟨fun h _ hp => Option.some.inj hp ▸ h, fun h => h p rfl⟩

instance (k : Kernel) : (e : TrapEvent) → Decidable (FreesNobody k e)
  | .kernel _ c => match c with
    | .wait _ => inferInstanceAs (Decidable (∀ z, findZombieChild k k.current_process ≠ some (some z)))
    | .exit => inferInstanceAs (Decidable ((∀ z, findZombieChild k k.current_process ≠ some (some z)) ∧
        ∀ parent, (k.pcb k.current_process).parent = some parent →
          (k.pcb parent).waiting_for_children = 0))
    | .fork _ | .exec _ | .getPid | .brk | .delay | .pipeInit _ _ | .pipeRead _ | .pipeWrite _ _
    | .lockInit _ | .lockAcquire | .lockRelease | .cvarInit _ | .signal | .broadcast _ | .cvarWait
    | .unimplemented => inferInstanceAs (Decidable True)
  | .clock _ | .schedule | .resume => inferInstanceAs (Decidable True)

end Yalnix
