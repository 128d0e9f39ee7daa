import Yalnix.Contracts
import Yalnix.Proofs.Lock

/-!
# SysCvarWait

The handler reads both ids from `regs[0]`. One object is not a condition variable and a lock at once, so
the call never gets as far as the wait list.
-/

namespace Yalnix

open Intrusive Transition

variable {hw : Hardware} {k k' : Kernel}

/-- A call of `SysCvarWait` that returns at all returns `ERROR`, and nobody waits. -/
theorem sysCvarWait_error (h : sysCvarWait k = some k') : k' = k.returnValue ERROR := by
  unfold sysCvarWait at h
  simp only [Option.bind_eq_bind, Option.bind_eq_some_iff, Prod.exists] at h
  obtain ⟨rc, k₁, hsync, h⟩ := h
  suffices hrc : rc = ERROR ∧ k₁ = k by
    obtain ⟨rfl, rfl⟩ := hrc
    rw [if_pos rfl] at h
    exact (Option.some.inj h).symm
  unfold syncCvarWait at hsync
  cases hcheck : getCheckSync k (k.uctxt.regs 0) with
  | none =>
    simp only [hcheck] at hsync
    obtain ⟨rfl, rfl⟩ := Prod.mk.inj (Option.some.inj hsync)
    exact ⟨rfl, rfl⟩
  | some sync =>
    simp only [hcheck, Option.bind_eq_bind, Option.bind_eq_some_iff] at hsync
    obtain ⟨lock, hlock, hsync⟩ := hsync
    split at hsync
    · simp only [Option.bind_eq_some_iff, Option.pure_def, Option.some.injEq] at hsync
      obtain ⟨owner, -, hsync⟩ := hsync
      obtain ⟨rfl, rfl⟩ := Prod.mk.inj hsync
      exact ⟨rfl, rfl⟩
    · simp only [Option.bind_eq_some_iff] at hsync
      obtain ⟨k₂, -, u, hcvar, -⟩ := hsync
      -- the object is a lock, and cannot be read as a condition variable
      cases ho : sync.object <;> simp [ho, SyncObject.asLock, SyncObject.asCvar] at hlock hcvar

/-- With the id of a condition variable in `regs[0]`, `SysCvarWait` is a monitor's wait for no lock. -/
theorem monitor_wait_never {c : Nat} (hc : k.cvar c = some ()) (hcm : c < MAX_SYNCS)
    (h0 : k.uctxt.regs 0 = c) (l : Nat) : ¬ MonitorWait hw k c l := by
  intro h
  obtain ⟨k', hrun, -, -⟩ := h.waits
  obtain ⟨o, ho, hcvar⟩ := Option.bind_eq_some_iff.1 hc
  have hcheck : getCheckSync k (k.uctxt.regs 0) = some o := by
    unfold getCheckSync
    rw [h0, if_neg (by omega), Int.toNat_natCast, ho]
  unfold sysCvarWait syncCvarWait at hrun
  cases hobj : o.object <;> simp [hobj, SyncObject.asCvar] at hcvar
  simp [hcheck, hobj, SyncObject.asLock] at hrun

/-- The init process of the small machine owns lock `0`, and there is a condition variable `1`. -/
def monitorEvents : List TrapEvent :=
  let u : UserContext := ⟨0, 0, 0, 0, 0, 0, fun _ => 0⟩
  [.clock u, .clock u, .schedule, .resume, .kernel (u.setReg0 140) (.lockInit true), .kernel u .lockAcquire,
    .kernel (u.setReg0 140) (.cvarInit true)]

/-- The state in which it is about to wait for it. -/
def monitorKernel : Kernel :=
  { ((trapMachine .small).exec Boot.smallKernel monitorEvents).get (by decide +kernel) with
    uctxt := ⟨0, 0, 0, 0, 0, 0, fun i => if i = 0 then 1 else 0⟩ }

theorem monitor_wait_never_small : ¬ MonitorWait .small monitorKernel 1 0 :=
  monitor_wait_never (by decide +kernel) (by decide) (by decide +kernel) 0

/-- The init process owns lock `0` and waits for the condition variable `1`. -/
theorem monitor_wait_fails : monitorKernel.Owns 101 0 ∧ monitorKernel.current_process = 101 ∧
    monitorKernel.uctxt.regs 0 = 1 ∧ monitorKernel.uctxt.regs 1 = 0 ∧
    ¬ MonitorWait .small monitorKernel 1 0 := by
  have howner : ((monitorKernel.lock 0).bind (·.owner)) = some 101 := by decide +kernel
  refine ⟨Option.bind_eq_some_iff.1 howner, by decide +kernel, by decide +kernel, by decide +kernel,
    fun h => ?_⟩
  obtain ⟨k', hrun, -, -⟩ := h.waits
  have hnone : (sysCvarWait monitorKernel).isNone := by decide +kernel
  rw [hrun] at hnone
  cases hnone

end Yalnix
