import Yalnix.Proofs.Identity
import Yalnix.Proofs.Orphans

/-!
# Finding a process by its pid

`list_contains_pid` on the lists of processes that are there.
-/

namespace Yalnix

open Intrusive Transition

variable {hw : Hardware} {b : Boot hw} {k k₀ : Kernel} {s : QueueId → List PcbPtr} {l : QueueId}
  {t : List (Kernel × TrapEvent)}

theorem distinctRun (h₀ : kernelStart b = some k₀) (hrun : Run (trapMachine hw) (KeepsGoing hw) k₀ t k) :
    DistinctPids hw k := by
  refine hrun.invariant (kernelStart_distinct h₀) ?_
  intro k e k' hk hen _ hstep
  exact hk.trapStep hen hstep

theorem containsPidLoop_eq {pid : Int} {xs : List PcbPtr} {a : Ref QueueId PcbPtr}
    (hl : k.queues.Linked a xs (.head l)) :
    containsPidLoop k l pid xs.length (k.queues.next a) = some (xs.find? fun p => pid = (k.pcb p).pid) := by
  induction xs generalizing a with
  | nil =>
    rw [hl.1, List.length_nil, containsPidLoop]
    simp
  | cons p xs ih =>
    rw [hl.1, List.length_cons, containsPidLoop, List.find?_cons]
    by_cases hp : pid = (k.pcb p).pid
    · simp [hp]
    · simp only [hp, decide_false]
      exact ih hl.2.2

/-- `list_contains_pid` finds the first process with the pid. -/
theorem Coherent.listContainsPid (hc : Coherent k s) (pid : Int) :
    Yalnix.listContainsPid k l pid = some ((s l).find? fun p => pid = (k.pcb p).pid) := by
  have hl := hc.rep.linked l (Set.mem_univ l)
  unfold Yalnix.listContainsPid
  cases hs : s l with
  | nil => rw [if_pos ((hc.rep.listIsEmpty_iff (Set.mem_univ l)).2 hs), List.find?_nil]
  | cons p xs =>
    have hne : ¬ k.queues.listIsEmpty l = true := by
      rw [hc.rep.listIsEmpty_iff (Set.mem_univ l), hs]
      simp
    rw [if_neg hne, hc.count, Int.toNat_natCast, containsPidLoop_eq hl, hs]

/-- In every run from boot in which no call has to wait, `list_contains_pid` finds the process that has the pid
and is on the list, and nobody if there is none; but on the zombie queue, where freed PCBs stay. -/
theorem lookup_exact (h₀ : kernelStart b = some k₀) (hrun : Run (trapMachine hw) (KeepsGoing hw) k₀ t k)
    (hl : l ≠ .zombie) (pid : Int) : ∃ r, listContainsPid k l pid = some r ∧
      ∀ p, r = some p ↔ p ∈ k.queue l ∧ (k.pcb p).pid = pid := by
  obtain ⟨hsturdy, -⟩ := acknowledgedRun h₀ hrun
  have hpids := distinctRun h₀ hrun
  have hlisted := hsturdy.kindred_children.listed l hl
  refine ⟨_, hsturdy.calm.steady.coherent.listContainsPid pid, fun p => ⟨fun hfind => ?_, ?_⟩⟩
  · have hpid := List.find?_some hfind
    exact ⟨List.mem_of_find?_eq_some hfind, (of_decide_eq_true hpid).symm⟩
  · rintro ⟨hp, hpid⟩
    cases hfind : (k.queue l).find? (fun p => pid = (k.pcb p).pid) with
    | none =>
      have hno := List.find?_eq_none.1 hfind p hp
      exact absurd hpid.symm (by simpa using hno)
    | some q =>
      have hq := List.find?_some hfind
      have hsame : (k.pcb q).pid = (k.pcb p).pid := (of_decide_eq_true hq).symm.trans hpid.symm
      rw [hpids.distinct p q (hlisted p hp) (hlisted q (List.mem_of_find?_eq_some hfind)) hsame]

/-- The init process forks once more. -/
def siblingKernel : Kernel :=
  ((trapMachine .small).step forkedKernel (.kernel Boot.small.uctxt (.fork 103))).get (by decide +kernel)

theorem siblingKernel_goes : ∃ t, Run (trapMachine .small) (KeepsGoing .small) Boot.smallKernel t
    siblingKernel := by
  have hdispatch : ∀ k, ∀ e ∈ dispatchEvents, FamilyEvent e ∧ FreesNobody k e := by
    simp [dispatchEvents, FamilyEvent, FreesNobody]
  have hforked : Run (trapMachine .small) (fun k e => FamilyEvent e ∧ FreesNobody k e) Boot.smallKernel
      (_ ++ [(initKernel, .kernel Boot.small.uctxt (.fork 102))]) forkedKernel :=
    (initKernel_run hdispatch).snoc (by decide +kernel) ⟨trivial, trivial⟩ (Option.some_get _).symm
  obtain ⟨s, f, hwhole⟩ := wholeRun Boot.smallKernel_booted.familyStart hforked
  have hen : (trapMachine .small).enabled forkedKernel (.kernel Boot.small.uctxt (.fork 103)) := by
    decide +kernel
  have hne : (103 : PcbPtr) ≠ forkedKernel.current_process := by
    decide +kernel
  have hfree : Orderly forkedKernel (.kernel Boot.small.uctxt (.fork 103)) := hwhole.orderly hen trivial
  exact ⟨_, (forkedKernel_goes.mono fun _ _ h => h.1).snoc hen ⟨⟨hfree.1, hne⟩, hfree⟩
    (Option.some_get _).symm⟩

/-- Both children of the init process are ready, and the second has the fourth pid. -/
theorem lookup_exact_small : siblingKernel.queue .ready = [102, 103] ∧
    listContainsPid siblingKernel .ready (Hardware.small.newPid 3) = some (some 103) := by
  obtain ⟨t, hrun⟩ := siblingKernel_goes
  obtain ⟨r, hfind, hiff⟩ := lookup_exact (Option.some_get _).symm hrun (l := .ready) (by simp)
    (Hardware.small.newPid 3)
  rw [hfind, (hiff 103).2 ⟨by decide +kernel, by decide +kernel⟩]
  exact ⟨by decide +kernel, rfl⟩

end Yalnix
