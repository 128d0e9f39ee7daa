import Yalnix.Proofs.Handlers

/-!
# What `SysFork` does

The child is a copy of its parent, last among its parent's children and last on the ready queue.
-/

namespace Yalnix

open Intrusive

variable {hw : Hardware} {k k' : Kernel} {s : QueueId → List PcbPtr} {child : PcbPtr}

/-- The state after a fork. -/
def forked (hw : Hardware) (k : Kernel) (child : PcbPtr) (m : Memory) (pt stack : Nat → Pte)
    (family : Heap PcbPtr PcbPtr) (q : Heap QueueId PcbPtr) : Kernel :=
  let new := createPcb hw k child
  { new with
    pcb := Function.update k.pcb child { new.pcb child with
      parent := some k.current_process
      should_fork := false
      user_context := k.uctxt
      region1_pt := pt
      kernel_stack := stack
      kernel_context := .sysFork child k.uctxt
      state := .processReady }
    queues := q
    family := family
    mem := m
    uctxt := k.uctxt.setReg0 (hw.newPid k.pidCalls) }

/-- The memory of a fork. -/
structure ForkMemory (hw : Hardware) (k : Kernel) (m : Memory) (pt stack : Nat → Pte) : Prop where
  run : ∃ m₁ m₂ stack₀,
    copyPageTable hw k.mem (k.pcb k.current_process).region1_pt (fun _ => .zero) = (m₁, pt) ∧
    initializeKernelStack hw m₁ = some (m₂, stack₀) ∧ copyKernelStack hw m₂ stack₀ = (m, stack)

/-- What `SysFork` can do. -/
inductive ForkCase (hw : Hardware) (k : Kernel) (s : QueueId → List PcbPtr) (child : PcbPtr)
    (k' : Kernel) : Prop where
  | child (hflag : (k.pcb k.current_process).should_fork = false)
      (heq : k' = (k.modifyPcb k.current_process fun pcb =>
        { pcb with should_fork := true }).returnValue 0)
  | parent {m : Memory} {pt stack : Nat → Pte} {family : Heap PcbPtr PcbPtr}
      {q : Heap QueueId PcbPtr} (hflag : (k.pcb k.current_process).should_fork = true)
      (hmem : ForkMemory hw k m pt stack)
      (hins : (k.family.listInit child).insertTail k.current_process child = some family)
      (heq : k' = forked hw k child m pt stack family q)
      (hc : Coherent k' (Function.update s .ready (s .ready ++ [child])))

theorem sysFork_cases (hc : Coherent k s) (hfree : ∀ l, child ∉ s l) (hne : child ≠ k.current_process)
    (hidle : child ≠ k.idle_process) (h : sysFork hw k child = some k') :
    ForkCase hw k s child k' := by
  unfold sysFork at h
  simp only at h
  split at h
  · rename_i hflag
    simp only [Option.bind_eq_bind, Option.bind_eq_some_iff] at h
    obtain ⟨k₁, hadd, k₂, hmem, hret⟩ := h
    -- the children list
    unfold addChild at hadd
    simp only [Option.map_eq_some_iff] at hadd
    obtain ⟨family, hins, rfl⟩ := hadd
    -- the memory
    unfold forkMemory at hmem
    simp only [Option.bind_eq_bind, Option.bind_eq_some_iff, Option.pure_def, Option.some.injEq,
      Prod.exists] at hmem
    generalize hcopy : copyPageTable hw _ _ _ = r at hmem
    obtain ⟨m₁, pt⟩ := r
    obtain ⟨m₂, stack₀, hstack, rfl⟩ := hmem
    generalize hkc : copyKernelStack hw m₂ stack₀ = r at hret
    obtain ⟨m, stack⟩ := r
    have hmem : ForkMemory hw k m pt stack := by
      refine ⟨m₁, m₂, stack₀, ?_, hstack, hkc⟩
      rw [← hcopy]
      simp [Kernel.modifyPcb, createPcb, hne.symm]
    -- the ready queue
    unfold forkReturn at hret
    simp only [Option.bind_eq_bind, Option.bind_eq_some_iff, Option.pure_def,
      Option.some.injEq] at hret
    obtain ⟨k₃, hready, rfl⟩ := hret
    generalize hK : Kernel.modifyPcb _ child _ = K at hready
    have htr : InTransit K s child := (hc.transit hfree).congr (by rw [← hK]; rfl)
      (by rw [← hK]; rfl) fun q hq => by rw [← hK]; simp [Kernel.modifyPcb, createPcb, hq]
    obtain ⟨q, hready', hc'⟩ := htr.addToQueue (l := .ready)
      (by rw [← hK]; simp [Kernel.modifyPcb, createPcb]) (by rw [← hK]; exact hidle)
    obtain rfl := Option.some.inj (hready.symm.trans hready')
    have hkc' : copyKernelStack hw m₂ stack₀ = (m, stack) := hkc
    refine .parent hflag hmem hins (q := q) ?_ (hc'.congr rfl rfl fun _ => rfl)
    rw [← hK]
    apply Kernel.ext <;> try rfl
    · funext p
      by_cases e : p = child
      · subst e
        simp [Kernel.returnValue, Kernel.setState, Kernel.modifyPcb, createPcb, forked,
          QueueId.state]
      · simp [Kernel.returnValue, Kernel.setState, Kernel.modifyPcb, createPcb, forked, e]
    · simp [Kernel.returnValue, Kernel.setState, Kernel.modifyPcb, createPcb, forked]
  · rename_i hflag
    exact .child (by simpa using hflag) (Option.some.inj h).symm

end Yalnix
