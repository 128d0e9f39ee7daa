import Yalnix.SyncRun
import Yalnix.Proofs.Boot

/-!
# What `schedule` does

`schedule` takes the head of the ready queue, or the idle process when the queue is empty, and touches
the saved contexts of the process it leaves and the state and run time of the process it enters.
-/

namespace Yalnix

open Intrusive Transition

variable {k k' : Kernel} {s s' : QueueId → List PcbPtr}

/-- The PCB of `p` after a switch from the current process to `next`. -/
def switchedPcb (k : Kernel) (caller : ScheduleCaller) (next p : PcbPtr) : Pcb :=
  { k.pcb p with
    user_context := if p = k.current_process then k.uctxt else (k.pcb p).user_context
    kernel_context :=
      if p = k.current_process then .schedule caller else (k.pcb p).kernel_context
    run_time := if p = next then 0 else (k.pcb p).run_time
    state := if p = next then .processRunning else (k.pcb p).state }

/-- The process that `schedule` switches to, and the ready queue it leaves. -/
inductive Next (k : Kernel) (s : QueueId → List PcbPtr) : PcbPtr → (QueueId → List PcbPtr) → Prop where
  | idle (hs : s .ready = []) : Next k s k.idle_process s
  | ready {p : PcbPtr} {xs : List PcbPtr} (hs : s .ready = p :: xs) :
      Next k s p (Function.update s .ready xs)

namespace Next

variable {next p : PcbPtr} {l : QueueId}

theorem other (h : Next k s next s') (hl : l ≠ .ready) : s' l = s l := by
  cases h with
  | idle => rfl
  | ready => exact Function.update_of_ne hl _ _

theorem subset (h : Next k s next s') (hp : p ∈ s' l) : p ∈ s l := by
  cases h with
  | idle => exact hp
  | ready hs =>
    rw [Function.update_apply] at hp
    split at hp
    · rename_i e
      rw [e, hs]
      exact List.mem_cons_of_mem _ hp
    · exact hp

theorem origin (h : Next k s next s') : next = k.idle_process ∨ next ∈ s .ready := by
  cases h with
  | idle => exact Or.inl rfl
  | ready hs => exact Or.inr (by simp [hs])

/-- Who waits elsewhere is not switched to. -/
theorem ne (h : Next k s next s') (hc : Coherent k s) (hl : l ≠ .ready) (hp : p ∈ s l) : p ≠ next := by
  rintro rfl
  rcases h.origin with e | hready
  · exact hc.idle l (e ▸ hp)
  · exact hl (hc.unique hp hready)

end Next

/-- The state after a switch to `next` that left the lists `q`. -/
def switched (hw : Hardware) (k : Kernel) (caller : ScheduleCaller) (next : PcbPtr)
    (q : Heap QueueId PcbPtr) : Kernel :=
  let pcb := switchedPcb k caller next
  { k with
    pcb := pcb
    queues := q
    current_process := next
    mem := { mapKernelStack hw k.mem (k.pcb next).kernel_stack with ptbr1 := some next }
    uctxt := match (pcb next).kernel_context with
      | .schedule _ => (pcb next).user_context
      | _ => k.uctxt
    mode := .resumed }

/-- A process that was left in `schedule` gets its saved context back. -/
theorem switched_uctxt {hw : Hardware} {caller c : ScheduleCaller} {next : PcbPtr} {q : Heap QueueId PcbPtr}
    (h : (switchedPcb k caller next next).kernel_context = .schedule c) :
    (switched hw k caller next q).uctxt = ((switched hw k caller next q).pcb next).user_context := by
  simp only [switched, h]

theorem schedule_eq {hw : Hardware} {caller : ScheduleCaller} {next : PcbPtr} {q : Heap QueueId PcbPtr}
    (hnext : nextProcess k = some (next, { k with queues := q })) :
    schedule hw k caller = some (switched hw k caller next q) := by
  -- the four writes to PCBs touch different fields
  have hswitch : ∀ k₁, k₁ = (({ k with queues := q } : Kernel).modifyPcb k.current_process
      fun pcb => { pcb with user_context := k.uctxt }).modifyPcb next
      (fun pcb => { pcb with run_time := 0 }) →
      kcSwitch hw k₁ (.schedule caller) k.current_process next =
      { k with
        pcb := switchedPcb k caller next
        queues := q
        current_process := next
        mem := { mapKernelStack hw k.mem (k.pcb next).kernel_stack with ptbr1 := some next } } := by
    rintro k₁ rfl
    have hpcb : (kcSwitch hw ((({ k with queues := q } : Kernel).modifyPcb k.current_process
        fun pcb => { pcb with user_context := k.uctxt }).modifyPcb next
        fun pcb => { pcb with run_time := 0 }) (.schedule caller) k.current_process next).pcb =
        switchedPcb k caller next := by
      funext p
      unfold kcSwitch switchedPcb Kernel.setState Kernel.modifyPcb
      by_cases h1 : p = k.current_process <;> by_cases h2 : p = next <;>
        by_cases h3 : k.current_process = next <;> simp_all
    have hstack := congrArg Pcb.kernel_stack (congrFun hpcb next)
    apply Kernel.ext <;> try rfl
    · exact hpcb
    · exact congrArg (fun st => ({ mapKernelStack hw k.mem st with ptbr1 := some next } : Memory))
        hstack
  unfold schedule
  rw [hnext]
  simp only [Option.bind_eq_bind, Option.bind_some]
  rw [hswitch _ rfl]
  unfold switched
  cases h : (switchedPcb k caller next next).kernel_context <;> simp [h, scheduleReturn]

/-- `schedule` always finds a process. -/
theorem Coherent.schedule (h : Coherent k s) (hw : Hardware) (caller : ScheduleCaller) :
    ∃ next s' q, Yalnix.schedule hw k caller = some (switched hw k caller next q) ∧ Next k s next s' ∧
    Coherent (switched hw k caller next q) s' := by
  cases hs : s .ready with
  | nil =>
    have hnext : nextProcess k = some (k.idle_process, { k with queues := k.queues }) := by
      rw [nextProcess, if_pos (h.count_eq_zero.2 hs)]
    refine ⟨_, _, _, schedule_eq hnext, .idle hs, ?_⟩
    have htr : InTransit (switched hw k caller k.idle_process k.queues) s k.idle_process :=
      (h.transit (h.idle ·)).congr rfl rfl fun q hq => by simp [switched, switchedPcb, hq]
    exact htr.settle (Or.inr (by simp [switched, switchedPcb]))
  | cons p xs =>
    obtain ⟨q, hpop, htr⟩ := h.pop_cons hs
    have hnext : nextProcess k = some (p, { k with queues := q }) := by
      rw [nextProcess, if_neg (by rw [h.count_eq_zero, hs]; simp), hpop]
      rfl
    refine ⟨_, _, _, schedule_eq hnext, .ready hs, ?_⟩
    have htr' : InTransit (switched hw k caller p q) (Function.update s .ready xs) p :=
      htr.congr rfl rfl fun q hq => by simp [switched, switchedPcb, hq]
    exact htr'.settle (Or.inr (by simp [switched, switchedPcb]))

theorem Coherent.schedule_some (h : Coherent k s) {hw : Hardware} {caller : ScheduleCaller}
    (hrun : Yalnix.schedule hw k caller = some k') : ∃ next s' q, k' = switched hw k caller next q ∧
    Next k s next s' ∧ Coherent k' s' := by
  obtain ⟨next, s', q, hrun', hnext, hc⟩ := h.schedule hw caller
  obtain rfl := Option.some.inj (hrun.symm.trans hrun')
  exact ⟨next, s', q, rfl, hnext, hc⟩

theorem Coherent.enabled (h : Coherent k s) {hw : Hardware} {e : SyncEvent}
    (he : callable k e = true) : (syncMachine hw).enabled k e := by
  cases e with
  | call p c =>
    obtain ⟨hst, hidle⟩ := of_decide_eq_true he
    exact ⟨h.offQueues_iff_state.2 hst, hidle⟩
  | schedule => trivial
  | store => trivial

/-- The kernel is booted into such a state. -/
theorem Booted.syncStart {hw : Hardware} {b : Boot hw} (h : Booted b k) : SyncStart k where
  coherent := by rw [h.coherent.queue_eq]; exact h.coherent
  noWaiter w := by rw [h.coherent.queue_eq]; simp
  noObject := h.noObject
  noHistory := h.noHistory
  noneFreed := h.noneFreed

theorem SyncStart.table (h : SyncStart k) : SyncTable k k.queue where
  id i o ho := by rw [h.noObject i] at ho; cases ho
  bound i o ho := by rw [h.noObject i] at ho; cases ho
  used i o ho := by rw [h.noObject i] at ho; cases ho
  fits w p hp := by rw [h.noWaiter w] at hp; simp at hp

/-- A further process, made at an address that no list has, changes nothing of this. -/
theorem SyncStart.createPcb (h : SyncStart k) (hw : Hardware) {p : PcbPtr} (hfree : k.OffQueues p) :
    SyncStart (Yalnix.createPcb hw k p) :=
  ⟨h.coherent.createPcb hw (h.coherent.offQueues_iff.1 hfree), h.noWaiter, h.noObject, h.noHistory, h.noneFreed⟩

theorem Boot.smallKernel_booted : Booted Boot.small Boot.smallKernel :=
  kernelStart_booted (Option.some_get _).symm

theorem Boot.smallProcesses_syncStart : SyncStart Boot.smallProcesses := by
  have h := Boot.smallKernel_booted.syncStart
  have h1 := h.createPcb .small (p := 102) (h.coherent.offQueues_iff_state.2 (Or.inl (by decide)))
  exact h1.createPcb .small (p := 103) (h1.coherent.offQueues_iff_state.2 (Or.inl (by decide)))

end Yalnix
