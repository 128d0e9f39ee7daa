import Yalnix.Proofs.Frames
import Yalnix.Proofs.Queues

/-!
# The state after boot

The idle process runs, the init process is the only one on the ready queue, and nothing else has
happened yet.
-/

namespace Yalnix

open Intrusive

variable {hw : Hardware} {b : Boot hw} {k : Kernel}

/-- `LoadProgram` changes the page table, the break and the user context of the process. -/
theorem loadProgram_frame {m m' : Memory} {proc proc' : Pcb} {req : LoadRequest} {rc : LoadResult}
    (h : loadProgram hw m proc req = some (rc, m', proc')) :
    ∃ pt brk uc, proc' = { proc with region1_pt := pt, brk := brk, user_context := uc } := by
  rcases loadProgram_cases h with ⟨-, -, rfl⟩ | ⟨li, -, -, hcase⟩
  · exact ⟨_, _, _, rfl⟩
  · cases hcase with
    | noText => exact ⟨_, _, _, rfl⟩
    | noData => exact ⟨_, _, _, rfl⟩
    | noStack => exact ⟨_, _, _, rfl⟩
    | unread => exact ⟨_, _, _, rfl⟩
    | built => exact ⟨_, _, _, rfl⟩

/-- A process that has been created and not yet touched by anybody else. -/
structure Fresh (pcb : Pcb) (kc : KernelContext) : Prop where
  state : pcb.state = .processDefault
  kernel_context : pcb.kernel_context = kc
  parent : pcb.parent = none
  waiting : pcb.waiting_for_children = 0

theorem startIdle_cases (h : startIdle b = some k) : ∃ m pcb, Fresh pcb .uninitialized ∧
    k = { initPcbSystem b.globals with
      pcb := Function.update (fun _ => Boot.blankPcb b.uctxt) b.idle_pcb pcb
      allocated := Function.update (fun _ => false) b.idle_pcb true
      family := Heap.empty.listInit b.idle_pcb
      pidCalls := 1
      mem := m } := by
  unfold startIdle at h
  simp only at h
  split at h
  · cases h
  · simp only [Option.bind_eq_bind, Option.bind_eq_some_iff, Option.pure_def, Option.some.injEq,
      Prod.exists] at h
    obtain ⟨m, stack, -, rfl⟩ := h
    simp only [Kernel.modifyPcb, createPcb, Function.update_idem, Function.update_self]
    exact ⟨_, _, ⟨rfl, rfl, rfl, rfl⟩, rfl⟩

theorem startInit_cases {k₁ : Kernel} (h : startInit b k₁ = some k) : ∃ m pcb,
    Fresh pcb .kernelStart ∧
    k = { k₁ with
      pcb := Function.update k₁.pcb b.init_pcb pcb
      allocated := Function.update k₁.allocated b.init_pcb true
      family := k₁.family.listInit b.init_pcb
      pidCalls := k₁.pidCalls + 1
      mem := m } := by
  unfold startInit at h
  simp only [Option.bind_eq_bind, Option.bind_eq_some_iff, Option.pure_def, Option.some.injEq,
    Prod.exists] at h
  obtain ⟨m, stack, -, rc, m', proc, hload, rfl⟩ := h
  obtain ⟨pt, brk, uc, hproc⟩ := loadProgram_frame hload
  refine ⟨(copyKernelStack hw m' proc.kernel_stack).1, { proc with
    kernel_stack := (copyKernelStack hw m' proc.kernel_stack).2
    kernel_context := .kernelStart }, ⟨?_, rfl, ?_, ?_⟩, ?_⟩
  · rw [hproc]; simp [Kernel.modifyPcb, createPcb]
  · rw [hproc]; simp [Kernel.modifyPcb, createPcb]
  · rw [hproc]; simp [Kernel.modifyPcb, createPcb]
  · simp only [Kernel.modifyPcb, createPcb, Function.update_idem]

/-- The state after boot. -/
structure Booted (b : Boot hw) (k : Kernel) : Prop where
  queues : k.queues.Rep Set.univ (Function.update (fun _ => []) .ready [b.init_pcb])
  family : k.family.Rep Set.univ fun _ => []
  current : k.current_process = b.idle_pcb
  idle : k.idle_process = b.idle_pcb
  allocated : ∀ p, k.allocated p = true ↔ p = b.idle_pcb ∨ p = b.init_pcb
  mode : k.mode = .user
  state_idle : (k.pcb b.idle_pcb).state = .processRunning
  state_init : (k.pcb b.init_pcb).state = .processReady
  state_other : ∀ p, p ≠ b.idle_pcb → p ≠ b.init_pcb → (k.pcb p).state = .processDefault
  context_init : (k.pcb b.init_pcb).kernel_context = .kernelStart
  context_other : ∀ p, p ≠ b.init_pcb → (k.pcb p).kernel_context = .uninitialized
  parent : ∀ p, (k.pcb p).parent = none
  waiting : ∀ p, (k.pcb p).waiting_for_children = 0
  noObject : ∀ i, k.sync_table i = none
  noHistory : k.pipeHistory = []
  noneFreed : ∀ q, k.kbufFreed q = false

theorem kernelStart_booted (h : kernelStart b = some k) : Booted b k := by
  unfold kernelStart at h
  simp only [Option.bind_eq_bind, Option.bind_eq_some_iff, Option.pure_def, Option.some.injEq] at h
  obtain ⟨k₁, hidle, k₂, hinit, k₃, hadd, rfl⟩ := h
  obtain ⟨m₁, idle, fidle, rfl⟩ := startIdle_cases hidle
  obtain ⟨m₂, init, finit, rfl⟩ := startInit_cases hinit
  have hne := b.init_ne_idle
  have hrep : (initPcbSystem b.globals).queues.Rep Set.univ fun _ => [] :=
    ((((Heap.rep_empty _).listInit rfl).listInit rfl).listInit rfl).listInit rfl
  have hfamily : ((Heap.empty.listInit b.idle_pcb).listInit b.init_pcb :
      Heap PcbPtr PcbPtr).Rep Set.univ fun _ => [] :=
    ((Heap.rep_empty _).listInit rfl).listInit rfl
  obtain ⟨q, hq, hrep'⟩ := hrep.insertTail (Set.mem_univ .ready) (n := b.init_pcb) (by simp)
  unfold addToReadyQueue addToQueue at hadd
  rw [if_neg (by simp [finit.state])] at hadd
  simp only [Kernel.insertTail, Kernel.setState, Kernel.modifyPcb, hq, Option.map_some,
    Option.some.injEq] at hadd
  subst hadd
  constructor
  case queues =>
    rw [List.nil_append] at hrep'
    exact hrep'
  case family => exact hfamily
  case current => rfl
  case idle => rfl
  case mode => rfl
  case noObject => exact fun _ => rfl
  case noHistory => rfl
  case noneFreed => exact fun _ => rfl
  case allocated =>
    intro p
    by_cases h1 : p = b.idle_pcb <;> by_cases h2 : p = b.init_pcb <;>
      simp [setCurrentProcess, Kernel.setState, Kernel.modifyPcb, h1, h2, hne, hne.symm]
  case state_idle => simp [setCurrentProcess, Kernel.setState, Kernel.modifyPcb]
  case state_init => simp [setCurrentProcess, Kernel.setState, Kernel.modifyPcb, hne]
  case state_other =>
    intro p h1 h2
    simp [setCurrentProcess, Kernel.setState, Kernel.modifyPcb, h1, h2, Boot.blankPcb]
  case context_init =>
    simp [setCurrentProcess, Kernel.setState, Kernel.modifyPcb, hne, finit.kernel_context]
  all_goals
    intro p
    by_cases h1 : p = b.idle_pcb <;> by_cases h2 : p = b.init_pcb <;>
      simp [setCurrentProcess, Kernel.setState, Kernel.modifyPcb, h1, h2, hne, hne.symm,
        Boot.blankPcb, fidle.kernel_context, fidle.parent, fidle.waiting, finit.kernel_context,
        finit.parent, finit.waiting]

/-- Boot leaves the processes where their states say. -/
theorem Booted.coherent (h : Booted b k) :
    Coherent k (Function.update (fun _ => []) .ready [b.init_pcb]) := by
  have hmem : ∀ l p, p ∈ Function.update (fun _ : QueueId => ([] : List PcbPtr)) .ready
      [b.init_pcb] l ↔ l = .ready ∧ p = b.init_pcb := by
    intro l p
    by_cases e : l = .ready
    · subst e; simp
    · simp [e]
  refine ⟨h.queues, fun l p hp => ?_, fun p hp => ?_, fun l hl => ?_⟩
  · obtain ⟨rfl, rfl⟩ := (hmem l p).1 hp
    exact h.state_init
  · by_cases e : p = b.idle_pcb
    · exact Or.inr (e ▸ h.state_idle)
    · exact Or.inl (h.state_other p e fun e' => hp .ready ((hmem _ _).2 ⟨rfl, e'⟩))
  · obtain ⟨-, e⟩ := (hmem _ _).1 hl
    exact b.init_ne_idle (e.symm.trans h.idle)

end Yalnix
