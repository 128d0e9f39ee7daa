import Yalnix.Proofs.MemoryStep
import Yalnix.Transition.Simulation

/-!
# Private memories

The machine with its frames and tables does to the memories of processes what a machine without frames does, in
which every process has a memory of its own. So nobody finds a byte changed that it has not changed itself.
-/

namespace Yalnix

open Paging Transition

variable {hw : Hardware} {b : Boot hw} {k k' k₀ : Kernel} {frames frames' : Frames UInt8} {p : PcbPtr}
  {apart : Nat → Prop} {s s' : Kernel × Frames UInt8} {e : MemoryEvent} {o : ProgramBytes}
  {t t₁ t₂ : List ((Kernel × Frames UInt8) × MemoryEvent)}

/-! ## Every step -/

/-- The kernel part of a step, if it has one. -/
theorem memory_step_kernel (hstep : (memoryMachine hw).step s e = some s') :
    (∃ addr b, e = .store addr b ∧ s'.1 = s.1) ∨
      ∃ d o, e = .trap d o ∧ (trapMachine hw).step s.1 d = some s'.1 ∧ trapBytes hw s.1 d o s'.1 s.2 = some s'.2 := by
  cases e with
  | store addr b =>
    obtain ⟨frames, -, rfl⟩ := Option.map_eq_some_iff.1 hstep
    exact Or.inl ⟨addr, b, rfl, rfl⟩
  | trap d o =>
    obtain ⟨k', hk', hrest⟩ := Option.bind_eq_some_iff.1 hstep
    obtain ⟨frames, hframes, hs'⟩ := Option.bind_eq_some_iff.1 hrest
    obtain rfl := Option.some.inj hs'
    exact Or.inr ⟨d, o, rfl, hk', hframes⟩

/-- A step keeps the invariant, and a failure of `allocate_frame` recorded. -/
theorem MemoryInv.memoryStep (h : MemoryInv hw apart s.1) (hpfn : hw.NUM_VPN ≤ 2 ^ 24)
    (hen : (memoryMachine hw).enabled s e) (hok : KeepsMemories hw s e)
    (hstep : (memoryMachine hw).step s e = some s') :
    MemoryInv hw apart s'.1 ∧ (s'.1.mem.exhausted = false → s.1.mem.exhausted = false) := by
  rcases memory_step_kernel hstep with ⟨addr, b, rfl, hk⟩ | ⟨d, o, rfl, hk, -⟩
  · rw [hk]
    exact ⟨h, id⟩
  · exact ⟨h.step hpfn hen.1 hok hk, h.room hpfn hen.1 hok hk⟩

theorem memory_matches (h : MemoryInv hw apart s.1) (hpfn : hw.NUM_VPN ≤ 2 ^ 24)
    (hen : (memoryMachine hw).enabled s e) (hok : KeepsMemories hw s e)
    (hstep : (memoryMachine hw).step s e = some s') (hroom : s'.1.mem.exhausted = false) :
    Matches (memories hw s) (memories hw s') (e.toPrivate hw s) := by
  cases e with
  | store addr b =>
    obtain ⟨g, hinv⟩ := h.family
    obtain ⟨frames, hstore, rfl⟩ := Option.map_eq_some_iff.1 hstep
    exact store_matches (h.space.owners hroom) (hinv.lives_running (Or.inl hen.1)) h.walks hstore
  | trap d o =>
    have hprivate : MemoryEvent.toPrivate hw s (.trap d o) = d.toPrivate hw s s' := by
      show ((memoryMachine hw).step s (.trap d o)).bind (fun s' => d.toPrivate hw s s') = _
      rw [hstep, Option.bind_some]
    obtain ⟨k', hk', hrest⟩ := Option.bind_eq_some_iff.1 hstep
    obtain ⟨frames, hframes, hs'⟩ := Option.bind_eq_some_iff.1 hrest
    obtain rfl := Option.some.inj hs'
    rw [hprivate]
    exact trap_matches h hpfn hen.1 hok hk' hframes hroom

/-- In the runs in which frames are found whenever they are asked for. -/
theorem memoryMachine_simulation (hpfn : hw.NUM_VPN ≤ 2 ^ 24) :
    Simulation (memoryMachine hw)
      (fun s e => KeepsMemories hw s e ∧ ∀ s', (memoryMachine hw).step s e = some s' → s'.1.mem.exhausted = false)
      privateMachine (fun _ _ => True) (fun s e => e.toPrivate hw s)
      fun s mems => MemoryInv hw apart s.1 ∧ mems = memories hw s where
  silent := by
    rintro s s' e _ ⟨h, rfl⟩ hen ⟨hok, hroom⟩ hstep hevent
    have hmatch := memory_matches h hpfn hen hok hstep (hroom s' hstep)
    rw [hevent] at hmatch
    exact ⟨(h.memoryStep hpfn hen hok hstep).1, hmatch.symm⟩
  matched := by
    rintro s s' e _ d ⟨h, rfl⟩ hen ⟨hok, hroom⟩ hstep hevent
    have hmatch := memory_matches h hpfn hen hok hstep (hroom s' hstep)
    rw [hevent] at hmatch
    exact ⟨_, hmatch.1, trivial, hmatch.2, (h.memoryStep hpfn hen hok hstep).1, rfl⟩

/-! ## Runs -/

theorem memoryRun (h : MemoryInv hw apart s.1) (hpfn : hw.NUM_VPN ≤ 2 ^ 24)
    (hrun : Run (memoryMachine hw) (KeepsMemories hw) s t s') : MemoryInv hw apart s'.1 := by
  refine hrun.invariant (I := fun s => MemoryInv hw apart s.1) h ?_
  intro s e s' h hen hok hstep
  exact (h.memoryStep hpfn hen hok hstep).1

/-- Frames were found all along if they were at the end. -/
theorem roomAlong (h : MemoryInv hw apart s.1) (hpfn : hw.NUM_VPN ≤ 2 ^ 24)
    (hrun : Run (memoryMachine hw) (KeepsMemories hw) s t s') (hroom : s'.1.mem.exhausted = false) :
    Run (memoryMachine hw) (fun s e => KeepsMemories hw s e ∧
      ∀ s', (memoryMachine hw).step s e = some s' → s'.1.mem.exhausted = false) s t s' := by
  refine hrun.allAlong (I := fun s => MemoryInv hw apart s.1) (Q := fun s => s.1.mem.exhausted = false) h ?_ hroom
  intro s e s' h hen hok hstep
  exact h.memoryStep hpfn hen hok hstep

/-- A run in which no allocation fails is matched by one of the machine without frames. -/
theorem private_run (h : MemoryInv hw apart s.1) (hpfn : hw.NUM_VPN ≤ 2 ^ 24)
    (hrun : Run (memoryMachine hw) (KeepsMemories hw) s t s') (hroom : s'.1.mem.exhausted = false) :
    ∃ u, Run privateMachine (fun _ _ => True) (memories hw s) u (memories hw s') ∧
      u.map Prod.snd = t.filterMap fun x => x.2.toPrivate hw x.1 := by
  have hrun' := roomAlong h hpfn hrun hroom
  obtain ⟨u, mems, hprivate, hevents, -, rfl⟩ := (memoryMachine_simulation hpfn).run hrun' ⟨h, rfl⟩
  exact ⟨u, hprivate, hevents⟩

/-! ## The init process of the small machine -/

/-- A program that is not looked at. -/
def noProgram : ProgramBytes := ⟨[], [], 0, 0, fun _ => 0⟩

/-- What the frames hold at boot. -/
def bootFrames : Frames UInt8 := fun f o => UInt8.ofNat (f + o)

/-- A trap that stores nothing leaves the frames alone. -/
theorem quiet_step {d : TrapEvent} (hstep : (trapMachine hw).step k d = some k')
    (hquiet : d = .schedule ∨ d.OnlyStores) (hstores : k'.userStores = k.userStores) :
    (memoryMachine hw).step (k, frames) (.trap d o) = some (k', frames) := by
  have hnothing : storeAll hw.pageBytes (writableTable hw k'.liveTable) (k.userWrites k') frames = some frames := by
    rw [userWrites_nil hstores]
    rfl
  have hbytes : trapBytes hw k d o k' frames = some frames := by
    cases d with
    | kernel u c =>
      cases c with
      | fork child => simp [TrapEvent.OnlyStores] at hquiet
      | exec req => simp [TrapEvent.OnlyStores] at hquiet
      | _ => exact hnothing
    | _ => exact hnothing
  simp only [memoryMachine, hstep, hbytes, Option.bind_eq_bind, Option.bind_some, Option.pure_def]

/-- A byte goes into the page of its address. -/
theorem store_step {addr f : Nat} {b : UInt8}
    (hf : writableTable hw k.liveTable (addr / hw.pageBytes) = some f) :
    (memoryMachine hw).step (k, frames) (.store addr b) =
      some (k, Function.update frames f (Function.update (frames f) (addr % hw.pageBytes) b)) := by
  simp [memoryMachine, storeAll, storeList, store_of_mapped hf]

/-- The init process is dispatched. -/
theorem dispatched_run : ∃ t, Run (memoryMachine .small) (KeepsMemories .small) (Boot.smallKernel, bootFrames) t
    (initKernel, bootFrames) := by
  have hdispatch : ∀ (k : Kernel), ∀ e ∈ dispatchEvents, NeverWaits .small k e ∧ KeepsOwners .small k e := by
    simp [dispatchEvents, NeverWaits, KeepsOwners, ForkUnlinked]
  have hquiet : ∀ x ∈ (trapMachine .small).trace Boot.smallKernel dispatchEvents,
      ((trapMachine .small).step x.1 x.2).all fun k' => k'.userStores = x.1.userStores := by
    decide +kernel
  have hplain : ∀ e ∈ dispatchEvents, (e = .schedule ∨ e.OnlyStores) ∧ ∀ k frames, e.Reads .small k frames := by
    simp [dispatchEvents, TrapEvent.OnlyStores, TrapEvent.Reads]
  refine (initKernel_run hdispatch).restrict (Q := fun k e => e ∈ dispatchEvents ∧
    ((trapMachine .small).step k e).all fun k' => k'.userStores = k.userStores)
    (fun x hx => ⟨System.mem_trace hx, hquiet x hx⟩) |>.invariant
      (I := fun k => ∃ t, Run (memoryMachine .small) (KeepsMemories .small) (Boot.smallKernel, bootFrames) t
        (k, bootFrames)) ⟨[], .nil⟩ ?_
  rintro k e k' ⟨t, hrun⟩ hen ⟨hok, hmem, hstores⟩ hstep
  obtain ⟨hquiet, hreads⟩ := hplain e hmem
  rw [hstep, Option.all_some, decide_eq_true_iff] at hstores
  have hen' : (memoryMachine .small).enabled (k, bootFrames) (.trap e noProgram) := ⟨hen, hreads _ _⟩
  have hstep' : (memoryMachine .small).step (k, bootFrames) (.trap e noProgram) = some (k', bootFrames) :=
    quiet_step hstep hquiet hstores
  exact ⟨_, hrun.snoc hen' hok hstep'⟩

/-- It stores a byte in its data. -/
def storedFrames : Frames UInt8 := Function.update bootFrames 10 (Function.update (bootFrames 10) 0 7)

/-- It forks. -/
def childFrames : Frames UInt8 := (trapBytes .small initKernel (.kernel Boot.small.uctxt (.fork 102)) noProgram
  forkedKernel storedFrames).get (by decide +kernel)

/-- Then it stores another byte at the same address. -/
def apartFrames : Frames UInt8 := Function.update childFrames 10 (Function.update (childFrames 10) 0 8)

theorem childFrames_run : ∃ t, Run (memoryMachine .small) (KeepsMemories .small) (Boot.smallKernel, bootFrames) t
    (forkedKernel, childFrames) := by
  obtain ⟨t, hrun⟩ := dispatched_run
  have hstore : (memoryMachine .small).step (initKernel, bootFrames) (.store 144 7) =
      some (initKernel, storedFrames) := store_step (by decide +kernel)
  have hen : (memoryMachine .small).enabled (initKernel, bootFrames) (.store 144 7) := by
    decide +kernel
  have hstored := hrun.snoc hen trivial hstore
  have hfork : (memoryMachine .small).enabled (initKernel, storedFrames)
      (.trap (.kernel Boot.small.uctxt (.fork 102)) noProgram) := by
    decide +kernel
  have hdispatch : ∀ k, ∀ e ∈ dispatchEvents, FamilyEvent e ∧ FreesNobody k e := by
    simp [dispatchEvents, FamilyEvent, FreesNobody]
  obtain ⟨s, f, hwhole⟩ := wholeRun Boot.smallKernel_booted.familyStart (initKernel_run hdispatch)
  have horderly := hwhole.orderly hfork.1 trivial
  have hok : KeepsMemories .small (initKernel, storedFrames)
      (.trap (.kernel Boot.small.uctxt (.fork 102)) noProgram) :=
    ⟨⟨horderly.1, by decide +kernel⟩, horderly, by simp⟩
  have hbytes : trapBytes .small initKernel (.kernel Boot.small.uctxt (.fork 102)) noProgram forkedKernel
      storedFrames = some childFrames := (Option.some_get _).symm
  have hstep : (trapMachine .small).step initKernel (.kernel Boot.small.uctxt (.fork 102)) = some forkedKernel :=
    (Option.some_get _).symm
  have hstep' : (memoryMachine .small).step (initKernel, storedFrames)
      (.trap (.kernel Boot.small.uctxt (.fork 102)) noProgram) = some (forkedKernel, childFrames) := by
    simp only [memoryMachine, hstep, hbytes, Option.bind_eq_bind, Option.bind_some, Option.pure_def]
  exact ⟨_, hstored.snoc hfork hok hstep'⟩

theorem apartFrames_run : Run (memoryMachine .small) (KeepsMemories .small) (forkedKernel, childFrames)
    [((forkedKernel, childFrames), .store 144 8)] (forkedKernel, apartFrames) := by
  have hen : (memoryMachine .small).enabled (forkedKernel, childFrames) (.store 144 8) := by
    decide +kernel
  have hstore : (memoryMachine .small).step (forkedKernel, childFrames) (.store 144 8) =
      some (forkedKernel, apartFrames) := store_step (by decide +kernel)
  exact Run.nil.snoc hen trivial hstore

theorem loadsOver_boot : LoadsOver .small Boot.small.initProgram fun _ => .zero :=
  loadsOver_small fun _ _ hv => by cases hv

/-! ## The theorems -/

/-- In every run from boot in which no call has to wait, frames are found whenever they are asked for, and every
program is loaded over all pages of the old one, the memories of processes are private: what the machine does to
them with its frames and tables is what a machine does in which each process has a memory of its own, byte by byte
and event by event. -/
theorem memories_private (h₀ : kernelStart b = some k₀) (hboot : LoadsOver hw b.initProgram fun _ => .zero)
    (hrun : Run (memoryMachine hw) (KeepsMemories hw) (k₀, frames) t (k, frames'))
    (hroom : k.mem.exhausted = false) :
    ∃ u, Run privateMachine (fun _ _ => True) (memories hw (k₀, frames)) u (memories hw (k, frames')) ∧
      u.map Prod.snd = t.filterMap fun x => x.2.toPrivate hw x.1 :=
  private_run (kernelStart_memory h₀ hboot) b.pfn_fits hrun hroom

/-- It stores a byte, forks, and stores another at the same address. -/
theorem memories_private_small : ∃ u, Run privateMachine (fun _ _ => True)
    (memories .small (Boot.smallKernel, bootFrames)) u (memories .small (forkedKernel, apartFrames)) := by
  obtain ⟨t, hrun⟩ := childFrames_run
  obtain ⟨u, hprivate, -⟩ := memories_private (Option.some_get _).symm loadsOver_boot
    (hrun.trans apartFrames_run) (by decide +kernel)
  exact ⟨u, hprivate⟩

/-- Whoever does not run lives on. -/
theorem SpaceCase.lives_other {e : TrapEvent} (h : SpaceCase hw k e k') (hne : p ≠ k.current_process)
    (hlives : k.Lives p) : k'.Lives p := by
  cases h with
  | same _ hsame => exact (hsame p).lives.2 hlives
  | @forks u child m pt stack family q _ hfresh =>
    have hp : p ≠ child := ne_of_free hfresh hlives.1 |>.symm
    simpa [forked, createPcb, Kernel.Lives, hp] using hlives
  | loads _ hload => exact ((onlyTable_execed hload).others p hne).lives.2 hlives
  | grows => exact (onlyTable_grown.others p hne).lives.2 hlives
  | exits _ _ _ hsame => exact (hsame p hne).lives.2 hlives

/-- An event is about the memory of the process that runs, or of one that does not live yet. -/
theorem toPrivate_owner {d : PrivateEvent PcbPtr UInt8} (hen : (memoryMachine hw).enabled s e)
    (hevent : e.toPrivate hw s = some d) (hlives : s.1.Lives p) (hne : s.1.current_process ≠ p) : d.owner ≠ p := by
  cases e with
  | store addr b =>
    obtain rfl := Option.some.inj hevent
    exact hne
  | trap e o =>
    obtain ⟨s', -, hevent⟩ := Option.bind_eq_some_iff.1 hevent
    cases e with
    | kernel u c =>
      cases c with
      | fork child =>
        simp only [TrapEvent.toPrivate] at hevent
        split at hevent
        · obtain rfl := Option.some.inj hevent
          exact ne_of_free hen.1.2.2 hlives.1
        · cases hevent
      | _ =>
        obtain rfl := Option.some.inj hevent
        exact hne
    | schedule => cases hevent
    | clock u =>
      obtain rfl := Option.some.inj hevent
      exact hne
    | resume =>
      obtain rfl := Option.some.inj hevent
      exact hne

/-- In every such run, while a process lives and does not run, it lives on and no byte of its memory changes,
whatever the others store, fork, load or give back, and whatever the kernel hands over to them. -/
theorem bystander_memory (h₀ : kernelStart b = some k₀) (hboot : LoadsOver hw b.initProgram fun _ => .zero)
    (hbefore : Run (memoryMachine hw) (KeepsMemories hw) (k₀, frames) t₁ s)
    (hrun : Run (memoryMachine hw) (KeepsMemories hw) s t₂ s') (hroom : s'.1.mem.exhausted = false)
    (hlives : s.1.Lives p) (hwaits : ∀ x ∈ t₂, x.1.1.current_process ≠ p) :
    s'.1.Lives p ∧ memories hw s' p = memories hw s p := by
  have h : MemoryInv hw b.Reserved s.1 := memoryRun (kernelStart_memory h₀ hboot) b.pfn_fits hbefore
  have hrun' := hrun.restrict (Q := fun s _ => s.1.current_process ≠ p) hwaits
  have hstep : ∀ s e s', (MemoryInv hw b.Reserved s.1 ∧ s.1.Lives p) → (memoryMachine hw).enabled s e →
      (KeepsMemories hw s e ∧ s.1.current_process ≠ p) → (memoryMachine hw).step s e = some s' →
      MemoryInv hw b.Reserved s'.1 ∧ s'.1.Lives p := by
    rintro s e s' ⟨h, hlives⟩ hen ⟨hok, hne⟩ hstep
    refine ⟨(h.memoryStep b.pfn_fits hen hok hstep).1, ?_⟩
    rcases memory_step_kernel hstep with ⟨addr, b, rfl, hk⟩ | ⟨d, o, rfl, hk, -⟩
    · rwa [hk]
    · exact (h.spaceCase hen.1 hok hk).lives_other hne.symm hlives
  refine ⟨(hrun'.invariant ⟨h, hlives⟩ hstep).2, ?_⟩
  obtain ⟨u, hprivate, hevents⟩ := private_run h b.pfn_fits hrun hroom
  refine private_kept hprivate fun d hd => ?_
  rw [hevents, List.mem_filterMap] at hd
  obtain ⟨x, hx, hd⟩ := hd
  obtain ⟨⟨-, hlives⟩, hen, -, hne⟩ := hrun'.before ⟨h, hlives⟩ hstep x hx
  exact toPrivate_owner hen hd hlives hne

/-- The child keeps what its parent had stored before the fork. -/
theorem bystander_memory_small : forkedKernel.Lives 102 ∧
    memories .small (forkedKernel, apartFrames) 102 = memories .small (forkedKernel, childFrames) 102 := by
  obtain ⟨t, hrun⟩ := childFrames_run
  refine bystander_memory (Option.some_get _).symm loadsOver_boot hrun apartFrames_run ?_ ?_ ?_
  · decide +kernel
  · decide +kernel
  · intro x hx
    obtain rfl := List.mem_singleton.1 hx
    decide +kernel

end Yalnix
