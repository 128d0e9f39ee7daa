import Yalnix.Proofs.FrameBoot

/-!
# Isolation of address spaces

In every run from boot in which `allocate_frame` finds a frame whenever it is called, and programs are loaded over
all pages of the old ones, no frame is mapped twice. An old page that a new program does not cover stays valid,
and the next fork takes its frame.
-/

namespace Yalnix

open Intrusive Paging Transition

variable {hw : Hardware} {b : Boot hw} {k k' k₀ : Kernel} {t : List (Kernel × TrapEvent)}

theorem spaceRun (h₀ : kernelStart b = some k₀) (hboot : LoadsOver hw b.initProgram fun _ => .zero)
    (hrun : Run (trapMachine hw) (fun k e => SpaceEvent e ∧ KeepsOwners hw k e) k₀ t k) :
    SpaceInv hw b.Reserved k :=
  hrun.invariant (kernelStart_space h₀ hboot) fun _ _ _ h hen hok hstep => h.step b.pfn_fits hen hok.1 hok.2 hstep

namespace OwnersInv

theorem marked_iff {apart : Nat → Prop} {f : Nat} (h : OwnersInv hw apart k) (hf : ¬ apart f) :
    k.mem.frame_bitMap f = true ↔ ∃ x, k.mapped hw x = some f := by
  rw [h.owned.marked_iff, or_iff_right hf]

end OwnersInv

/-- In every run from boot in which no allocation fails, every program is loaded over all pages of the old one,
and no fork gets an address that is linked, each frame but those reserved at boot is marked exactly when a live
process maps it, and mapped once. With frame 0 this holds exactly when the kernel itself uses that. -/
theorem frames_owned (h₀ : kernelStart b = some k₀) (hboot : LoadsOver hw b.initProgram fun _ => .zero)
    (hrun : Run (trapMachine hw) (fun k e => SpaceEvent e ∧ KeepsOwners hw k e) k₀ t k)
    (hroom : k.mem.exhausted = false) :
    FramesOwned hw b.Reserved t k ∧ (FramesOwned hw b.ImagePage t k ↔ b.ImagePage 0) := by
  have howners := (spaceRun h₀ hboot hrun).owners hroom
  have hall : FramesOwned hw b.Reserved t k := by
    refine ⟨fun f hf => howners.marked_iff hf, howners.owned.once, fun t₁ k₁ u ht f x hx hmaps => ?_⟩
    subst ht
    obtain ⟨hbefore, hen, hok, hstep⟩ := hrun.last
    obtain ⟨s, g, hinv⟩ := (spaceRun h₀ hboot hbefore).family
    obtain ⟨-, -, -, hcase⟩ := hinv.spaceStep hen hok.1 hok.2.1 hstep
    have hkept : k.mapped hw x = some f := by
      cases hcase with
      | same _ hsame => exact (hsame _).mapped.trans hmaps
      | exits _ _ _ hsame => exact (hsame _ hx).mapped.trans hmaps
    exact ⟨hkept, howners.owned.marked_of_maps hkept⟩
  refine ⟨hall, fun himage => ?_, fun hzero => ⟨fun f hf => hall.marked f ?_, hall.once, hall.exits⟩⟩
  · -- frame 0 is marked, and nobody maps it
    by_contra hno
    obtain ⟨x, hx⟩ := (himage.marked 0 hno).1 ((howners.owned.marked_iff 0).2 (Or.inl (Or.inl rfl)))
    exact howners.owned.notApart 0 x hx (Or.inl rfl)
  · rintro (rfl | hin)
    · exact hf hzero
    · exact hf hin

/-! ## The init process of the small machine -/

theorem loadsOver_small {old : Nat → Pte} (hold : ∀ i < Hardware.small.MAX_PT_LEN, (old i).valid = true →
    smallInfo.ImagePage .small .small i) : LoadsOver .small .small old := by
  intro li hli _
  obtain rfl : smallInfo = li := Option.some.inj hli
  have hapart : smallInfo.Apart .small .small := by
    apply small_apart <;> decide +kernel
  exact ⟨hapart, hold⟩

/-- It loads its program again, asks for a page of heap and exits; its child goes on. -/
def leaveEvents : List TrapEvent :=
  let u := Boot.small.uctxt
  [.kernel u (.exec .small), .kernel (u.setReg0 176) .brk, .kernel u .exit]

def leftKernel : Kernel := ((trapMachine .small).exec forkedKernel leaveEvents).get (by decide +kernel)

def leftTrace : List (Kernel × TrapEvent) :=
  (trapMachine .small).trace Boot.smallKernel dispatchEvents ++
    [(initKernel, .kernel Boot.small.uctxt (.fork 102))] ++ (trapMachine .small).trace forkedKernel leaveEvents

theorem leftKernel_run : Run (trapMachine .small) (fun k e => SpaceEvent e ∧ KeepsOwners .small k e)
    Boot.smallKernel leftTrace leftKernel := by
  have hdispatch : ∀ k, ∀ e ∈ dispatchEvents, FamilyEvent e ∧ FreesNobody k e := by
    simp [dispatchEvents, FamilyEvent, FreesNobody]
  have hdispatch' : ∀ k, ∀ e ∈ dispatchEvents, SpaceEvent e ∧ KeepsOwners .small k e := by
    simp [dispatchEvents, SpaceEvent, KeepsOwners, ForkUnlinked]
  have hen : (trapMachine .small).enabled initKernel (.kernel Boot.small.uctxt (.fork 102)) := by
    decide +kernel
  obtain ⟨s, f, hwhole⟩ := wholeRun Boot.smallKernel_booted.familyStart (initKernel_run hdispatch)
  have hfork : KeepsOwners .small initKernel (.kernel Boot.small.uctxt (.fork 102)) :=
    ⟨hwhole.orderly hen trivial, by simp⟩
  have hstep : (trapMachine .small).step initKernel (.kernel Boot.small.uctxt (.fork 102)) =
      some forkedKernel := (Option.some_get _).symm
  refine ((initKernel_run hdispatch').snoc hen ⟨trivial, hfork⟩ hstep).trans
    (Run.ofExec (Option.some_get _).symm fun x hx => ?_)
  have hen : ∀ x ∈ (trapMachine .small).trace forkedKernel leaveEvents,
      (trapMachine .small).enabled x.1 x.2 := by
    decide +kernel
  have hover : LoadsOver .small .small (forkedKernel.pcb forkedKernel.current_process).region1_pt :=
    loadsOver_small (by decide +kernel)
  refine ⟨hen x hx, ?_⟩
  have hhead : (trapMachine .small).trace forkedKernel leaveEvents =
      (forkedKernel, .kernel Boot.small.uctxt (.exec .small)) ::
        ((trapMachine .small).trace forkedKernel leaveEvents).tail := rfl
  rw [hhead, List.mem_cons] at hx
  rcases hx with rfl | htail
  · refine ⟨trivial, trivial, fun u req he => ?_⟩
    obtain ⟨-, hcall⟩ := TrapEvent.kernel.inj he
    obtain rfl := Syscall.exec.inj hcall
    exact hover
  · have hlater : x.2 ∈ [TrapEvent.kernel (Boot.small.uctxt.setReg0 176) .brk, .kernel Boot.small.uctxt .exit] :=
      System.mem_tail_trace htail
    rw [List.mem_pair] at hlater
    rcases hlater with he | he
    · rw [he]
      exact ⟨trivial, trivial, by simp⟩
    · rw [he]
      exact ⟨trivial, trivial, by simp⟩

/-- The frames of the child stay its own. -/
theorem frames_owned_small : FramesOwned .small Boot.small.Reserved leftTrace leftKernel ∧
    (FramesOwned .small Boot.small.ImagePage leftTrace leftKernel ↔ Boot.small.ImagePage 0) ∧
    ¬ leftKernel.Lives 101 ∧ leftKernel.Lives 102 := by
  have hboot : LoadsOver .small Boot.small.initProgram fun _ => .zero :=
    loadsOver_small fun i _ hv => by cases hv
  have h₀ : kernelStart Boot.small = some Boot.smallKernel := (Option.some_get _).symm
  obtain ⟨hall, himage⟩ := frames_owned h₀ hboot leftKernel_run (by decide +kernel)
  exact ⟨hall, himage, by decide +kernel, by decide +kernel⟩

/-- The init process asks for a page of heap, loads its program again, and forks. -/
def sharedEvents : List TrapEvent :=
  let u := Boot.small.uctxt
  dispatchEvents ++ [.kernel (u.setReg0 176) .brk, .kernel u (.exec .small), .kernel u (.fork 102)]

def sharedKernel : Kernel := ((trapMachine .small).exec Boot.smallKernel sharedEvents).get (by decide +kernel)

/-- The page of heap is not part of the program, and its frame has gone to the text of the child. -/
theorem frames_owned_fails : ∃ t, Run (trapMachine .small) (fun _ e => SpaceEvent e) Boot.smallKernel t sharedKernel ∧
    sharedKernel.mem.exhausted = false ∧ ∀ apart, ¬ FramesOwned .small apart t sharedKernel := by
  have hen : ∀ x ∈ (trapMachine .small).trace Boot.smallKernel sharedEvents,
      (trapMachine .small).enabled x.1 x.2 := by
    decide +kernel
  have hevents : ∀ e ∈ sharedEvents, SpaceEvent e := by simp [sharedEvents, dispatchEvents, SpaceEvent]
  refine ⟨_, Run.ofExec (Option.some_get _).symm fun x hx => ⟨hen x hx, hevents x.2 (System.mem_trace hx)⟩,
    by decide +kernel, fun apart howned => ?_⟩
  have hshared : sharedKernel.mapped .small (.page 101 2) = some 12 ∧
      sharedKernel.mapped .small (.page 102 0) = some 12 := by
    decide +kernel
  cases howned.once 12 _ _ hshared.1 hshared.2

end Yalnix
