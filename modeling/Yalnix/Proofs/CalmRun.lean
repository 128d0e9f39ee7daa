import Yalnix.Proofs.CalmStep
import Yalnix.Proofs.DelayRun

/-!
# No process runs while it waits

In the runs in which no call has to wait, a call on an object is over with its trap.
-/

namespace Yalnix

open Intrusive Transition

variable {hw : Hardware} {k k' k₀ k₁ b : Kernel} {s s' : QueueId → List PcbPtr} {p q : PcbPtr} {i : Nat}
  {u : UserContext} {e : TrapEvent} {t t₁ t₂ : List (Kernel × TrapEvent)} {P : Kernel → TrapEvent → Prop}

/-! ## Runs -/

theorem DispatchStart.calm (h₀ : DispatchStart k₀) : Calm hw k₀ k₀.queue where
  steady := .start h₀.delay
  call := h₀.call.inv
  noWaiter := h₀.call.sync.noWaiter
  sound i pipe hp := by simp [Kernel.pipe, h₀.call.sync.noObject i] at hp
  running _ := h₀.running
  suspended := h₀.suspended
  caller caller hno := by
    rw [h₀.delay.mode] at hno
    cases hno

theorem Calm.run (h : Calm hw b s) (hrun : Run (trapMachine hw) (NeverWaits hw) b t k) :
    ∃ s', Calm hw k s' := by
  refine hrun.invariant (I := fun k => ∃ s, Calm hw k s) ⟨s, h⟩ fun k e k' ⟨s, hs⟩ hen hok hstep => ?_
  obtain ⟨s', -, hs'⟩ := hs.step hen hok hstep
  exact ⟨s', hs'⟩

theorem firstState_eq (hrun : Run (trapMachine hw) P b t k) : firstState t k = b := by
  cases t with
  | nil => exact hrun.eq_of_nil
  | cons x t => exact hrun.head

/-- A call that goes back to its caller with its trap is back at once. -/
theorem Back.eq {x : Kernel × TrapEvent} (h : Back x t k) (hrun : Run (trapMachine hw) P b t k)
    (hmode : b.mode = .user) (hcurrent : b.current_process = x.1.current_process) : k = b := by
  cases t with
  | nil => exact hrun.eq_of_nil
  | cons y t =>
    refine absurd ?_ (h.first y List.mem_cons_self)
    rw [hrun.head]
    exact ⟨hmode, hcurrent⟩

/-! ## Locks -/

/-- Whoever holds a lock holds it until it releases it. -/
theorem CalmCase.holds (hcase : CalmCase hw k s e k' s') (h : k.Holds p i) :
    k'.Holds p i ∨ ∃ v, e = .kernel v .lockRelease ∧ v.regs 0 = i ∧ p = k.current_process := by
  have hsame : k'.sync_table = k.sync_table → k'.Holds p i := fun e => by
    rwa [Kernel.Holds, Kernel.lock, e]
  cases hcase with
  | quiet hmode hquiet =>
    refine (hquiet.held p i h).imp id ?_
    rintro ⟨rfl, hid, hp⟩
    exact ⟨_, rfl, hid, hp⟩
  | handler hmode hcall hcase => exact Or.inl (hsame hcase.handled.objects)
  | clock hmode hcase => exact Or.inl (hsame (by rw [hcase.frame]))
  | schedule => exact Or.inl (hsame rfl)
  | resume hmode heq => exact Or.inl (hsame (by rw [heq]))

theorem Calm.holdsRun (h : Calm hw b s) (hrun : Run (trapMachine hw) (NeverWaits hw) b t k)
    (hp : b.Holds p i) (hno : ∀ y ∈ t, y.1.current_process = p → ∀ v, y.2 = .kernel v .lockRelease →
      v.regs 0 ≠ i) : k.Holds p i := by
  have hrun := hrun.restrict (Q := fun k e => k.current_process = p → ∀ v, e = .kernel v .lockRelease →
    v.regs 0 ≠ (i : Int)) hno
  refine (hrun.invariant (I := fun k => (∃ s, Calm hw k s) ∧ k.Holds p i) ⟨⟨s, h⟩, hp⟩ ?_).2
  rintro k e k' ⟨⟨s, hs⟩, hp⟩ hen ⟨hok, hno⟩ hstep
  obtain ⟨s', hcase, hs'⟩ := hs.step hen hok hstep
  refine ⟨⟨s', hs'⟩, (hcase.holds hp).resolve_right ?_⟩
  rintro ⟨v, rfl, hid, rfl⟩
  exact hno rfl v rfl hid

/-- A call of `SysLockAcquire` that is back has failed, or its caller holds the lock. -/
theorem acquire_back (h₀ : DispatchStart k₀)
    (hrun : Run (trapMachine hw) (NeverWaits hw) k₀ (t₁ ++ (k₁, .kernel u .lockAcquire) :: t₂) k)
    (hback : Back (k₁, .kernel u .lockAcquire) t₂ k) :
    k.uctxt.regs 0 = ERROR ∨ ∃ i : Nat, u.regs 0 = i ∧ k.Holds k₁.current_process i := by
  obtain ⟨b, hbefore, ⟨hmode, hidle, -⟩, hok, hstep, hafter⟩ := hrun.split
  obtain ⟨s, h⟩ := h₀.calm.run hbefore
  have hu : Calm hw { k₁ with uctxt := u } s := h.congr rfl
  obtain ⟨hquiet, hres⟩ := hu.lockAcquire hmode hidle hok hstep
  obtain rfl := hback.eq hafter (hquiet.mode.trans hmode) hquiet.current
  exact hres

theorem PastAcquire.holds (h₀ : DispatchStart k₀) (hrun : Run (trapMachine hw) (NeverWaits hw) k₀ t k)
    (h : PastAcquire t k p i) : k.Holds p i := by
  obtain ⟨t₁, k₁, u, t₂, t₃, rfl, rfl, hid, hback, hok, hno⟩ := h
  rw [← List.cons_append, ← List.append_assoc] at hrun
  obtain ⟨b, hbefore, hafter⟩ := hrun.parts
  obtain rfl := firstState_eq hafter
  rcases acquire_back h₀ hbefore hback with herror | ⟨j, hj, hp⟩
  · exact absurd herror hok
  · obtain rfl : j = i := by omega
    obtain ⟨s, h⟩ := h₀.calm.run hbefore
    exact h.holdsRun hafter hp hno

/-! ## Pipes -/

theorem withBuffer_self (k : Kernel) (kbuf : BufPtr) : k.withBuffer kbuf (k.kbuf kbuf) = k := by
  simp [Kernel.withBuffer]

namespace Calm

theorem readTransferred (h : Calm hw k s) (hmode : k.mode = .user) (hidle : k.current_process ≠ k.idle_process)
    {kbuf : BufPtr} (hgo : GoesOn hw k k.uctxt (.pipeRead kbuf)) (hstep : sysPipeRead hw k kbuf = some k') :
    Transferred hw k (.read kbuf) k' := by
  intro rc k₁ hsync
  have hsync : syncReadPipe hw (k.mallocBuffer kbuf) (k.uctxt.regs 0) kbuf (k.uctxt.regs 2) = some (rc, k₁) :=
    hsync
  have hnew : Calm hw (k.mallocBuffer kbuf) s := h.congr rfl
  have hoff := h.off hmode
  have hout : ReadOutcome hw (k.mallocBuffer kbuf) kbuf ((k.mallocBuffer kbuf).kbuf kbuf) k' :=
    hnew.shape.readOutcome hoff hidle (mallocBuffer_live k kbuf)
      (by rw [withBuffer_self]; exact (sysPipeRead_malloc k kbuf).trans hstep)
  cases hout with
  | refused hno =>
    left
    have hend := readPipe_ends hnew.steady.coherent hnew.sound hoff hidle hsync
    have hno : readable (k.mallocBuffer kbuf) (k.uctxt.regs 0) = false := hno
    generalize k.uctxt.regs 0 = id at hend hno
    cases hend with
    | error => rfl
    | blocked hopen =>
      rw [hno] at hopen
      cases hopen
    | taken hopen =>
      rw [hno] at hopen
      cases hopen
  | @copied pipe h' hp hopen hlen hhist hmoved hstores =>
    right
    obtain ⟨pipe', hp', hne⟩ := hgo hopen
    obtain rfl : pipe = pipe' := Option.some.inj (hp.symm.trans hp')
    have hpos := (h.sound _ pipe hp).nonneg
    have hlength := (pipe.length_taken (k.uctxt.regs 2) : (pipe.taken hw (k.uctxt.regs 2)).length = _)
    have hlen : 0 ≤ k.uctxt.regs 2 := hlen
    have hmoved : movedBytes (k.uctxt.regs 0).toNat k.current_process h' = pipe.taken hw (k.uctxt.regs 2) :=
      hmoved
    refine ⟨h', hhist, ?_⟩
    rw [hmoved]
    refine ⟨by omega, fun hwant hnil => ?_, _, hstores, List.prefix_append _ _⟩
    rw [hnil, List.length_nil] at hlength
    omega

theorem writeTransferred (h : Calm hw k s) (hmode : k.mode = .user)
    (hidle : k.current_process ≠ k.idle_process) {kbuf : BufPtr} {data : Nat → UInt8}
    (hgo : GoesOn hw k k.uctxt (.pipeWrite kbuf data)) (hstep : sysPipeWrite hw k kbuf data = some k') :
    Transferred hw k (.write kbuf data) k' := by
  intro rc k₁ hsync
  have hlen : 0 ≤ k.uctxt.regs 2 := by
    by_contra hneg
    simp [sysPipeWrite, lt_of_not_ge hneg] at hstep
  have hcopied : Calm hw (k.copyFromUser kbuf data (k.uctxt.regs 2)) s := h.congr rfl
  rcases hcopied.shape.writeOutcome (hcopied.off hmode) hidle hlen (mallocBuffer_live k kbuf) hsync with
    ⟨rfl, -, -⟩ | ⟨hne, hrc, hopen, hcase⟩
  · exact Or.inl rfl
  · right
    rw [sysPipeWrite_eq hlen hsync hrc, if_neg hne] at hstep
    obtain rfl := Option.some.inj hstep
    rcases hcase with ⟨-, -, hist, hhist, hmoved⟩ | ⟨hat, -⟩
    · refine ⟨hist, hhist, ?_⟩
      have hmoved : (movedBytes (k.uctxt.regs 0).toNat k.current_process hist).length =
        (k.uctxt.regs 2).toNat := hmoved
      show ((movedBytes (k.uctxt.regs 0).toNat k.current_process hist).length : Int) = k.uctxt.regs 2
      omega
    · exact absurd (Or.inl (hgo hopen)) hat

end Calm

/-- A pipe call that is back has moved its bytes, or was refused. -/
theorem transfer_back (h₀ : DispatchStart k₀) {c : PipeSyscall}
    (hrun : Run (trapMachine hw) (NeverWaits hw) k₀ (t₁ ++ (k₁, .kernel u c.syscall) :: t₂) k)
    (hback : Back (k₁, .kernel u c.syscall) t₂ k) : Transferred hw { k₁ with uctxt := u } c k := by
  obtain ⟨b, hbefore, ⟨hmode, hidle, -⟩, hok, hstep, hafter⟩ := hrun.split
  obtain ⟨s, h⟩ := h₀.calm.run hbefore
  have hu : Calm hw { k₁ with uctxt := u } s := h.congr rfl
  cases c with
  | read kbuf =>
    have hquiet := hu.pipeRead hmode hidle hok hstep
    obtain rfl := hback.eq hafter (hquiet.mode.trans hmode) hquiet.current
    exact hu.readTransferred hmode hidle hok hstep
  | write kbuf data =>
    have hquiet := hu.pipeWrite hmode hidle hok hstep
    obtain rfl := hback.eq hafter (hquiet.mode.trans hmode) hquiet.current
    exact hu.writeTransferred hmode hidle hok hstep

/-! ## The theorem -/

/-- In every run in which no call has to wait, no process runs while it waits. -/
theorem no_running_waiter (h₀ : DispatchStart k₀) (hrun : Run (trapMachine hw) (NeverWaits hw) k₀ t k) :
    NoRunningWaiter hw t k where
  free hmode := by
    obtain ⟨s, h⟩ := h₀.calm.run hrun
    exact ⟨h.running hmode, h.steady.coherent.offQueues_iff.2 (h.off hmode)⟩
  acquired := by
    rintro t₁ k₁ u t₂ rfl hback
    refine (acquire_back h₀ hrun hback).imp id ?_
    rintro ⟨i, hid, hp⟩
    exact ⟨i, hid, _, hp, rfl⟩
  exclusive p q i hp hq := by
    have hp := hp.holds h₀ hrun
    have hq := hq.holds h₀ hrun
    simpa using hp.symm.trans hq
  transferred := by
    rintro t₁ k₁ u c t₂ rfl hback
    exact transfer_back h₀ hrun hback

/-- The kernel is booted into such a state. -/
theorem Booted.dispatchStart {b : Boot hw} (h : Booted b k) : DispatchStart k where
  delay := h.delayStart
  call := h.callStart
  running := by
    rw [h.current]
    exact h.state_idle
  suspended p caller hp := by
    by_cases e : p = b.init_pcb
    · rw [e, h.context_init] at hp
      cases hp
    · rw [h.context_other p e] at hp
      cases hp

/-- `NeverWaits`, of steps that are no forks. -/
def neverWaits (hw : Hardware) (k : Kernel) : TrapEvent → Bool
  | .kernel _ (.fork _) => false
  | .kernel u c => GoesOn hw k u c
  | _ => true

theorem neverWaits_imp (h : neverWaits hw k e = true) : NeverWaits hw k e := by
  cases e with
  | kernel u c =>
    cases c with
    | fork => cases h
    | _ => simpa [neverWaits, NeverWaits] using h
  | _ => trivial

/-- The init process makes a lock and a pipe, and writes a byte to the pipe with the lock held. -/
def heldWriteEvents : List TrapEvent :=
  let u := Boot.small.uctxt
  dispatchEvents ++
    [.kernel (u.setReg0 140) (.lockInit true), .kernel (u.setReg0 144) (.pipeInit true fun _ => 0),
      .kernel (u.setReg0 0) .lockAcquire,
      .kernel { u with regs := fun i => if i = 1 then 140 else 1 } (.pipeWrite 0 fun _ => 7)]

def heldWriteKernel : Kernel :=
  ((trapMachine .small).exec Boot.smallKernel heldWriteEvents).get (by decide +kernel)

theorem no_running_waiter_small : heldWriteKernel.Owns 101 0 ∧
    NoRunningWaiter .small ((trapMachine .small).trace Boot.smallKernel heldWriteEvents) heldWriteKernel := by
  have hen : ∀ x ∈ (trapMachine .small).trace Boot.smallKernel heldWriteEvents,
      (trapMachine .small).enabled x.1 x.2 ∧ neverWaits .small x.1 x.2 = true := by
    decide +kernel
  have howner : (heldWriteKernel.lock 0).map Lock.owner = some (some 101) := by decide +kernel
  refine ⟨Option.map_eq_some_iff.1 howner, ?_⟩
  exact no_running_waiter Boot.smallKernel_booted.dispatchStart <|
    Run.ofExec (Option.some_get _).symm fun x hx => (hen x hx).imp_right neverWaits_imp

/-- The init process makes a pipe, and reads from it while it is empty. -/
def emptyReadEvents : List TrapEvent :=
  let u := Boot.small.uctxt
  dispatchEvents ++ [.kernel (u.setReg0 140) (.pipeInit true fun _ => 0),
    .kernel { u with regs := fun i => if i = 1 then 140 else if i = 2 then 1 else 0 } (.pipeRead 0)]

def emptyReadKernel : Kernel :=
  ((trapMachine .small).exec Boot.smallKernel emptyReadEvents).get (by decide +kernel)

/-- It goes on in user mode, and is on the wait list of the pipe. -/
theorem no_running_waiter_fails : ¬ ∀ (hw : Hardware) (k₀ k : Kernel) (t : List (Kernel × TrapEvent)),
    DispatchStart k₀ → Run (trapMachine hw) (fun _ _ => True) k₀ t k → NoRunningWaiter hw t k := by
  intro h
  have hen : ∀ x ∈ (trapMachine .small).trace Boot.smallKernel emptyReadEvents,
      (trapMachine .small).enabled x.1 x.2 := by
    decide +kernel
  have hfree := (h .small _ emptyReadKernel _ Boot.smallKernel_booted.dispatchStart <|
    Run.ofExec (Option.some_get _).symm fun x hx => ⟨hen x hx, trivial⟩).free (by decide +kernel)
  exact absurd hfree.1 (by decide +kernel)

end Yalnix
