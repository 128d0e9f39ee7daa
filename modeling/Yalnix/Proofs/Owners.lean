import Yalnix.LifeRun
import Yalnix.Proofs.CallStep
import Yalnix.Proofs.ReclaimRun
import Yalnix.Proofs.LockRun

/-!
# The owners of locks

`terminate_process` looks at no lock. A process that owns none when it exits gets none afterwards: it is
on the zombie queue, so it makes no call and waits for nothing.
-/

namespace Yalnix

open Intrusive Transition

variable {hw : Hardware} {k k' k₀ : Kernel} {s s' : QueueId → List PcbPtr} {e : CallEvent} {p : PcbPtr}
  {T : WaitList → Prop} {t : List (Kernel × CallEvent)}

/-- The calls of `sync.c` leave the zombie queue alone. -/
theorem SyncMoves.zombie (h : SyncMoves p T k s k' s') : s' .zombie = s .zombie := by
  induction h with
  | refl => rfl
  | head hmove _ ih =>
    rw [ih]
    cases hmove with
    | own => rfl
    | block => simp
    | wake => simp [woken]
    | refill => rfl

/-- Nobody on the zombie queue owns a lock. -/
def LiveOwners (k : Kernel) (s : QueueId → List PcbPtr) : Prop :=
  ∀ i lock o, k.lock i = some lock → lock.owner = some o → o ∉ s .zombie

/-- A lock passes only to a caller or to a process that it wakes. -/
theorem LiveOwners.move (h : LiveOwners k s) (hc : Coherent k s) (hmove : SyncMove p T k s k' s') :
    LiveOwners k' s' := by
  have hzombie : s' .zombie = s .zombie := (SyncMoves.single hmove).zombie
  intro i lock o hl ho
  rw [hzombie]
  have hold : (∃ lock₀, k.lock i = some lock₀ ∧ lock₀.owner = some o) → o ∉ s .zombie := by
    rintro ⟨lock₀, hl₀, ho₀⟩
    exact h i lock₀ o hl₀ ho₀
  cases hmove with
  | own htouch hoff =>
    rcases htouch.owners i lock o hl ho with rfl | ho
    · exact hoff .zombie
    · exact hold ho
  | block htouch hoff =>
    rcases htouch.owners i lock o hl ho with rfl | ho
    · exact hoff .zombie
    · exact hold ho
  | @wake w q xs htouch hs =>
    rcases htouch.owners i lock o hl ho with rfl | ho
    · intro hz
      cases hc.unique hz (show o ∈ s (.wait w) by simp [hs])
    · exact hold ho
  | @refill w q htouch hq =>
    rcases htouch.owners i lock o hl ho with rfl | ho
    · intro hz
      cases hc.unique hz hq
    · exact hold ho

theorem LiveOwners.moves (h : LiveOwners k s) (hc : Coherent k s) (hmoves : SyncMoves p T k s k' s') :
    LiveOwners k' s' := by
  induction hmoves with
  | refl => exact h
  | head hmove _ ih => exact ih (h.move hc hmove) hmove.coherent

/-- Only calls of `sync.c` and `SyncReclaim` change objects. -/
theorem CallCase.objects (hcase : CallCase hw k s e k' s') (hsync : ∀ p c, e ≠ .sync p c)
    (hkeeps : e.Keeps) : k'.sync_table = k.sync_table := by
  cases hcase with
  | sync => exact absurd rfl (hsync _ _)
  | dies hrel => exact hrel.rest.1
  | notifies hrel => exact hrel.rest.1
  | clock hcase => rw [hcase.frame]
  | reclaims => exact hkeeps.elim
  | _ => rfl

theorem LockLife.keeps (h : LockLife e) : e.Keeps := by
  cases e with
  | reclaim => exact h.elim
  | _ => trivial

/-- The invariant of runs in which a process that exits owns no lock. -/
structure OwnerInv (t : List (Kernel × CallEvent)) (k : Kernel) (s : QueueId → List PcbPtr) : Prop where
  call : CallInv k s
  locks : LockInv k s
  waiting : ∀ p, (k.pcb p).waiting_for_children = 0
  dead : ∀ p, Terminated t p → p ∈ s .zombie
  owners : LiveOwners k s

namespace OwnerInv

/-- Nobody waits for a child, so every such step keeps the queues. -/
theorem keepsQueues (h : OwnerInv t k s) (he : LockLife e) : KeepsQueues k e := by
  cases e with
  | handler p u c =>
    cases c with
    | exit =>
      intro parent _ hwaiting
      exact absurd (h.waiting parent) hwaiting
    | fork => exact he.elim
    | wait => exact he.elim
    | delay => trivial
  | reclaim => exact he.elim
  | _ => trivial

/-- The zombie queue grows by the process that exits. -/
theorem zombie (h : OwnerInv t k s) (he : LockLife e) (hcase : CallCase hw k s e k' s') :
    (s' .zombie = s .zombie ∧ ∀ p u, e ≠ .handler p u .exit) ∨
    ∃ p u, e = .handler p u .exit ∧ s' .zombie = s .zombie ++ [p] := by
  cases hcase with
  | sync hmoves => exact Or.inl ⟨hmoves.zombie, by simp⟩
  | @quiet p u c v hc =>
    cases c with
    | delay => exact Or.inl ⟨rfl, by simp⟩
    | exit => exact absurd rfl hc
    | fork => exact he.elim
    | wait => exact he.elim
  | refork => exact he.elim
  | fork => exact he.elim
  | delays => exact Or.inl ⟨by simp, by simp⟩
  | waits => exact he.elim
  | reaps => exact he.elim
  | dies => exact Or.inr ⟨_, _, rfl, by simp⟩
  | notifies hrel _ _ _ hwaiting =>
    exact absurd ((hrel.waiting _).trans (h.waiting _)) hwaiting
  | clock => exact Or.inl ⟨by simp [tickedLists], by simp⟩
  | schedule hnext => exact Or.inl ⟨hnext.other (by simp), by simp⟩
  | store => exact he.elim
  | reclaimError => exact he.elim
  | reclaims => exact he.elim

/-- The locks stay as they are in a step that is no call of `sync.c`. -/
theorem locksKept (h : OwnerInv t k s) (he : LockLife e) (hcase : CallCase hw k s e k' s')
    (hcall : CallInv k' s') (hsync : ∀ p c, e ≠ .sync p c) : LockInv k' s' := by
  have hlock : ∀ i, k'.lock i = k.lock i := fun i => by
    unfold Kernel.lock
    rw [hcase.objects hsync he.keeps]
  have hwait := hcase.waitLists h.call (h.keepsQueues he) hsync
  refine ⟨hcall.coherent, hcall.table, fun i lock hl => ?_, fun i lock hl ho => ?_, fun i p hp => ?_⟩
  · exact h.locks.locked_iff i lock (hlock i ▸ hl)
  · rw [hwait]
    exact h.locks.contended i lock (hlock i ▸ hl) ho
  · rw [hwait] at hp
    have hid := h.locks.waiting i p hp
    rcases hcase.ids hsync p with ⟨-, q, u, rfl⟩ | ⟨hids, -⟩
    · exact he.elim
    · exact (hids .lock).trans hid

theorem step (h : OwnerInv t k s) (hen : (callMachine hw).enabled k e) (he : LockLife e)
    (hfree : ExitsFree k e) (hstep : (callMachine hw).step k e = some k') :
    ∃ s', OwnerInv (t ++ [(k, e)]) k' s' := by
  have hok := h.keepsQueues he
  obtain ⟨s', hcase⟩ := callStep_cases h.call hen hok hstep
  have hcall := hcase.inv h.call hen hok
  have hgrows := h.zombie he hcase
  refine ⟨s', hcall, ?_, fun p => ?_, fun p hp => ?_, ?_⟩
  · by_cases hsync : ∃ p c, e = .sync p c
    · obtain ⟨p, c, rfl⟩ := hsync
      have hen' : (syncMachine hw).enabled k (.call p c) := ⟨hen.1, hen.2.1⟩
      obtain ⟨s₁, lab, hlock, -⟩ := h.locks.step hen' he hstep
      rw [← hlock.inv.coherent.queue_eq, hcall.coherent.queue_eq] at hlock
      exact hlock.inv
    · exact h.locksKept he hcase hcall fun p c heq => hsync ⟨p, c, heq⟩
  · cases hcase.kin p with
    | keeps _ hflag => exact hflag.trans (h.waiting p)
    | child => exact he.elim
    | waits => exact he.elim
  · obtain ⟨x, hx, u, hexit⟩ := hp
    rcases List.mem_append.1 hx with hx | hx
    · have hz := h.dead p ⟨x, hx, u, hexit⟩
      rcases hgrows with ⟨heq, -⟩ | ⟨q, v, -, heq⟩
      · rwa [heq]
      · rw [heq]
        exact List.mem_append_left _ hz
    · obtain rfl := List.mem_singleton.1 hx
      rcases hgrows with ⟨-, hno⟩ | ⟨q, v, hq, heq⟩
      · exact absurd hexit (hno p u)
      · obtain ⟨rfl, -⟩ : p = q ∧ u = v := by simpa using hexit.symm.trans hq
        rw [heq]
        simp
  · by_cases hsync : ∃ p c, e = .sync p c
    · obtain ⟨p, c, rfl⟩ := hsync
      cases hcase with
      | sync hmoves =>
        have hstart : LiveOwners { k with current_process := p } s := h.owners
        exact hstart.moves (h.call.coherent.congr rfl rfl fun _ => rfl) hmoves
    · intro i lock o hl ho hz
      have hl : k.lock i = some lock := by
        unfold Kernel.lock at hl ⊢
        rwa [← hcase.objects (fun p c heq => hsync ⟨p, c, heq⟩) he.keeps]
      rcases hgrows with ⟨heq, -⟩ | ⟨q, u, rfl, heq⟩
      · exact h.owners i lock o hl ho (heq ▸ hz)
      · rw [heq, List.mem_append, List.mem_singleton] at hz
        rcases hz with hz | rfl
        · exact h.owners i lock o hl ho hz
        · exact hfree i lock hl ho

end OwnerInv

theorem LifeStart.ownerInv (h₀ : LifeStart k₀) : OwnerInv [] k₀ k₀.queue where
  call := h₀.call.inv
  locks := h₀.call.sync.lockInv
  waiting := h₀.waiting
  dead p hp := by
    obtain ⟨x, hx, -⟩ := hp
    cases hx
  owners i lock o hl := by simp [Kernel.lock, h₀.call.sync.noObject i] at hl

theorem ownerRun (h₀ : LifeStart k₀)
    (hrun : Run (callMachine hw) (fun k e => LockLife e ∧ ExitsFree k e) k₀ t k) :
    ∃ s, OwnerInv t k s :=
  hrun.traceInvariant (I := fun t k => ∃ s, OwnerInv t k s) ⟨_, h₀.ownerInv⟩
    fun _ _ _ _ ⟨_, hinv⟩ hen hok hstep => hinv.step hen hok.1 hok.2 hstep

/-- In every run in which a process that exits owns no lock, the owner of a lock has not exited, and a
process that waits for a lock waits for such an owner. -/
theorem dead_own_nothing (h₀ : LifeStart k₀)
    (hrun : Run (callMachine hw) (fun k e => LockLife e ∧ ExitsFree k e) k₀ t k) :
    (∀ i lock o, k.lock i = some lock → lock.owner = some o →
      ¬ Terminated t o ∧ (k.pcb o).state ≠ .processZombie) ∧
    ∀ i p, k.queues.OnList (.wait (.lockWaiters i)) p →
      ∃ lock o, k.lock i = some lock ∧ lock.owner = some o ∧ ¬ Terminated t o := by
  obtain ⟨s, hinv⟩ := ownerRun h₀ hrun
  have halive : ∀ i lock o, k.lock i = some lock → lock.owner = some o → ¬ Terminated t o :=
    fun i lock o hl ho hdead => hinv.owners i lock o hl ho (hinv.dead o hdead)
  refine ⟨fun i lock o hl ho => ⟨halive i lock o hl ho, fun hst => ?_⟩, fun i p hp => ?_⟩
  · exact hinv.owners i lock o hl ho (hinv.call.coherent.mem_of_state (Or.inr (Or.inr rfl)) hst)
  · have hp := hinv.call.coherent.onList_iff.1 hp
    cases hl : k.lock i with
    | none =>
      rw [hinv.call.table.lockWaiters_nil hl] at hp
      cases hp
    | some lock =>
      cases ho : lock.owner with
      | none =>
        rw [hinv.locks.contended i lock hl ho] at hp
        cases hp
      | some o => exact ⟨lock, o, rfl, ho, halive i lock o hl ho⟩

theorem LifeStart.createPcb (h : LifeStart k) (hw : Hardware) (hfree : k.OffQueues p) :
    LifeStart (Yalnix.createPcb hw k p) where
  call := h.call.createPcb hw hfree
  waiting n := by
    by_cases e : n = p
    · simp [Yalnix.createPcb, e]
    · simpa [Yalnix.createPcb, e] using h.waiting n

theorem Boot.smallProcesses_lifeStart : LifeStart Boot.smallProcesses := by
  have h : LifeStart Boot.smallKernel :=
    ⟨Boot.smallKernel_booted.callStart, Boot.smallKernel_booted.waiting⟩
  have h1 := h.createPcb .small (p := 102)
    (h.call.sync.coherent.offQueues_iff_state.2 (Or.inl (by decide)))
  exact h1.createPcb .small (p := 103)
    (h1.call.sync.coherent.offQueues_iff_state.2 (Or.inl (by decide)))

/-- Events without an exit are a run in which every process that exits owns no lock. -/
theorem LifeStart.exec {es : List CallEvent} (h₀ : LifeStart k₀)
    (hexec : (callMachine hw).exec k₀ es = some k)
    (hok : ∀ x ∈ (callMachine hw).trace k₀ es, callAllowed x.1 x.2 = true ∧ keepsQueues x.1 x.2 = true)
    (hlife : ∀ e ∈ es, LockLife e ∧ ∀ p u, e ≠ .handler p u .exit) :
    Run (callMachine hw) (fun k e => LockLife e ∧ ExitsFree k e) k₀ ((callMachine hw).trace k₀ es) k := by
  have hrun := h₀.call.exec (P := fun k e => KeepsQueues k e ∧ LockLife e ∧ ExitsFree k e) hexec hok
    (fun x hx hkeeps => ⟨hkeeps, (hlife x.2 (System.mem_trace hx)).1, ?_⟩) fun _ _ h => h.1
  · exact hrun.mono fun _ _ h => h.2
  · have hno := (hlife x.2 (System.mem_trace hx)).2
    unfold ExitsFree
    split
    · rename_i heq
      exact absurd heq (hno _ _)
    · trivial

/-- `103` waits for the lock of `102`, who gives it up. -/
def heirEvents : List CallEvent :=
  [.sync 102 (.initLock 8 true), .sync 102 (.lockAcquire 0), .sync 103 (.lockAcquire 0),
    .sync 102 (.lockRelease 0)]

def heirKernel : Kernel := ((callMachine .small).exec Boot.smallProcesses heirEvents).get (by decide +kernel)

/-- Then `102` exits. -/
def heirExit : CallEvent := .handler 102 Boot.small.uctxt .exit

def heirLast : Kernel := ((callMachine .small).step heirKernel heirExit).get (by decide +kernel)

theorem dead_own_nothing_small : (heirLast.lock 0).bind (·.owner) = some 103 ∧
    ¬ Terminated ((callMachine .small).trace Boot.smallProcesses heirEvents ++ [(heirKernel, heirExit)]) 103 := by
  have hrun := Boot.smallProcesses_lifeStart.exec (k := heirKernel) (Option.some_get _).symm
    (by decide +kernel) (by simp [heirEvents, LockLife, LockEvent])
  obtain ⟨s, hinv⟩ := ownerRun Boot.smallProcesses_lifeStart hrun
  have hen : (callMachine .small).enabled heirKernel heirExit := hinv.call.enabled (by decide +kernel)
  have hfree : ExitsFree heirKernel heirExit := by
    intro i lock hl ho
    obtain ⟨o, hobj, -⟩ := lock_eq_some hl
    have hbound := hinv.call.table.bound i o hobj
    have hall : ∀ j < MAX_SYNCS, (heirKernel.lock j).bind (·.owner) ≠ some 102 := by decide +kernel
    exact hall i hbound (by rw [hl]; exact ho)
  have howner : (heirLast.lock 0).bind (·.owner) = some 103 := by decide +kernel
  obtain ⟨lock, hl, ho⟩ := Option.bind_eq_some_iff.1 howner
  have hlast := hrun.snoc (c := heirLast) hen ⟨trivial, hfree⟩ (Option.some_get _).symm
  exact ⟨howner, ((dead_own_nothing Boot.smallProcesses_lifeStart hlast).1 0 lock 103 hl ho).1⟩

/-- `102` takes a lock. -/
def holdEvents : List CallEvent := [.sync 102 (.initLock 8 true), .sync 102 (.lockAcquire 0)]

def holdKernel : Kernel := ((callMachine .small).exec Boot.smallProcesses holdEvents).get (by decide +kernel)

def holdLast : Kernel := ((callMachine .small).step holdKernel heirExit).get (by decide +kernel)

/-- When `102` exits it still owns the lock. -/
theorem dead_own_nothing_fails : ∃ t k lock, Run (callMachine .small) (fun _ e => LockLife e)
    Boot.smallProcesses t k ∧ k.lock 0 = some lock ∧ lock.owner = some 102 ∧ Terminated t 102 := by
  have hrun := Boot.smallProcesses_lifeStart.exec (k := holdKernel) (Option.some_get _).symm
    (by decide +kernel) (by simp [holdEvents, LockLife, LockEvent])
  obtain ⟨s, hinv⟩ := ownerRun Boot.smallProcesses_lifeStart hrun
  have hen : (callMachine .small).enabled holdKernel heirExit := hinv.call.enabled (by decide +kernel)
  have howner : (holdLast.lock 0).bind (·.owner) = some 102 := by decide +kernel
  obtain ⟨lock, hl, ho⟩ := Option.bind_eq_some_iff.1 howner
  exact ⟨_, holdLast, lock, (hrun.mono fun _ _ h => h.1).snoc hen trivial (Option.some_get _).symm, hl,
    ho, (holdKernel, heirExit), by simp, _, rfl⟩

end Yalnix
