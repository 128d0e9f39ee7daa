import Yalnix.Proofs.LockMoves
import Yalnix.Proofs.Clock
import Yalnix.Proofs.TableRun

/-!
# One step of a run of calls

Every step, with the state and the lists that it leaves, and what every step keeps.
-/

namespace Yalnix

open Intrusive Transition

variable {hw : Hardware} {k k' : Kernel} {s s' : QueueId → List PcbPtr} {e : CallEvent} {p : PcbPtr}

/-- The handler that the process `p` enters with the registers `u`. -/
def Kernel.enter (k : Kernel) (p : PcbPtr) (u : UserContext) : Kernel :=
  { k with current_process := p, uctxt := u }

/-- The state after `SyncReclaim` of the object in slot `i`. -/
def reclaimed (k : Kernel) (i : Nat) (q : Heap QueueId PcbPtr) : Kernel :=
  { k with
    queues := q
    id_used := Function.update k.id_used i false
    global_sync_counter := k.global_sync_counter - 1
    sync_table := Function.update k.sync_table i none }

/-- The lists after the wait lists of slot `i` were cleared. -/
def clearedLists (s : QueueId → List PcbPtr) (i : Nat) : QueueId → List PcbPtr
  | .wait w => if w.slot = i then [] else s (.wait w)
  | l => s l

/-- What a step can do, and the lists it leaves. -/
inductive CallCase (hw : Hardware) (k : Kernel) (s : QueueId → List PcbPtr) :
    CallEvent → Kernel → (QueueId → List PcbPtr) → Prop where
  | sync {p : PcbPtr} {c : SyncCall} {k' : Kernel} {s' : QueueId → List PcbPtr}
      (hmoves : SyncMoves p c.Touches { k with current_process := p } s k' s') :
      CallCase hw k s (.sync p c) k' s'
  | quiet {p : PcbPtr} {u : UserContext} {c : ProcessCall} (v : Int) (hc : c ≠ .exit) :
      CallCase hw k s (.handler p u c) ((k.enter p u).returnValue v) s
  | refork {p child : PcbPtr} {u : UserContext} :
      CallCase hw k s (.handler p u (.fork child)) (((k.enter p u).modifyPcb p fun pcb =>
        { pcb with should_fork := true }).returnValue 0) s
  | fork {p child : PcbPtr} {u : UserContext} {m : Memory} {pt stack : Nat → Pte}
      {family : Heap PcbPtr PcbPtr} {q : Heap QueueId PcbPtr} (hoff : ∀ l, child ∉ s l)
      (hfresh : k.allocated child = false)
      (hc : Coherent (forked hw (k.enter p u) child m pt stack family q)
        (Function.update s .ready (s .ready ++ [child]))) :
      CallCase hw k s (.handler p u (.fork child)) (forked hw (k.enter p u) child m pt stack family q)
        (Function.update s .ready (s .ready ++ [child]))
  | delays {p : PcbPtr} {u : UserContext} {q : Heap QueueId PcbPtr}
      (hc : Coherent (delaying (k.enter p u) q) (Function.update s .delay (s .delay ++ [p]))) :
      CallCase hw k s (.handler p u .delay) (delaying (k.enter p u) q)
        (Function.update s .delay (s .delay ++ [p]))
  | waits {p : PcbPtr} {u : UserContext} {kstatus_ptr : Int} {q : Heap QueueId PcbPtr}
      (hc : Coherent (waitingForChild (k.enter p u) kstatus_ptr q)
        (Function.update s .blocked (s .blocked ++ [p]))) :
      CallCase hw k s (.handler p u (.wait kstatus_ptr)) (waitingForChild (k.enter p u) kstatus_ptr q)
        (Function.update s .blocked (s .blocked ++ [p]))
  | reaps {p z : PcbPtr} {u : UserContext} {kstatus_ptr : Int} {q : Heap QueueId PcbPtr}
      (hzombie : z ∈ s .zombie) (hfind : findZombieChild (k.enter p u) p = some (some z))
      (hc : Coherent (reaped (k.enter p u) z q) (Function.update s .zombie ((s .zombie).erase z))) :
      CallCase hw k s (.handler p u (.wait kstatus_ptr)) (reaped (k.enter p u) z q)
        (Function.update s .zombie ((s .zombie).erase z))
  | dies {p : PcbPtr} {u : UserContext} {k₁ : Kernel} {q : Heap QueueId PcbPtr}
      (hrel : Released hw (k.enter p u) (u.regs 0) k₁)
      (hparent : ∀ parent, (k₁.pcb p).parent = some parent →
        (k₁.pcb parent).waiting_for_children = 0)
      (hc : Coherent (({ k₁.setState p .processZombie with queues := q } : Kernel).callSchedule .sysExit)
        (Function.update s .zombie (s .zombie ++ [p]))) :
      CallCase hw k s (.handler p u .exit)
        (({ k₁.setState p .processZombie with queues := q } : Kernel).callSchedule .sysExit)
        (Function.update s .zombie (s .zombie ++ [p]))
  | notifies {p parent : PcbPtr} {u : UserContext} {k₁ : Kernel} {q : Heap QueueId PcbPtr}
      {st : ProcessState} {s' : QueueId → List PcbPtr}
      (hrel : Released hw (k.enter p u) (u.regs 0) k₁) (hne : parent ≠ p)
      (hnidle : parent ≠ k.idle_process) (hparent : (k₁.pcb p).parent = some parent)
      (hwaiting : (k₁.pcb parent).waiting_for_children ≠ 0)
      (hcase : NotifyCase k₁ s parent st s')
      (hc : Coherent ((notified k₁ p parent (u.regs 0) st q).callSchedule .sysExit) s') :
      CallCase hw k s (.handler p u .exit)
        ((notified k₁ p parent (u.regs 0) st q).callSchedule .sysExit) s'
  | clock {u : UserContext} {k' : Kernel} (hcase : ClockCase { k with uctxt := u } s k') :
      CallCase hw k s (.clock u) k' (tickedLists k s (s .delay) [])
  | schedule {caller : ScheduleCaller} {next : PcbPtr} {q : Heap QueueId PcbPtr}
      {s' : QueueId → List PcbPtr} (hnext : Next k s next s')
      (hc : Coherent (switched hw k caller next q) s') :
      CallCase hw k s (.schedule caller) (switched hw k caller next q) s'
  | store {buf : BufPtr} {bytes : Nat → UInt8} :
      CallCase hw k s (.store buf bytes) { k with kbuf := Function.update k.kbuf buf bytes } s
  | reclaimError {id : Int} (hcheck : getCheckSync k id = none) : CallCase hw k s (.reclaim id) k s
  | reclaims {i : Nat} {o : SyncObj} {q : Heap QueueId PcbPtr} (ho : k.sync_table i = some o)
      (hrep : q.Rep Set.univ (clearedLists s i)) :
      CallCase hw k s (.reclaim i) (reclaimed k i q) (clearedLists s i)

/-! ## Reclaiming -/

theorem clearLists_rep {q : Heap QueueId PcbPtr} (ws : List WaitList) (hq : q.Rep Set.univ s) :
    ∃ q', clearLists ws q = some q' ∧
      q'.Rep Set.univ (fun l => if ∃ w ∈ ws, l = .wait w then [] else s l) := by
  induction ws generalizing q s with
  | nil => exact ⟨q, rfl, by simpa using hq⟩
  | cons v ws ih =>
    obtain ⟨q₁, hclear, hq₁⟩ := hq.clearList (Set.mem_univ (.wait v))
    obtain ⟨q', hrest, hq'⟩ := ih hq₁
    refine ⟨q', by rw [clearLists, hclear]; exact hrest, ?_⟩
    convert hq' using 1
    funext l
    by_cases hv : l = .wait v
    · subst hv
      simp
    · by_cases hws : ∃ w ∈ ws, l = .wait w
      · rw [if_pos hws, if_pos]
        obtain ⟨w, hw, rfl⟩ := hws
        exact ⟨w, List.mem_cons_of_mem v hw, rfl⟩
      · rw [if_neg hws, Function.update_of_ne hv, if_neg]
        rintro ⟨w, hw, rfl⟩
        rcases List.mem_cons.1 hw with rfl | hw
        · exact hv rfl
        · exact hws ⟨w, hw, rfl⟩

/-- The wait lists of a slot that fit its object are the object's. -/
theorem WaitList.mem_waitLists {w : WaitList} {x : SyncObject} (h : w.Fits x) :
    w ∈ x.waitLists w.slot := by
  cases w <;> cases x <;> simp_all [WaitList.Fits, SyncObject.waitLists, WaitList.slot]

theorem SyncTable.cleared (ht : SyncTable k s) {i : Nat} {o : SyncObj} (ho : k.sync_table i = some o) :
    (fun l => if ∃ w ∈ o.object.waitLists i, l = .wait w then [] else s l) = clearedLists s i := by
  funext l
  cases l with
  | wait w =>
    by_cases hslot : w.slot = i
    · subst hslot
      simp only [clearedLists, if_pos]
      split
      · rfl
      · rename_i hno
        refine List.eq_nil_iff_forall_not_mem.2 fun n hn => hno ?_
        obtain ⟨o', ho', hfit⟩ := ht.fits w n hn
        obtain rfl := Option.some.inj (ho.symm.trans ho')
        exact ⟨w, w.mem_waitLists hfit, rfl⟩
    · rw [clearedLists, if_neg hslot, if_neg]
      rintro ⟨v, hv, e⟩
      obtain rfl := QueueId.wait.inj e
      exact hslot (SyncObject.slot_of_mem_waitLists hv)
  | ready => simp [clearedLists]
  | delay => simp [clearedLists]
  | blocked => simp [clearedLists]
  | zombie => simp [clearedLists]

/-- `SyncReclaim` of a live object unlinks whoever waits for it. -/
theorem syncReclaim_eq (hc : Coherent k s) (ht : SyncTable k s) {i : Nat} {o : SyncObj}
    (ho : k.sync_table i = some o) : ∃ q, syncReclaim k i = some (SUCCESS, reclaimed k i q) ∧
      q.Rep Set.univ (clearedLists s i) := by
  obtain ⟨q, hclear, hq⟩ := clearLists_rep (o.object.waitLists i) hc.rep
  rw [ht.cleared ho] at hq
  have hbound := ht.bound i o ho
  have hfree : freeID { k with queues := q } i = { k with
      queues := q
      id_used := Function.update k.id_used i false
      global_sync_counter := k.global_sync_counter - 1 } := by
    rw [freeID, if_pos ⟨by omega, by omega, by simpa using ht.used i o ho⟩, Int.toNat_natCast]
  refine ⟨q, ?_, hq⟩
  simp only [syncReclaim, getCheckSync_of_slot ht ho, Int.toNat_natCast, hclear, Option.bind_eq_bind,
    Option.bind_some, hfree]
  rfl

/-! ## Every step is one of the cases -/

theorem Coherent.enter (hc : Coherent k s) (u : UserContext) : Coherent (k.enter p u) s :=
  hc.congr rfl rfl fun _ => rfl

/-- The process `p` may enter the handler: it is not the idle process, and forks at no address that is in
use or its own. -/
structure MayEnter (k : Kernel) (p : PcbPtr) (c : ProcessCall) : Prop where
  notIdle : p ≠ k.idle_process
  fresh : c.Fresh k
  other : ∀ child, c = .fork child → child ≠ p

theorem Kernel.MayCall.enters {c : ProcessCall} (h : k.MayCall p) (hfresh : c.Fresh k) :
    MayEnter k p c where
  notIdle := h.2.1
  fresh := hfresh
  other := by
    rintro child rfl rfl
    have hfresh : k.allocated child = false := hfresh
    rw [h.2.2] at hfresh
    cases hfresh

theorem handler_cases (h : CallInv k s) {u : UserContext} {c : ProcessCall} (hoff : ∀ l, p ∉ s l)
    (hcall : MayEnter k p c) (hok : KeepsQueues k (.handler p u c))
    (hstep : c.run hw (k.enter p u) = some k') : ∃ s', CallCase hw k s (.handler p u c) k' s' := by
  have hc : Coherent (k.enter p u) s := h.coherent.enter u
  obtain ⟨hidle, hfresh, hother⟩ := hcall
  cases c with
  | fork child =>
    have hchild := h.coherent.offQueues_iff.1 hok
    have hfresh : k.allocated child = false := hfresh
    have hnidle : child ≠ k.idle_process := fun e => by
      rw [e, h.idle_allocated] at hfresh
      cases hfresh
    cases sysFork_cases hc hchild (hother child rfl) hnidle hstep with
    | child hflag heq => exact ⟨s, heq ▸ .refork⟩
    | parent hflag hmem hins heq hc' =>
      subst heq
      exact ⟨_, .fork hchild hfresh hc'⟩
  | wait kstatus_ptr =>
    cases sysWait_cases hc hoff hidle hstep with
    | childless hempty heq => exact ⟨s, heq ▸ .quiet _ (by simp)⟩
    | waits hempty hnone heq hc' =>
      subst heq
      exact ⟨_, .waits hc'⟩
    | reaps hempty hz hzombie heq hc' =>
      subst heq
      exact ⟨_, .reaps hzombie hz hc'⟩
  | exit =>
    have hparent : ∀ parent, (k.pcb p).parent = some parent →
        parent ≠ p ∧ ((k.pcb parent).waiting_for_children ≠ 0 → parent ≠ k.idle_process ∧
          ((k.pcb parent).state = .processBlocked → parent ∈ s .blocked)) := by
      intro parent hpar
      refine ⟨fun e => h.parents p (e ▸ hpar), fun hwait => ⟨fun e => ?_, fun hblocked => ?_⟩⟩
      · rw [e, h.idle_flag] at hwait
        exact hwait rfl
      · exact h.coherent.onList_iff.1 (hok parent hpar hwait hblocked)
    obtain ⟨k₁, hrel, hcase⟩ := sysExit_cases hc hoff hidle hparent hstep
    have hr := releaseProcess_released hrel
    cases hcase with
    | zombie hpar heq hc' =>
      subst heq
      exact ⟨_, .dies hr hpar hc'⟩
    | @notifies q parent st s' hpar hwait hcase heq hc' =>
      subst heq
      obtain ⟨hne, hflag⟩ := hparent parent (hr.parent hpar)
      have hflagged : (k.pcb parent).waiting_for_children ≠ 0 := fun e =>
        hwait ((hr.waiting parent).trans e)
      exact ⟨s', .notifies hr hne (hflag hflagged).1 hpar hwait hcase hc'⟩
  | delay =>
    rcases sysDelay_cases hc hoff hidle hstep with ⟨-, v, heq⟩ | ⟨-, q, heq, hc'⟩
    · exact ⟨s, heq ▸ .quiet v (by simp)⟩
    · subst heq
      exact ⟨_, .delays hc'⟩

/-- Every step that keeps the queues is one of the cases. -/
theorem callStep_cases (h : CallInv k s) (hen : (callMachine hw).enabled k e) (hok : KeepsQueues k e)
    (hstep : (callMachine hw).step k e = some k') : ∃ s', CallCase hw k s e k' s' := by
  cases e with
  | sync p c =>
    obtain ⟨hoff, hidle, -⟩ := hen
    obtain ⟨⟨rc, k₁⟩, hrun, rfl⟩ := Option.map_eq_some_iff.1 hstep
    have hc : Coherent { k with current_process := p } s := h.coherent.congr rfl rfl fun _ => rfl
    have ht : SyncTable { k with current_process := p } s :=
      h.table.congr rfl rfl fun _ _ hn => Or.inl hn
    obtain ⟨s', hmoves⟩ := syncCall_moves hc ht (h.coherent.offQueues_iff.1 hoff) hidle hrun
    exact ⟨s', .sync hmoves⟩
  | handler p u c =>
    exact handler_cases h (h.coherent.offQueues_iff.1 hen.1.1) (hen.1.enters hen.2) hok hstep
  | clock u =>
    have hoff := h.coherent.offQueues_iff.1 hen
    have hc : Coherent { k with uctxt := u } s := h.coherent.congr rfl rfl fun _ => rfl
    exact ⟨_, .clock (clockHandler_cases hc hoff hstep)⟩
  | schedule caller =>
    obtain ⟨next, s', q, rfl, hnext, hc'⟩ := h.coherent.schedule_some hstep
    exact ⟨s', .schedule hnext hc'⟩
  | store buf bytes =>
    obtain rfl := Option.some.inj hstep
    exact ⟨s, .store⟩
  | reclaim id =>
    obtain ⟨⟨rc, k₁⟩, hrun, rfl⟩ := Option.map_eq_some_iff.1 hstep
    cases hcheck : getCheckSync k id with
    | none =>
      rw [syncReclaim, hcheck, Option.some.injEq, Prod.mk.injEq] at hrun
      obtain ⟨-, rfl⟩ := hrun
      exact ⟨s, .reclaimError hcheck⟩
    | some o =>
      obtain ⟨ho, hid⟩ := getCheckSync_eq_some hcheck
      generalize id.toNat = i at ho hid
      subst hid
      obtain ⟨q, heq, hq⟩ := syncReclaim_eq h.coherent h.table ho
      obtain ⟨-, rfl⟩ := Prod.mk.inj (Option.some.inj (hrun.symm.trans heq))
      exact ⟨_, .reclaims ho hq⟩

/-! ## What every step keeps -/

/-- Nobody waits for the object in slot `i`. -/
theorem SyncTable.quiet (ht : SyncTable k s) {i : Nat} {o : SyncObj} (ho : k.sync_table i = some o)
    (hquiet : ∀ w ∈ o.object.waitLists i, s (.wait w) = []) : clearedLists s i = s := by
  rw [← ht.cleared ho]
  funext l
  split
  · rename_i hw
    obtain ⟨w, hw, rfl⟩ := hw
    exact (hquiet w hw).symm
  · rfl

theorem CallInv.quiet (h : CallInv k s) {i : Nat} {o : SyncObj} (ho : k.sync_table i = some o)
    (hok : KeepsQueues k (.reclaim i)) : clearedLists s i = s := by
  refine h.table.quiet ho fun w hw => ?_
  have := hok o (getCheckSync_of_slot h.table ho) w (by simpa using hw)
  rwa [h.coherent.queue_eq] at this

/-- A step keeps the lists well-formed. -/
theorem CallCase.coherent (hcase : CallCase hw k s e k' s') (h : CallInv k s) (hok : KeepsQueues k e) :
    Coherent k' s' := by
  have hc := h.coherent
  cases hcase with
  | sync hmoves => exact hmoves.coherent (hc.congr rfl rfl fun _ => rfl)
  | quiet => exact hc.congr rfl rfl fun _ => rfl
  | refork =>
    exact ((hc.enter _).modifyPcb (fun pcb => { pcb with should_fork := true }) rfl).congr rfl rfl
      fun _ => rfl
  | fork _ _ hc' => exact hc'
  | delays hc' => exact hc'
  | waits hc' => exact hc'
  | reaps _ _ hc' => exact hc'
  | dies _ _ hc' => exact hc'
  | notifies _ _ _ _ _ _ hc' => exact hc'
  | clock hcase =>
    cases hcase with
    | goesOn heq hc' => exact hc'
    | preempts heq hc' => exact hc'
  | schedule _ hc' => exact hc'
  | store => exact hc.congr rfl rfl fun _ => rfl
  | reclaimError => exact hc
  | @reclaims i o q ho hrep =>
    rw [h.quiet ho hok] at hrep ⊢
    exact ⟨hrep, hc.listed, hc.unlisted, hc.idle⟩

theorem mem_clearedLists_wait {i : Nat} {n : PcbPtr} {w : WaitList} :
    n ∈ clearedLists s i (.wait w) ↔ w.slot ≠ i ∧ n ∈ s (.wait w) := by
  by_cases e : w.slot = i <;> simp [clearedLists, e]

/-- What giving up children and memory does not touch. -/
theorem Released.rest {status : Int} {k₁ : Kernel} (h : Released hw k status k₁) :
    k₁.sync_table = k.sync_table ∧ k₁.id_used = k.id_used ∧ k₁.idle_process = k.idle_process := by
  rw [h.frame]
  exact ⟨rfl, rfl, rfl⟩

/-- A step that puts nobody on a wait list keeps the table. -/
theorem SyncTable.other (ht : SyncTable k s) (htable : k'.sync_table = k.sync_table)
    (hused : k'.id_used = k.id_used) (hs : ∀ w, s' (.wait w) = s (.wait w)) : SyncTable k' s' :=
  ht.congr htable hused fun w _ hn => Or.inl (hs w ▸ hn)

/-- Only calls of `sync.c` move processes to and from wait lists. -/
theorem CallCase.waitLists (hcase : CallCase hw k s e k' s') (h : CallInv k s) (hok : KeepsQueues k e)
    (hsync : ∀ p c, e ≠ .sync p c) (w : WaitList) : s' (.wait w) = s (.wait w) := by
  cases hcase with
  | sync => exact absurd rfl (hsync _ _)
  | notifies _ _ _ _ _ hcase => cases hcase <;> simp
  | schedule hnext => exact hnext.other (by simp)
  | clock => simp [tickedLists]
  | reclaims ho => rw [h.quiet ho hok]
  | _ => simp

theorem CallCase.table (hcase : CallCase hw k s e k' s') (h : CallInv k s) : SyncTable k' s' := by
  have ht := h.table
  cases hcase with
  | sync hmoves => exact hmoves.table (ht.congr rfl rfl fun _ _ hn => Or.inl hn)
  | quiet => exact ht.other rfl rfl fun _ => rfl
  | refork => exact ht.other rfl rfl fun _ => rfl
  | fork => exact ht.other rfl rfl fun w => by simp
  | delays => exact ht.other rfl rfl fun w => by simp
  | waits => exact ht.other rfl rfl fun w => by simp
  | reaps => exact ht.other rfl rfl fun w => by simp
  | dies hrel =>
    obtain ⟨htable, hused, -⟩ := hrel.rest
    exact ht.other htable hused fun w => by simp
  | notifies hrel _ _ _ _ hcase =>
    obtain ⟨htable, hused, -⟩ := hrel.rest
    refine ht.other htable hused fun w => ?_
    cases hcase <;> simp
  | clock hcase =>
    exact ht.other (by rw [hcase.frame]) (by rw [hcase.frame]) fun w => by simp [tickedLists]
  | schedule hnext => exact ht.other rfl rfl fun w => hnext.other (by simp)
  | store => exact ht.other rfl rfl fun _ => rfl
  | reclaimError => exact ht
  | @reclaims i o q ho hrep =>
    have hkeep : ∀ j o', (reclaimed k i q).sync_table j = some o' → j ≠ i ∧ k.sync_table j = some o' := by
      intro j o' ho'
      by_cases e : j = i
      · subst e; simp [reclaimed] at ho'
      · exact ⟨e, by simpa [reclaimed, e] using ho'⟩
    refine ⟨fun j o' ho' => ht.id j o' (hkeep j o' ho').2, fun j o' ho' => ht.bound j o' (hkeep j o' ho').2,
      fun j o' ho' => ?_, fun w n hn => ?_⟩
    · obtain ⟨hne, ho'⟩ := hkeep j o' ho'
      simpa [reclaimed, hne] using ht.used j o' ho'
    · obtain ⟨hslot, hn⟩ := mem_clearedLists_wait.1 hn
      obtain ⟨o', ho', hfit⟩ := ht.fits w n hn
      exact ⟨o', by simpa [reclaimed, hslot] using ho', hfit⟩

theorem CallCase.idle (hcase : CallCase hw k s e k' s') : k'.idle_process = k.idle_process := by
  cases hcase with
  | sync hmoves => exact hmoves.frame.idle
  | dies hrel => exact hrel.rest.2.2
  | notifies hrel => exact hrel.rest.2.2
  | clock hcase => rw [hcase.frame]
  | _ => rfl

/-- What a step does to the family of the process `n`. -/
inductive Kin (k : Kernel) (n : PcbPtr) (k' : Kernel) : CallEvent → Prop where
  | keeps {e : CallEvent}
      (hparent : (k'.pcb n).parent = (k.pcb n).parent ∨ (k'.pcb n).parent = none)
      (hflag : (k'.pcb n).waiting_for_children = (k.pcb n).waiting_for_children) : Kin k n k' e
  | child {p : PcbPtr} {u : UserContext} (hfresh : k.allocated n = false)
      (hparent : (k'.pcb n).parent = some p) (hflag : (k'.pcb n).waiting_for_children = 0) :
      Kin k n k' (.handler p u (.fork n))
  | waits {u : UserContext} {kstatus_ptr : Int} (hparent : (k'.pcb n).parent = (k.pcb n).parent)
      (hflag : (k'.pcb n).waiting_for_children = 1) : Kin k n k' (.handler n u (.wait kstatus_ptr))

/-- A change of one PCB that leaves its family alone. -/
theorem Kin.update {q : PcbPtr} (hother : ∀ m, m ≠ q → k'.pcb m = k.pcb m)
    (hparent : (k'.pcb q).parent = (k.pcb q).parent)
    (hflag : (k'.pcb q).waiting_for_children = (k.pcb q).waiting_for_children) (n : PcbPtr) :
    Kin k n k' e := by
  by_cases hn : n = q
  · subst hn
    exact .keeps (Or.inl hparent) hflag
  · exact .keeps (Or.inl (by rw [hother n hn])) (by rw [hother n hn])

/-- The same after an exit has given up children and memory. -/
theorem Released.kin {status : Int} {k₁ : Kernel} {u : UserContext}
    (hrel : Released hw (k.enter p u) status k₁) {q : PcbPtr}
    (hother : ∀ m, m ≠ q → k'.pcb m = k₁.pcb m)
    (hparent : (k'.pcb q).parent = (k₁.pcb q).parent)
    (hflag : (k'.pcb q).waiting_for_children = (k₁.pcb q).waiting_for_children) (n : PcbPtr) :
    Kin k n k' e := by
  have hkeep : (k₁.pcb n).parent = (k.pcb n).parent ∨ (k₁.pcb n).parent = none := by
    cases hpar : (k₁.pcb n).parent with
    | none => exact Or.inr rfl
    | some m => exact Or.inl (hrel.parent hpar).symm
  have hsame : (k'.pcb n).parent = (k₁.pcb n).parent ∧
      (k'.pcb n).waiting_for_children = (k₁.pcb n).waiting_for_children := by
    by_cases hn : n = q
    · subst hn
      exact ⟨hparent, hflag⟩
    · rw [hother n hn]
      exact ⟨rfl, rfl⟩
  exact .keeps (by rw [hsame.1]; exact hkeep) (hsame.2.trans (hrel.waiting n))

theorem CallCase.kin (hcase : CallCase hw k s e k' s') (n : PcbPtr) : Kin k n k' e := by
  cases hcase with
  | sync hmoves => exact .keeps (Or.inl (hmoves.frame.pcb n).kin.1) (hmoves.frame.pcb n).kin.2
  | quiet => exact .keeps (Or.inl rfl) rfl
  | @refork p child u =>
    exact Kin.update (q := p)
      (fun m hm => by simp [Kernel.returnValue, Kernel.modifyPcb, Kernel.enter, hm])
      (by simp [Kernel.returnValue, Kernel.modifyPcb, Kernel.enter])
      (by simp [Kernel.returnValue, Kernel.modifyPcb, Kernel.enter]) n
  | @fork p child u m pt stack family q hoff hfresh =>
    by_cases e : n = child
    · subst e
      exact .child hfresh (by simp [forked, Kernel.enter]) (by simp [forked, createPcb])
    · exact .keeps (Or.inl (by simp [forked, Kernel.enter, e])) (by simp [forked, Kernel.enter, e])
  | @delays p u q =>
    exact Kin.update (q := p) (fun m hm => by simp [delaying, Kernel.enter, hm])
      (by simp [delaying, Kernel.enter]) (by simp [delaying, Kernel.enter]) n
  | @waits p u kstatus_ptr q =>
    by_cases e : n = p
    · subst e
      exact .waits (by simp [waitingForChild, Kernel.enter]) (by simp [waitingForChild, Kernel.enter])
    · exact .keeps (Or.inl (by simp [waitingForChild, Kernel.enter, e]))
        (by simp [waitingForChild, Kernel.enter, e])
  | @reaps p z u kstatus_ptr q =>
    exact Kin.update (q := z) (fun m hm => by simp [reaped, Kernel.enter, hm])
      (by simp [reaped, Kernel.enter]) (by simp [reaped, Kernel.enter]) n
  | @dies p u k₁ q hrel =>
    exact hrel.kin (q := p)
      (fun m hm => by simp [Kernel.callSchedule, Kernel.setState, Kernel.modifyPcb, hm])
      (by simp [Kernel.callSchedule, Kernel.setState, Kernel.modifyPcb])
      (by simp [Kernel.callSchedule, Kernel.setState, Kernel.modifyPcb]) n
  | @notifies p parent u k₁ q st s' hrel =>
    exact hrel.kin (q := parent) (fun m hm => by simp [Kernel.callSchedule, notified, hm])
      (by simp [Kernel.callSchedule, notified]) (by simp [Kernel.callSchedule, notified]) n
  | clock hcase =>
    obtain ⟨ticks, st, time, hn⟩ := hcase.pcb n
    exact .keeps (Or.inl (by rw [hn])) (by rw [hn])
  | schedule => exact .keeps (Or.inl rfl) rfl
  | store => exact .keeps (Or.inl rfl) rfl
  | reclaimError => exact .keeps (Or.inl rfl) rfl
  | reclaims => exact .keeps (Or.inl rfl) rfl

/-- Only terminated processes are freed, and the process that exits. -/
theorem CallCase.allocated (hcase : CallCase hw k s e k' s') (hc : Coherent k s) {n : PcbPtr}
    (halloc : k.allocated n = true) : k'.allocated n = true ∨ n ∈ s .zombie ∨
      ∃ u, e = .handler n u .exit := by
  have hzombie : (k.pcb n).state = .processZombie → n ∈ s .zombie := fun hst =>
    hc.mem_of_state (Or.inr (Or.inr rfl)) hst
  cases hcase with
  | sync hmoves => exact Or.inl (by rw [hmoves.frame.allocated]; exact halloc)
  | quiet => exact Or.inl halloc
  | refork => exact Or.inl halloc
  | @fork p child u m pt stack family q hoff hfresh =>
    have hne : n ≠ child := by
      rintro rfl
      rw [halloc] at hfresh
      cases hfresh
    exact Or.inl (by simpa [forked, createPcb, Kernel.enter, hne] using halloc)
  | delays => exact Or.inl halloc
  | waits => exact Or.inl halloc
  | @reaps p z u kstatus_ptr q hz =>
    by_cases e : n = z
    · exact Or.inr (Or.inl (e ▸ hz))
    · exact Or.inl (by simpa [reaped, Kernel.enter, e] using halloc)
  | @dies p u k₁ q hrel =>
    rcases hrel.allocated n with ha | ⟨-, hst, -⟩
    · exact Or.inl (ha.trans halloc)
    · exact Or.inr (Or.inl (hzombie hst))
  | @notifies p parent u k₁ q st s' hrel =>
    by_cases e : n = p
    · exact Or.inr (Or.inr ⟨u, by rw [e]⟩)
    · rcases hrel.allocated n with ha | ⟨-, hst, -⟩
      · exact Or.inl (by simpa [Kernel.callSchedule, notified, e] using ha.trans halloc)
      · exact Or.inr (Or.inl (hzombie hst))
  | clock hcase => exact Or.inl (by rw [hcase.frame]; exact halloc)
  | schedule => exact Or.inl halloc
  | store => exact Or.inl halloc
  | reclaimError => exact Or.inl halloc
  | reclaims => exact Or.inl halloc

/-- Every step keeps the invariant. -/
theorem CallCase.keeps (hcase : CallCase hw k s e k' s') (h : CallInv k s)
    (hcaller : ∀ p u c, e = .handler p u c → MayEnter k p c) (hok : KeepsQueues k e) : CallInv k' s' := by
  refine ⟨hcase.coherent h hok, hcase.table h, ?_, ?_, fun p hp => ?_⟩
  · rw [hcase.idle]
    rcases hcase.allocated h.coherent h.idle_allocated with ha | hz | ⟨u, he⟩
    · exact ha
    · exact absurd hz (h.coherent.idle _)
    · exact absurd rfl (hcaller _ _ _ he).notIdle
  · rw [hcase.idle]
    cases hcase.kin k.idle_process with
    | keeps _ hflag => exact hflag.trans h.idle_flag
    | child _ _ hflag => exact hflag
    | waits => exact absurd rfl (hcaller _ _ _ rfl).notIdle
  · cases hcase.kin p with
    | keeps hparent =>
      rcases hparent with hpar | hpar <;> rw [hpar] at hp
      · exact h.parents p hp
      · cases hp
    | child hfresh hparent =>
      have hself := Option.some.inj (hp.symm.trans hparent)
      exact (hcaller _ _ _ rfl).other p rfl hself
    | waits hparent =>
      rw [hparent] at hp
      exact h.parents p hp

theorem CallCase.inv (hcase : CallCase hw k s e k' s') (h : CallInv k s)
    (hen : (callMachine hw).enabled k e) (hok : KeepsQueues k e) : CallInv k' s' := by
  refine hcase.keeps h ?_ hok
  rintro p u c rfl
  exact hen.1.enters hen.2

theorem CallStart.inv {k₀ : Kernel} (h₀ : CallStart k₀) : CallInv k₀ k₀.queue :=
  ⟨h₀.sync.coherent, h₀.sync.table, h₀.idle_allocated, h₀.idle_flag, h₀.parents⟩

/-- In every run whose steps keep the queues, the invariant holds. -/
theorem callRun {k₀ : Kernel} {t : List (Kernel × CallEvent)} {P : Kernel → CallEvent → Prop}
    (h₀ : CallStart k₀) (hP : ∀ k e, P k e → KeepsQueues k e)
    (hrun : Run (callMachine hw) P k₀ t k) : CallInv k k.queue := by
  have hinv : ∃ s, CallInv k s := by
    refine hrun.invariant (I := fun k => ∃ s, CallInv k s) ⟨_, h₀.inv⟩
      fun k e k' ⟨s, hs⟩ hen hp hstep => ?_
    obtain ⟨s', hcase⟩ := callStep_cases hs hen (hP k e hp) hstep
    exact ⟨s', hcase.inv hs hen (hP k e hp)⟩
  obtain ⟨s, hs⟩ := hinv
  rw [hs.coherent.queue_eq]
  exact hs

/-! ## The start -/

/-- The kernel is booted into such a state. -/
theorem Booted.callStart {b : Boot hw} (h : Booted b k) : CallStart k where
  sync := h.syncStart
  idle_allocated := (h.allocated _).2 (Or.inl h.idle)
  idle_flag := h.waiting _
  parents p := by simp [h.parent p]

/-- A further process changes nothing of this. -/
theorem CallStart.createPcb (h : CallStart k) (hw : Hardware) (hfree : k.OffQueues p) :
    CallStart (Yalnix.createPcb hw k p) where
  sync := h.sync.createPcb hw hfree
  idle_allocated := by
    show Function.update k.allocated p true k.idle_process = true
    by_cases e : k.idle_process = p
    · rw [e, Function.update_self]
    · rw [Function.update_of_ne e, h.idle_allocated]
  idle_flag := by
    show ((Yalnix.createPcb hw k p).pcb k.idle_process).waiting_for_children = 0
    by_cases e : k.idle_process = p
    · simp [Yalnix.createPcb, e]
    · simpa [Yalnix.createPcb, e] using h.idle_flag
  parents n := by
    by_cases e : n = p
    · subst e
      simp [Yalnix.createPcb]
    · simpa [Yalnix.createPcb, e] using h.parents n

theorem Boot.smallProcesses_callStart : CallStart Boot.smallProcesses := by
  have h := Boot.smallKernel_booted.callStart
  have h1 := h.createPcb .small (p := 102)
    (h.sync.coherent.offQueues_iff_state.2 (Or.inl (by decide)))
  exact h1.createPcb .small (p := 103) (h1.sync.coherent.offQueues_iff_state.2 (Or.inl (by decide)))

/-! ## Runs on fixed events -/

theorem CallInv.enabled (h : CallInv k s) (he : callAllowed k e = true) :
    (callMachine hw).enabled k e := by
  have hcall : ∀ p, callAllowed.offList k p = true → k.MayCall p := by
    intro p hp
    obtain ⟨hst, hidle, halloc⟩ := of_decide_eq_true hp
    exact ⟨h.coherent.offQueues_iff_state.2 hst, hidle, halloc⟩
  cases e with
  | sync p c => exact hcall p he
  | handler p u c =>
    obtain ⟨hp, hc⟩ := Bool.and_eq_true_iff.1 he
    refine ⟨hcall p hp, ?_⟩
    cases c with
    | fork child => simpa [ProcessCall.Fresh] using hc
    | wait kstatus_ptr => simpa [ProcessCall.Fresh] using hc
    | exit => trivial
    | delay => trivial
  | clock u => exact h.coherent.offQueues_iff_state.2 (of_decide_eq_true he)
  | schedule => trivial
  | store => trivial
  | reclaim => trivial

theorem CallInv.keeps (h : CallInv k s) (he : keepsQueues k e = true) : KeepsQueues k e := by
  cases e with
  | handler p u c =>
    cases c with
    | exit =>
      intro parent hpar hwait hblocked
      simp only [keepsQueues, hpar] at he
      rcases of_decide_eq_true he with hz | hnb | hmem
      · exact absurd hz hwait
      · exact absurd hblocked hnb
      · rw [h.coherent.queue_eq] at hmem
        exact h.coherent.onList_iff.2 hmem
    | fork child => exact h.coherent.offQueues_iff_state.2 (of_decide_eq_true he)
    | wait => trivial
    | delay => trivial
  | reclaim id =>
    intro o ho w hw
    simp only [keepsQueues, ho] at he
    simpa using List.all_eq_true.1 he w hw
  | sync => trivial
  | clock => trivial
  | schedule => trivial
  | store => trivial

/-- Events that may happen one after the other are a run. -/
theorem CallInv.exec {k₀ : Kernel} {P : Kernel → CallEvent → Prop} {es : List CallEvent}
    (h₀ : CallInv k₀ s) (hexec : (callMachine hw).exec k₀ es = some k)
    (hok : ∀ x ∈ (callMachine hw).trace k₀ es, callAllowed x.1 x.2 = true ∧ keepsQueues x.1 x.2 = true)
    (hP : ∀ x ∈ (callMachine hw).trace k₀ es, KeepsQueues x.1 x.2 → P x.1 x.2)
    (hPK : ∀ k e, P k e → KeepsQueues k e) : Run (callMachine hw) P k₀ ((callMachine hw).trace k₀ es) k :=
  Run.exec (I := fun k => ∃ s, CallInv k s) ⟨_, h₀⟩
    (fun k e k' ⟨s, hs⟩ hen hp hstep => by
      obtain ⟨s', hcase⟩ := callStep_cases hs hen (hPK k e hp) hstep
      exact ⟨s', hcase.inv hs hen (hPK k e hp)⟩)
    hexec fun x hx ⟨s, hs⟩ =>
      ⟨hs.enabled (hok x hx).1, hP x hx (hs.keeps (hok x hx).2)⟩

theorem CallStart.exec {k₀ : Kernel} {P : Kernel → CallEvent → Prop} {es : List CallEvent}
    (h₀ : CallStart k₀) (hexec : (callMachine hw).exec k₀ es = some k)
    (hok : ∀ x ∈ (callMachine hw).trace k₀ es, callAllowed x.1 x.2 = true ∧ keepsQueues x.1 x.2 = true)
    (hP : ∀ x ∈ (callMachine hw).trace k₀ es, KeepsQueues x.1 x.2 → P x.1 x.2)
    (hPK : ∀ k e, P k e → KeepsQueues k e) : Run (callMachine hw) P k₀ ((callMachine hw).trace k₀ es) k :=
  h₀.inv.exec hexec hok hP hPK

end Yalnix
