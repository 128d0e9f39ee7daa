import Yalnix.CvarRun
import Yalnix.Proofs.IdChecks
import Yalnix.Proofs.LockCall
import Yalnix.Proofs.PipeFrame
import Yalnix.Proofs.ReclaimRun

/-!
# Runs of calls on condition variables

The line of a condition variable grows by waits and shrinks by wakeups only, so over a whole run the
waits are the wakeups, in order, and those who wait.
-/

namespace Yalnix

open Intrusive Transition

variable {hw : Hardware} {k k' k₀ : Kernel} {s s' : QueueId → List PcbPtr} {i : Nat} {p : PcbPtr}
  {T : WaitList → Prop}

/-! ## Waiting ids -/

/-- The invariant of these runs: the waiting ids are those of the wait lists. -/
structure CvarInv (k : Kernel) (s : QueueId → List PcbPtr) : Prop where
  coherent : Coherent k s
  table : SyncTable k s
  ids : IdInv k s
  listed : ∀ w n, n ∈ s (.wait w) → (k.pcb n).waitingId w.type = w.slot

/-- Who joins a list gets its id, and who leaves is on no list. -/
theorem SyncMove.listed (hmove : SyncMove p T k s k' s') (hc : Coherent k s)
    (h : ∀ w n, n ∈ s (.wait w) → (k.pcb n).waitingId w.type = w.slot) :
    ∀ w n, n ∈ s' (.wait w) → (k'.pcb n).waitingId w.type = w.slot := by
  intro v n hn
  cases hmove with
  | own htouch hoff =>
    rw [htouch.others n fun e => hoff _ (e ▸ hn)]
    exact h v n hn
  | @block w htouch hoff hT hids =>
    by_cases e : n = p
    · subst e
      have hv : v = w := by
        by_contra hne
        rw [Function.update_of_ne (by simpa using hne)] at hn
        exact hoff _ hn
      rw [hv, hids, if_pos rfl]
    · rw [htouch.others n e]
      refine h v n ?_
      by_cases ev : v = w
      · subst ev
        simpa [e] using hn
      · rwa [Function.update_of_ne (by simpa using ev)] at hn
  | wake htouch hs =>
    rw [htouch.others n (ne_of_mem_woken hc hs hn)]
    exact h v n (mem_of_mem_woken hs hn)
  | @refill w q htouch hq hids =>
    by_cases e : n = q
    · subst e
      rw [hids]
      exact h v n hn
    · rw [htouch.others n e]
      exact h v n hn

theorem CvarInv.moves (h : CvarInv k s) (halloc : k.allocated p = true)
    (hmoves : SyncMoves p T k s k' s') : CvarInv k' s' := by
  induction hmoves with
  | refl => exact h
  | head hmove _ ih =>
    have h₁ : CvarInv _ _ := ⟨hmove.coherent, hmove.table, h.ids.move h.coherent halloc hmove,
      hmove.listed h.coherent h.listed⟩
    exact ih h₁ (by rw [hmove.frame.allocated]; exact halloc)

/-- What leaves the waiting ids and the wait lists alone. -/
theorem CvarInv.congr (h : CvarInv k s) (hc : Coherent k' s') (htable : k'.sync_table = k.sync_table)
    (hused : k'.id_used = k.id_used) (halloc : k'.allocated = k.allocated)
    (hids : ∀ n y, (k'.pcb n).waitingId y = (k.pcb n).waitingId y)
    (hs : ∀ w, s' (.wait w) = s (.wait w)) : CvarInv k' s' := by
  refine ⟨hc, h.table.congr htable hused fun w n hn => Or.inl (hs w ▸ hn), fun n hn => ?_,
    fun w n hn => ?_⟩
  · rw [halloc] at hn
    exact h.ids.keep hn (hids n) fun w hw => by rwa [hs w]
  · rw [hs w] at hn
    rw [hids]
    exact h.listed w n hn

theorem CvarInv.setCurrent (h : CvarInv k s) (p : PcbPtr) :
    CvarInv { k with current_process := p } s :=
  h.congr (h.coherent.congr rfl rfl fun _ => rfl) rfl rfl rfl (fun _ _ => rfl) fun _ => rfl

theorem CvarInv.schedule (h : CvarInv k s) {caller : ScheduleCaller}
    (hrun : Yalnix.schedule hw k caller = some k') : ∃ s', CvarInv k' s' ∧
      ∀ w, s' (.wait w) = s (.wait w) := by
  obtain ⟨next, s', q, rfl, hnext, hc⟩ := h.coherent.schedule_some hrun
  have hs : ∀ w, s' (.wait w) = s (.wait w) := fun w => hnext.other (by simp)
  refine ⟨s', h.congr hc rfl rfl rfl (fun n y => ?_) hs, hs⟩
  unfold switched switchedPcb
  simp only
  split
  · split <;> cases y <;> rfl
  · split <;> cases y <;> rfl

/-- The waiting id of a blocked process says where it waits. -/
theorem CvarInv.mem_iff (h : CvarInv k s) (halloc : k.allocated p = true) :
    p ∈ s (.wait (.cvarWaiters i)) ↔
      (k.pcb p).state = .processBlocked ∧ (k.pcb p).waiting_cvar_id = i := by
  constructor
  · intro hmem
    exact ⟨h.coherent.listed _ p hmem, h.listed _ p hmem⟩
  · rintro ⟨-, hid⟩
    have hid : (k.pcb p).waitingId .cvar = i := hid
    rcases h.ids p halloc .cvar with hnone | ⟨w, hw, hslot, hmem⟩
    · omega
    · have : w = .cvarWaiters i := by
        cases w <;> cases hw
        rw [hid] at hslot
        exact congrArg _ (Int.ofNat.inj hslot).symm
      rwa [← this]

/-! ## What a call does -/

theorem mayWait_iff {c l : Int} : mayWait k p c l = true ↔ ∃ cvar o lock, getCheckSync k c = some cvar ∧
    getCheckSync k l = some o ∧ o.object.asLock = some lock ∧ lock.owner = some p := by
  unfold mayWait
  rw [Bool.and_eq_true, Option.isSome_iff_exists, Option.any_eq_true]
  simp only [Option.bind_eq_some_iff, decide_eq_true_eq]
  constructor
  · rintro ⟨⟨cvar, hcvar⟩, lock, ⟨o, ho, hlock⟩, howner⟩
    exact ⟨cvar, o, lock, hcvar, ho, hlock, howner⟩
  · rintro ⟨cvar, o, lock, hcvar, ho, hlock, howner⟩
    exact ⟨⟨cvar, hcvar⟩, lock, ⟨o, ho, hlock⟩, howner⟩

/-- Who may not wait is refused. -/
theorem cvarWait_refused {c l rc : Int} (hno : ¬ mayWait k k.current_process c l = true)
    (hrun : syncCvarWait k c l = some (rc, k')) : k' = k := by
  rw [mayWait_iff] at hno
  unfold syncCvarWait at hrun
  split at hrun
  · simp only [Option.some.injEq, Prod.mk.injEq] at hrun
    exact hrun.2.symm
  · rename_i cvar hcvar
    split at hrun
    · simp only [Option.some.injEq, Prod.mk.injEq] at hrun
      exact hrun.2.symm
    · rename_i o hcheck
      simp only [Option.bind_eq_bind, Option.bind_eq_some_iff] at hrun
      obtain ⟨lock, hlock, hrun⟩ := hrun
      split at hrun
      · simp only [Option.bind_eq_some_iff, Option.pure_def, Option.some.injEq, Prod.mk.injEq] at hrun
        obtain ⟨-, -, -, rfl⟩ := hrun
        rfl
      · rename_i howner
        rw [not_not] at howner
        exact absurd ⟨cvar, o, lock, hcvar, hcheck, hlock, howner⟩ hno

/-- Who waits gives the first id for a condition variable. -/
theorem cvarWait_typed {c l rc : Int} {cvar o : SyncObj} {lock : Lock}
    (hcvar : getCheckSync k c = some cvar) (hcheck : getCheckSync k l = some o)
    (hlock : o.object.asLock = some lock) (howner : lock.owner = some k.current_process)
    (hrun : syncCvarWait k c l = some (rc, k')) : cvar.object.asCvar = some () := by
  unfold syncCvarWait at hrun
  simp only [hcvar, hcheck, hlock, Option.bind_eq_bind, Option.bind_some, howner, ne_eq, not_true,
    if_false, Option.bind_eq_some_iff] at hrun
  obtain ⟨-, -, ⟨⟩, htype, -⟩ := hrun
  exact htype

/-- The lock after the release. -/
theorem HandOff.handedOn {lock : Lock} (h : HandOff k s i lock k' s') (hc : Coherent k s)
    (hl : k.lock i = some lock) {k₁ : Kernel} (htable : k₁.sync_table = k'.sync_table)
    (hready : k₁.queue .ready = s' .ready)
    (hwaiters : k₁.queue (.wait (.lockWaiters i)) = s' (.wait (.lockWaiters i))) : HandedOn k k₁ i := by
  have hlock : ∀ {x : SyncObject}, k'.sync_table = (k.setObject i x).sync_table →
      k₁.lock i = x.asLock := fun {x} hx => by
    rw [Kernel.lock, htable, hx]
    exact lock_setObject hl x
  unfold HandedOn
  rw [hc.queue_eq]
  cases h with
  | free hs =>
    rw [hs]
    exact ⟨hlock rfl, hready⟩
  | @grant n xs q hs =>
    rw [hs]
    refine ⟨?_, by rw [hwaiters, woken_self], by rw [hready, woken_ready]⟩
    rw [hlock (x := .lock { lock with owner := some n }) rfl]
    rfl

/-! ## The steps -/

/-- An event that is no call on a condition variable and leaves their lists. -/
theorem CvarStep.quiet {e : SyncEvent} (he : ∀ p c, e = .call p c → c.onCvar = false)
    (hlists : ∀ i, k'.queue (.wait (.cvarWaiters i)) = k.queue (.wait (.cvarWaiters i))) :
    CvarStep k e k' := by
  have hnone : ∀ i, cvarWaits i (k, e) = [] ∧ cvarWakes i (k, e) = [] := by
    intro i
    cases e with
    | call p c =>
      cases c with
      | cvarWait | cvarSignal | cvarBroadcast => cases he _ _ rfl
      | _ => exact ⟨rfl, rfl⟩
    | _ => exact ⟨rfl, rfl⟩
  refine ⟨fun i => ?_, fun p c l h => ?_, fun p c h => ?_⟩
  · rw [(hnone i).1, (hnone i).2, hlists i, List.append_nil, List.nil_append]
  · cases he p _ h
  · rcases h with h | ⟨rc, h⟩
    · cases he p _ h
    · cases he p _ h

/-- The waiters `woken` of the condition variable `c` are woken, and `rest` wait on. -/
theorem CvarStep.woke {e : SyncEvent} (c : Int) (woken rest : List PcbPtr)
    (he : ∀ i, cvarWaits i (k, e) = [] ∧ cvarWakes i (k, e) = if c = i then woken else [])
    (hcall : ∀ p c', (e = .call p (.cvarSignal c') ∨ ∃ rc, e = .call p (.cvarBroadcast c' rc)) → c' = c)
    (hwait : ∀ p c' l, e ≠ .call p (.cvarWait c' l))
    (hid : (c.toNat : Int) = c ∨ woken = [])
    (hs : k.queue (.wait (.cvarWaiters c.toNat)) = woken ++ rest)
    (hs' : k'.queue (.wait (.cvarWaiters c.toNat)) = rest)
    (hready : k'.queue .ready = k.queue .ready ++ woken)
    (hother : ∀ l, l ≠ .ready → l ≠ .wait (.cvarWaiters c.toNat) → k'.queue l = k.queue l) :
    CvarStep k e k' := by
  refine ⟨fun i => ?_, fun p c' l h => absurd h (hwait p c' l), fun p c' h => ?_⟩
  · rw [(he i).1, (he i).2, List.append_nil]
    by_cases ei : i = c.toNat
    · subst ei
      rw [hs, hs']
      rcases hid with hid | rfl
      · rw [if_pos hid.symm]
      · rw [ite_self]
    · rw [hother _ (by simp) (by simpa using ei)]
      have hne : ¬ (c = i) := by omega
      rw [if_neg hne, List.nil_append]
  · obtain rfl := hcall p c' h
    refine ⟨?_, hother⟩
    rw [(he _).2, hready]
    rcases hid with hid | rfl
    · rw [if_pos hid.symm]
    · rw [ite_self]

/-- There are no waiters where there is no object. -/
theorem SyncTable.cvarWaiters_nil (ht : SyncTable k s) {c : Int} (hcheck : getCheckSync k c = none)
    (hid : (c.toNat : Int) = c) : s (.wait (.cvarWaiters c.toNat)) = [] := by
  refine List.eq_nil_iff_forall_not_mem.2 fun n hn => ?_
  obtain ⟨o, ho, -⟩ := ht.fits _ n hn
  have hlive := getCheckSync_of_slot ht ho
  rw [show ((WaitList.cvarWaiters c.toNat).slot : Int) = c from hid, hcheck] at hlive
  cases hlive

theorem cvarWakes_signal {c : Int} : cvarWakes i (k, .call p (.cvarSignal c)) =
    if c = i then (k.queue (.wait (.cvarWaiters c.toNat))).take 1 else [] := by
  by_cases e : c = i
  · subst e
    rfl
  · simp [cvarWakes, e]

theorem cvarWakes_broadcast {c rc : Int} : cvarWakes i (k, .call p (.cvarBroadcast c rc)) =
    if c = i then k.queue (.wait (.cvarWaiters c.toNat)) else [] := by
  by_cases e : c = i
  · subst e
    rfl
  · simp [cvarWakes, e]

/-- A wakeup at a condition variable that is not there. -/
theorem CvarStep.refused (hc : Coherent k s) (ht : SyncTable k s) {c : Int}
    (hcheck : getCheckSync k c = none) {call : SyncCall}
    (hcall : call = .cvarSignal c ∨ ∃ rc, call = .cvarBroadcast c rc) :
    CvarStep k (.call p call) k := by
  have hnone : ∀ i, cvarWaits i (k, .call p call) = [] ∧
      cvarWakes i (k, .call p call) = if c = i then [] else [] := by
    intro i
    have hnil : (if c = i then k.queue (.wait (.cvarWaiters c.toNat)) else []) = [] := by
      by_cases e : c = i
      · subst e
        rw [if_pos rfl, hc.queue_eq]
        exact ht.cvarWaiters_nil hcheck rfl
      · exact if_neg e
    rcases hcall with rfl | ⟨rc, rfl⟩
    · refine ⟨rfl, ?_⟩
      rw [cvarWakes_signal]
      by_cases e : c = i
      · rw [if_pos e] at hnil
        rw [if_pos e, hnil, if_pos e]
        rfl
      · rw [if_neg e, if_neg e]
    · refine ⟨rfl, ?_⟩
      rw [cvarWakes_broadcast, hnil, ite_self]
  refine .woke c [] _ hnone (fun q c' h => ?_) (fun q c' l h => ?_) (Or.inr rfl) rfl rfl
    (List.append_nil _).symm fun _ _ _ => rfl
  · rcases hcall with rfl | ⟨rc, rfl⟩ <;> rcases h with h | ⟨rc', h⟩ <;> cases h <;> rfl
  · rcases hcall with rfl | ⟨rc, rfl⟩ <;> cases h

theorem CvarStep.signal (hc : Coherent k s) (ht : SyncTable k s) {c rc : Int}
    (hrun : syncCvarSignal k c = some (rc, k')) : CvarStep k (.call p (.cvarSignal c)) k' := by
  cases hcheck : getCheckSync k c with
  | none =>
    simp only [syncCvarSignal, hcheck, Option.some.injEq, Prod.mk.injEq] at hrun
    exact hrun.2 ▸ CvarStep.refused hc ht hcheck (Or.inl rfl)
  | some cvar =>
    obtain ⟨-, hid⟩ := getCheckSync_eq_some hcheck
    have htype : cvar.object.asCvar = some () := by
      simp only [syncCvarSignal, hcheck, Option.bind_eq_bind, Option.bind_eq_some_iff] at hrun
      obtain ⟨⟨⟩, htype, -⟩ := hrun
      exact htype
    have key : ∀ woken rest, s (.wait (.cvarWaiters c.toNat)) = woken ++ rest →
        (woken ++ rest).take 1 = woken → k'.queue (.wait (.cvarWaiters c.toNat)) = rest →
        k'.queue .ready = s .ready ++ woken →
        (∀ l, l ≠ .ready → l ≠ .wait (.cvarWaiters c.toNat) → k'.queue l = s l) →
        CvarStep k (.call p (.cvarSignal c)) k' := by
      intro woken rest hs htake hs' hready hother
      rw [← hc.queue_eq] at hs hready hother
      refine .woke c woken rest (fun i => ⟨rfl, ?_⟩) (fun q c' h => ?_) (fun q c' l h => by cases h)
        (Or.inl hid) hs hs' hready hother
      · rw [cvarWakes_signal, hs, htake]
      · rcases h with h | ⟨rc', h⟩ <;> cases h
        rfl
    rcases hc.cvarSignal hcheck htype with ⟨hs, hrun'⟩ | ⟨n, xs, q, hs, hrun', hc'⟩
    · obtain rfl : k' = k := congrArg Prod.snd (Option.some.inj (hrun.symm.trans hrun'))
      rw [← hc.queue_eq] at hs
      exact key [] [] (by rw [← hc.queue_eq, hs]; rfl) rfl hs (by simp [hc.queue_eq])
        fun _ _ _ => by rw [hc.queue_eq]
    · obtain rfl : k' = cvarWoken k n q := congrArg Prod.snd (Option.some.inj (hrun.symm.trans hrun'))
      refine key [n] xs hs rfl ?_ ?_ fun l h₁ h₂ => ?_
      · rw [hc'.queue_eq, woken_self]
      · rw [hc'.queue_eq, woken_ready]
      · rw [hc'.queue_eq]
        simp [woken, h₁, h₂]

theorem CvarStep.broadcast (hc : Coherent k s) (ht : SyncTable k s) {c ret rc : Int}
    (hrun : syncCvarBroadcast k c ret = some (rc, k')) :
    CvarStep k (.call p (.cvarBroadcast c ret)) k' := by
  cases hcheck : getCheckSync k c with
  | none =>
    simp only [syncCvarBroadcast, hcheck, Option.some.injEq, Prod.mk.injEq] at hrun
    exact hrun.2 ▸ CvarStep.refused hc ht hcheck (Or.inr ⟨ret, rfl⟩)
  | some cvar =>
    obtain ⟨-, hid⟩ := getCheckSync_eq_some hcheck
    have htype : cvar.object.asCvar = some () := by
      simp only [syncCvarBroadcast, hcheck, Option.bind_eq_bind, Option.bind_eq_some_iff] at hrun
      obtain ⟨⟨⟩, htype, -⟩ := hrun
      exact htype
    obtain ⟨rc', k₁, hrun', hc'⟩ : ∃ rc' k₁, syncCvarBroadcast k c ret = some (rc', k₁) ∧ _ :=
      hc.cvarBroadcast hcheck htype
    obtain rfl : k' = k₁ := congrArg Prod.snd (Option.some.inj (hrun.symm.trans hrun'))
    refine .woke c (s (.wait (.cvarWaiters c.toNat))) [] (fun i => ⟨rfl, ?_⟩) (fun q c' h => ?_)
      (fun q c' l h => by cases h) (Or.inl hid) ?_ ?_ ?_ fun l h₁ h₂ => ?_
    · rw [cvarWakes_broadcast, hc.queue_eq]
    · rcases h with h | ⟨rc', h⟩ <;> cases h
      rfl
    · rw [hc.queue_eq, List.append_nil]
    · rw [hc'.queue_eq]
      simp [allWoken]
    · rw [hc'.queue_eq, hc.queue_eq]
      simp [allWoken]
    · rw [hc'.queue_eq, hc.queue_eq]
      simp [allWoken, h₁, h₂]

/-- The caller gives up the lock and joins the line, or is refused. -/
theorem CvarStep.wait (h : CvarInv k s) (hfree : ∀ l, k.current_process ∉ s l)
    (hidle : k.current_process ≠ k.idle_process) {c l rc : Int}
    (hrun : syncCvarWait k c l = some (rc, k')) :
    CvarStep k (.call k.current_process (.cvarWait c l)) k' := by
  have hc := h.coherent
  by_cases hmay : mayWait k k.current_process c l = true
  · obtain ⟨cvar, o, lock, hcvar, hcheck, hlock, howner⟩ := mayWait_iff.1 hmay
    obtain ⟨-, hid⟩ := getCheckSync_eq_some hcvar
    have hl := asLock_eq_some hlock (getCheckSync_eq_some hcheck).1
    have htype := cvarWait_typed hcvar hcheck hlock howner hrun
    obtain ⟨k₁, s₁, q, hhand, -, hrun', hc'⟩ :=
      hc.cvarWait hfree hidle hcvar htype hcheck hlock howner
    obtain rfl : k' = cvarQueued k₁ k.current_process c q :=
      congrArg Prod.snd (Option.some.inj (hrun.symm.trans hrun'))
    have hother : ∀ v : WaitList, v ≠ .lockWaiters l.toNat → s₁ (.wait v) = s (.wait v) := fun v hv =>
      (hhand.other hc hv).1
    refine ⟨fun i => ?_, fun p c' l' e _ => ?_, fun p c' e => ?_⟩
    · rw [hc'.queue_eq, hc.queue_eq]
      show _ ++ (if c = i ∧ mayWait k k.current_process c l = true then _ else _) = [] ++ _
      by_cases ei : i = c.toNat
      · subst ei
        rw [if_pos ⟨hid.symm, hmay⟩, Function.update_self, hother _ (by simp)]
        rfl
      · have hne : ¬ (c = i) := by omega
        rw [if_neg fun h => hne h.1, Function.update_of_ne (by simpa using ei), hother _ (by simp),
          List.append_nil]
        rfl
    · cases e
      refine hhand.handedOn hc hl rfl ?_ ?_
      · rw [hc'.queue_eq, Function.update_of_ne (by simp)]
      · rw [hc'.queue_eq, Function.update_of_ne (by simp)]
    · rcases e with e | ⟨rc', e⟩ <;> cases e
  · obtain rfl := cvarWait_refused hmay hrun
    refine ⟨fun i => ?_, fun p c' l' e hmay' => ?_, fun p c' e => ?_⟩
    · show _ ++ (if c = i ∧ mayWait k' k'.current_process c l = true then _ else _) = [] ++ _
      rw [if_neg fun h => hmay h.2, List.append_nil]
      rfl
    · cases e
      exact absurd hmay' hmay
    · rcases e with e | ⟨rc', e⟩ <;> cases e

/-- Every call on locks and condition variables. -/
theorem CvarStep.call (h : CvarInv k s) (hfree : ∀ l, k.current_process ∉ s l)
    (hidle : k.current_process ≠ k.idle_process) {c : SyncCall} {rc : Int}
    (he : LockEvent (.call k.current_process c)) (hrun : c.run hw k = some (rc, k')) :
    CvarStep k (.call k.current_process c) k' := by
  have hquiet : c.onCvar = false → (∀ i, ¬ c.Touches (.cvarWaiters i)) →
      CvarStep k (.call k.current_process c) k' := by
    intro hcall hT
    obtain ⟨s', hmoves⟩ := syncCall_moves h.coherent h.table hfree hidle hrun
    refine .quiet (fun p c' e => ?_) fun i => ?_
    · cases e
      exact hcall
    · rw [h.coherent.queue_eq, (hmoves.coherent h.coherent).queue_eq, hmoves.list_eq (hT i)]
  cases c with
  | cvarWait c l => exact .wait h hfree hidle hrun
  | cvarSignal c => exact .signal h.coherent h.table hrun
  | cvarBroadcast c ret => exact .broadcast h.coherent h.table hrun
  | lockAcquire l => exact hquiet rfl fun i hT => by cases hT
  | lockRelease l => exact hquiet rfl fun i hT => by cases hT
  | initLock idp a => exact hquiet rfl fun i hT => hT
  | initCvar idp a => exact hquiet rfl fun i hT => hT
  | _ => exact he.elim

/-! ## The run -/

theorem CvarStep.setCurrent {e : SyncEvent} (h : CvarStep { k with current_process := p } e k') :
    CvarStep k e k' := by
  cases e with
  | call q c => cases c <;> exact ⟨h.line, h.release, h.ready⟩
  | schedule => exact ⟨h.line, h.release, h.ready⟩
  | store => exact ⟨h.line, h.release, h.ready⟩

theorem CvarInv.step (h : CvarInv k s) {e : SyncEvent} (hen : (syncMachine hw).enabled k e)
    (he : CvarEvent k e) (hstep : (syncMachine hw).step k e = some k') :
    ∃ s', CvarInv k' s' ∧ CvarStep k e k' := by
  obtain ⟨hlock, halloc⟩ := he
  cases e with
  | schedule caller =>
    obtain ⟨s', h', hs⟩ := h.schedule hstep
    refine ⟨s', h', .quiet (fun p c e => by cases e) fun i => ?_⟩
    rw [h'.coherent.queue_eq, h.coherent.queue_eq, hs]
  | store buf bytes => exact hlock.elim
  | call p c =>
    obtain ⟨⟨rc, k₁⟩, hrun, rfl⟩ := Option.map_eq_some_iff.1 hstep
    obtain ⟨hfree, hidle⟩ := hen
    have hfree := h.coherent.offQueues_iff.1 hfree
    have hp := h.setCurrent p
    obtain ⟨s', hmoves⟩ := syncCall_moves hp.coherent hp.table hfree hidle hrun
    have hcall := CvarStep.call hp hfree hidle hlock hrun
    exact ⟨s', hp.moves (halloc p c rfl) hmoves, hcall.setCurrent⟩

theorem CvarStart.cvarInv (h : CvarStart k) : CvarInv k k.queue where
  coherent := h.sync.coherent
  table := h.sync.table
  ids p hp y := Or.inl (h.ids p hp y)
  listed w n hn := by simp [h.sync.noWaiter] at hn

/-- A call on a condition variable with ids of the right types returns. -/
theorem CvarInv.returns (h : CvarInv k s) {c : SyncCall} (hen : (syncMachine hw).enabled k (.call p c))
    (hc : c.onCvar = true) (htype : ¬ WrongType k c)
    (hmay : ∀ cv l, c = .cvarWait cv l → mayWait k p cv l = true) :
    ∃ k', (syncMachine hw).step k (.call p c) = some k' := by
  have hp := h.setCurrent p
  obtain ⟨hfree, hidle⟩ := hen
  have hfree := h.coherent.offQueues_iff.1 hfree
  suffices hrun : ∃ rc k', c.run hw { k with current_process := p } = some (rc, k') by
    obtain ⟨rc, k', hrun⟩ := hrun
    exact ⟨k', Option.map_eq_some_iff.2 ⟨(rc, k'), hrun, rfl⟩⟩
  cases c with
  | cvarWait cv l =>
    obtain ⟨cvar, o, lock, hcvar, hcheck, hlock, howner⟩ := mayWait_iff.1 (hmay cv l rfl)
    have htype := asCvar_of_type (type_of_not_wrong htype (by simp [SyncCall.expects]) hcvar)
    obtain ⟨k₁, s₁, q, -, -, hrun, -⟩ :=
      hp.coherent.cvarWait hfree hidle hcvar htype hcheck hlock howner
    exact ⟨_, _, hrun⟩
  | cvarSignal cv =>
    cases hcheck : getCheckSync { k with current_process := p } cv with
    | none =>
      refine ⟨ERROR, { k with current_process := p }, ?_⟩
      show syncCvarSignal _ cv = _
      rw [syncCvarSignal, hcheck]
    | some cvar =>
      have htype := asCvar_of_type (type_of_not_wrong htype (by simp [SyncCall.expects]) hcheck)
      rcases hp.coherent.cvarSignal hcheck htype with ⟨-, hrun⟩ | ⟨n, xs, q, -, hrun, -⟩
      · exact ⟨_, _, hrun⟩
      · exact ⟨_, _, hrun⟩
  | cvarBroadcast cv ret =>
    cases hcheck : getCheckSync { k with current_process := p } cv with
    | none =>
      refine ⟨ERROR, { k with current_process := p }, ?_⟩
      show syncCvarBroadcast _ cv ret = _
      rw [syncCvarBroadcast, hcheck]
    | some cvar =>
      have htype := asCvar_of_type (type_of_not_wrong htype (by simp [SyncCall.expects]) hcheck)
      obtain ⟨rc, k', hrun, -⟩ := hp.coherent.cvarBroadcast hcheck htype
      exact ⟨rc, k', hrun⟩
  | _ => cases hc

/-- No wakeup is lost and none is duplicated, over every run of calls on locks and condition variables.
A wait gives up the lock and joins the line in one step, a signal wakes the first in line, and a
broadcast all in their order. Over the run the waits are the wakeups, in order, and those who wait now,
whose state and waiting id say so. And the calls return. -/
theorem cvar_wakeups (h₀ : CvarStart k₀) {t : List (Kernel × SyncEvent)}
    (hrun : Run (syncMachine hw) CvarEvent k₀ t k) :
    (∀ x ∈ t, ∀ k', (syncMachine hw).step x.1 x.2 = some k' → CvarStep x.1 x.2 k') ∧
    (∀ i, t.flatMap (cvarWaits i) =
      t.flatMap (cvarWakes i) ++ k.queue (.wait (.cvarWaiters i))) ∧
    (∀ p, k.allocated p = true → ∀ i, p ∈ k.queue (.wait (.cvarWaiters i)) ↔
      (k.pcb p).state = .processBlocked ∧ (k.pcb p).waiting_cvar_id = i) ∧
    ∀ p c, (syncMachine hw).enabled k (.call p c) → c.onCvar = true → ¬ WrongType k c →
      (∀ cv l, c = .cvarWait cv l → mayWait k p cv l = true) →
      ∃ k', (syncMachine hw).step k (.call p c) = some k' := by
  have hinit : ∃ s, CvarInv k₀ s := ⟨_, h₀.cvarInv⟩
  have hpres : ∀ k e k', (∃ s, CvarInv k s) → (syncMachine hw).enabled k e → CvarEvent k e →
      (syncMachine hw).step k e = some k' → ∃ s, CvarInv k' s := by
    rintro k e k' ⟨s, h⟩ hen he hstep
    obtain ⟨s', h', -⟩ := h.step hen he hstep
    exact ⟨s', h'⟩
  obtain ⟨s, hinv⟩ := hrun.invariant hinit hpres
  refine ⟨fun x hx k' hstep => ?_, fun i => ?_, fun p hp i => ?_, fun p c hen hc htype hmay =>
    hinv.returns hen hc htype hmay⟩
  · obtain ⟨⟨s, h⟩, hen, he⟩ := hrun.before hinit hpres x hx
    obtain ⟨-, -, hcvar⟩ := h.step hen he hstep
    exact hcvar
  · have hline := hrun.line (I := fun k => ∃ s, CvarInv k s)
      (q := fun k => k.queue (.wait (.cvarWaiters i))) hinit (by
        rintro k e k' ⟨s, h⟩ hen he hstep
        obtain ⟨s', h', hcvar⟩ := h.step hen he hstep
        exact ⟨⟨s', h'⟩, hcvar.line i⟩)
    rwa [show k₀.queue (.wait (.cvarWaiters i)) = [] from h₀.sync.noWaiter _, List.nil_append] at hline
  · rw [hinv.coherent.queue_eq]
    exact hinv.mem_iff hp

/-- The processes `102` and `103` wait, and `101` signals. -/
def signalEvents : List SyncEvent :=
  [.schedule .sysLockAcquire, .call 102 (.initLock 8 true), .call 102 (.initCvar 8 true),
    .call 102 (.lockAcquire 0), .call 102 (.cvarWait 1 0), .call 103 (.lockAcquire 0),
    .call 103 (.cvarWait 1 0), .call 101 (.cvarSignal 1)]

def signalKernel : Kernel :=
  ((syncMachine .small).exec Boot.smallProcesses signalEvents).get (by decide +kernel)

theorem cvar_wakeups_small : (signalKernel.queue .ready).getLast? = some 102 ∧
    signalKernel.queue (.wait (.cvarWaiters 1)) = [103] ∧
    ((syncMachine .small).trace Boot.smallProcesses signalEvents).flatMap (cvarWaits 1) =
      ((syncMachine .small).trace Boot.smallProcesses signalEvents).flatMap (cvarWakes 1) ++
        signalKernel.queue (.wait (.cvarWaiters 1)) := by
  have h₀ : CvarStart Boot.smallProcesses :=
    ⟨Boot.smallProcesses_syncStart, Boot.smallProcesses_reclaimStart.ids⟩
  have hexec : (syncMachine .small).exec Boot.smallProcesses signalEvents = some signalKernel :=
    (Option.some_get _).symm
  have hok : ∀ x ∈ (syncMachine .small).trace Boot.smallProcesses signalEvents,
      callable x.1 x.2 = true ∧ ∀ p ∈ [101, 102, 103], x.1.allocated p = true := by
    decide +kernel
  have hev : ∀ e ∈ signalEvents, LockEvent e ∧ ∀ p c, e = .call p c → p ∈ [101, 102, 103] := by
    simp [signalEvents, LockEvent]
  have hrun : Run (syncMachine .small) CvarEvent Boot.smallProcesses
      ((syncMachine .small).trace Boot.smallProcesses signalEvents) signalKernel := by
    refine Run.exec (I := fun k => ∃ s, CvarInv k s) ⟨_, h₀.cvarInv⟩ ?_ hexec ?_
    · rintro k e k' ⟨s, h⟩ hen he hstep
      obtain ⟨s', h', -⟩ := h.step hen he hstep
      exact ⟨s', h'⟩
    · rintro x hx ⟨s, h⟩
      obtain ⟨hcall, hallocated⟩ := hok x hx
      obtain ⟨hlock, hwho⟩ := hev x.2 (System.mem_trace hx)
      exact ⟨h.coherent.enabled hcall, hlock, fun p c hc => hallocated p (hwho p c hc)⟩
  exact ⟨by decide +kernel, by decide +kernel, (cvar_wakeups h₀ hrun).2.1 1⟩

end Yalnix
