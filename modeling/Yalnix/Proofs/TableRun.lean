import Yalnix.Reclaim
import Yalnix.Proofs.SyncTable

/-!
# The three records of the table

The byte map, the counter and the pointer table are changed by different functions; every call leaves
them in agreement, so that the test of the counter says whether there is a free id.
-/

namespace Yalnix

open Intrusive Transition

variable {k k' k₀ : Kernel} {t : List (Kernel × TableCall)} {es : List TableCall}

/-! ## Counting -/

/-- One more number of a range is counted. -/
theorem length_filter_range_insert {p q : Nat → Bool} {i n : Nat} (hi : i < n) (hp : p i = false)
    (hq : q i = true) (hsame : ∀ j, j ≠ i → q j = p j) :
    ((List.range n).filter q).length = ((List.range n).filter p).length + 1 := by
  induction n with
  | zero => omega
  | succ n ih =>
    rw [List.range_succ, List.filter_append, List.filter_append, List.length_append,
      List.length_append]
    by_cases e : i = n
    · subst e
      have hbelow : (List.range i).filter q = (List.range i).filter p :=
        List.filter_congr fun j hj => hsame j (by have := List.mem_range.1 hj; omega)
      simp [hbelow, hp, hq]
    · have hlast : q n = p n := hsame n (by omega)
      rw [ih (by omega), List.filter_singleton, List.filter_singleton, hlast]
      omega

theorem exists_of_length_filter_range_lt {p : Nat → Bool} {n : Nat}
    (h : ((List.range n).filter p).length < n) : ∃ i, i < n ∧ p i = false := by
  by_contra hne
  have hall : ∀ i ∈ List.range n, p i = true := by
    intro i hi
    by_contra hpi
    exact hne ⟨i, List.mem_range.1 hi, by simpa using hpi⟩
  rw [List.filter_eq_self.2 hall, List.length_range] at h
  omega

theorem Kernel.mem_liveIds {i : Nat} :
    i ∈ k.liveIds ↔ i < MAX_SYNCS ∧ (k.sync_table i).isSome := by
  simp [Kernel.liveIds]

theorem Kernel.liveIds_length_le : k.liveIds.length ≤ MAX_SYNCS := by
  have := List.length_filter_le (fun i => (k.sync_table i).isSome) (List.range MAX_SYNCS)
  rwa [List.length_range] at this

namespace TableIntegrity

/-- `GetNewID` finds a slot that has no object. -/
theorem getNewID_eq (h : TableIntegrity k) (hc : k.global_sync_counter < MAX_SYNCS) :
    ∃ i : Nat, i < MAX_SYNCS ∧ k.sync_table i = none ∧ getNewID k =
      ((i : Int), { k with
        id_used := Function.update k.id_used i true
        global_sync_counter := k.global_sync_counter + 1 }) := by
  have hlen : k.liveIds.length < MAX_SYNCS := by
    have := h.counter
    omega
  obtain ⟨j, hj, hnone⟩ := exists_of_length_filter_range_lt hlen
  have hfree : ∃ i, i ∈ List.range MAX_SYNCS ∧ (!k.id_used i) = true := by
    refine ⟨j, List.mem_range.2 hj, ?_⟩
    have hused := h.used j hj
    rw [hnone] at hused
    simpa using hused
  obtain ⟨i, hfind⟩ := Option.isSome_iff_exists.1 (List.find?_isSome.2 hfree)
  have hi := List.mem_range.1 (List.mem_of_find?_eq_some hfind)
  refine ⟨i, hi, ?_, by rw [getNewID, hfind]⟩
  have hunused : k.id_used i = false := by simpa using List.find?_some hfind
  have hused := h.used i hi
  rw [hunused] at hused
  simpa using hused

/-- An object in a slot that had none. -/
theorem insert (h : TableIntegrity k) {i : Nat} {x : SyncObject} (hi : i < MAX_SYNCS)
    (hnone : k.sync_table i = none)
    (hu : k'.id_used = Function.update k.id_used i true)
    (hc : k'.global_sync_counter = k.global_sync_counter + 1)
    (ht : k'.sync_table = Function.update k.sync_table i (some ⟨i, x⟩)) : TableIntegrity k' where
  used j hj := by
    rw [hu, ht]
    by_cases e : j = i
    · subst e; simp
    · simpa [e] using h.used j hj
  counter := by
    have hlen : k'.liveIds.length = k.liveIds.length + 1 :=
      length_filter_range_insert hi (by simp [hnone]) (by simp [ht]) fun j hj => by simp [ht, hj]
    rw [hc, h.counter, hlen]
    omega
  id j o hj ho := by
    rw [ht] at ho
    by_cases e : j = i
    · subst e
      rw [Function.update_self, Option.some.injEq] at ho
      rw [← ho]
    · rw [Function.update_of_ne e] at ho
      exact h.id j o hj ho

/-- An object that is taken out of its slot. -/
theorem erase (h : TableIntegrity k) {i : Nat} (hi : i < MAX_SYNCS)
    (hsome : (k.sync_table i).isSome)
    (hu : k'.id_used = Function.update k.id_used i false)
    (hc : k'.global_sync_counter = k.global_sync_counter - 1)
    (ht : k'.sync_table = Function.update k.sync_table i none) : TableIntegrity k' where
  used j hj := by
    rw [hu, ht]
    by_cases e : j = i
    · subst e; simp
    · simpa [e] using h.used j hj
  counter := by
    have hlen : k.liveIds.length = k'.liveIds.length + 1 :=
      length_filter_range_insert hi (by simp [ht]) hsome fun j hj => by simp [ht, hj]
    rw [hc, h.counter, hlen]
    omega
  id j o hj ho := by
    rw [ht] at ho
    by_cases e : j = i
    · subst e
      rw [Function.update_self] at ho
      cases ho
    · rw [Function.update_of_ne e] at ho
      exact h.id j o hj ho

end TableIntegrity

/-! ## One call -/

/-- The objects of the table have empty wait lists. -/
structure TableInv (k : Kernel) : Prop where
  integrity : TableIntegrity k
  bound : ∀ i o, k.sync_table i = some o → i < MAX_SYNCS
  quiet : ∀ i o, k.sync_table i = some o → ∀ w ∈ o.object.waitLists i, k.count (.wait w) = 0

/-- `syncInit` with a full table or without a `sync_obj_t`. -/
theorem syncInit_error {object : SyncObject} {lists : Nat → List WaitList} {idp : Int}
    {allocated : Bool} (h : k.global_sync_counter ≥ MAX_SYNCS ∨ allocated = false) :
    syncInit object lists k idp allocated = some (ERROR, k) := by
  unfold syncInit
  split
  · rfl
  · rename_i hc
    obtain rfl := h.resolve_left hc
    simp [initSyncObject]

/-- `syncInit` with a free slot. -/
theorem TableIntegrity.syncInit_eq (h : TableIntegrity k) (object : SyncObject)
    (lists : Nat → List WaitList) (idp : Int) (hc : k.global_sync_counter < MAX_SYNCS) :
    ∃ i : Nat, i < MAX_SYNCS ∧ k.sync_table i = none ∧
      syncInit object lists k idp true = some (SUCCESS, { k with
        id_used := Function.update k.id_used i true
        global_sync_counter := k.global_sync_counter + 1
        sync_table := Function.update k.sync_table i (some ⟨i, object⟩)
        queues := (lists i).foldl (fun q w => q.listInit (.wait w)) k.queues
        userStores := k.userStores ++ [.word k.current_process idp i] }) := by
  obtain ⟨i, hi, hnone, hnew⟩ := h.getNewID_eq hc
  refine ⟨i, hi, hnone, ?_⟩
  have hpos : ¬ (i : Int) < 0 := by omega
  have hne : ¬ (i : Int) = ERROR := by simp [ERROR]
  simp [syncInit, initSyncObject, hnew, hpos, hne, not_le.2 hc]

/-- Fresh wait lists count zero, and the others count what they did. -/
theorem count_foldl_listInit (ws : List WaitList) (q : Heap QueueId PcbPtr) (w : WaitList) :
    (ws.foldl (fun q w => q.listInit (.wait w)) q).count (.wait w) =
      if w ∈ ws then 0 else q.count (.wait w) := by
  induction ws generalizing q with
  | nil => simp
  | cons v ws ih =>
    rw [List.foldl_cons, ih]
    by_cases e : w = v
    · subst e
      simp [Heap.listInit, Heap.setCount, Heap.setNext, Heap.setPrev]
    · simp [Heap.listInit, Heap.setCount, Heap.setNext, Heap.setPrev, e]

/-- The wait lists of an object belong to its slot. -/
theorem SyncObject.slot_of_mem_waitLists {x : SyncObject} {i : Nat} {w : WaitList}
    (hw : w ∈ x.waitLists i) : w.slot = i := by
  cases x with
  | pipe p =>
    simp only [SyncObject.waitLists, List.mem_cons, List.not_mem_nil, or_false] at hw
    rcases hw with rfl | rfl <;> rfl
  | lock l =>
    obtain rfl := List.mem_singleton.1 hw
    rfl
  | cvar =>
    obtain rfl := List.mem_singleton.1 hw
    rfl

theorem clearLists_quiet {q : Heap QueueId PcbPtr} {ws : List WaitList}
    (h : ∀ w ∈ ws, q.count (.wait w) = 0) : clearLists ws q = some q := by
  induction ws with
  | nil => rfl
  | cons w ws ih =>
    rw [clearLists, Heap.clearList_of_count (h w (by simp))]
    exact ih fun v hv => h v (by simp [hv])

theorem TableIntegrity.freeID_eq (h : TableIntegrity k) {i : Nat} (hi : i < MAX_SYNCS)
    (hsome : (k.sync_table i).isSome) : freeID k i = { k with
      id_used := Function.update k.id_used i false
      global_sync_counter := k.global_sync_counter - 1 } := by
  rw [freeID, if_pos ⟨by omega, by omega, by simpa using (h.used i hi).2 hsome⟩,
    Int.toNat_natCast]

/-- `SyncReclaim` of a live id whose object has nobody waiting. -/
theorem TableInv.syncReclaim_eq (h : TableInv k) {i : Nat} {o : SyncObj}
    (ho : k.sync_table i = some o) : syncReclaim k i = some (SUCCESS, { k with
      id_used := Function.update k.id_used i false
      global_sync_counter := k.global_sync_counter - 1
      sync_table := Function.update k.sync_table i none }) := by
  have hi := h.bound i o ho
  have hcheck : getCheckSync k i = some o := by
    rw [getCheckSync, if_neg (by omega), Int.toNat_natCast, ho]
  have hfree := h.integrity.freeID_eq hi (by simp [ho])
  simp only [syncReclaim, hcheck, Int.toNat_natCast, clearLists_quiet (h.quiet i o ho),
    Option.bind_eq_bind, Option.bind_some, hfree]
  rfl

theorem TableInv.insert (h : TableInv k) {i : Nat} {x : SyncObject} {stores : List UserStore}
    (hi : i < MAX_SYNCS) (hnone : k.sync_table i = none) : TableInv { k with
      id_used := Function.update k.id_used i true
      global_sync_counter := k.global_sync_counter + 1
      sync_table := Function.update k.sync_table i (some ⟨i, x⟩)
      queues := (x.waitLists i).foldl (fun q w => q.listInit (.wait w)) k.queues
      userStores := stores } where
  integrity := h.integrity.insert (x := x) hi hnone rfl rfl rfl
  bound j o ho := by
    by_cases e : j = i
    · exact e ▸ hi
    · exact h.bound j o (by simpa [e] using ho)
  quiet j o ho w hw := by
    unfold Kernel.count
    rw [count_foldl_listInit]
    by_cases e : j = i
    · subst e
      obtain rfl : ⟨j, x⟩ = o := by simpa using ho
      rw [if_pos hw]
    · rw [if_neg fun hmem => e ?_]
      · exact h.quiet j o (by simpa [e] using ho) w hw
      · rw [← SyncObject.slot_of_mem_waitLists hw, SyncObject.slot_of_mem_waitLists hmem]

theorem TableInv.erase (h : TableInv k) {i : Nat} {o : SyncObj} (ho : k.sync_table i = some o) :
    TableInv { k with
      id_used := Function.update k.id_used i false
      global_sync_counter := k.global_sync_counter - 1
      sync_table := Function.update k.sync_table i none } where
  integrity := h.integrity.erase (h.bound i o ho) (by simp [ho]) rfl rfl rfl
  bound j o' ho' := by
    by_cases e : j = i
    · subst e; simp at ho'
    · exact h.bound j o' (by simpa [e] using ho')
  quiet j o' ho' := by
    by_cases e : j = i
    · subst e; simp at ho'
    · exact h.quiet j o' (by simpa [e] using ho')

/-- `SyncInitPipe`, `SyncInitLock` and `SyncInitCvar`. -/
theorem TableInv.init (h : TableInv k) {c : TableCall} {x : SyncObject} {idp : Int}
    {allocated : Bool} (hc : c.initArgs = some (idp, allocated))
    (hrun : c.run k = syncInit x x.waitLists k idp allocated) :
    ∃ rc k', c.run k = some (rc, k') ∧ TableInv k' ∧ TableReport k c rc k' := by
  have hcounter := h.integrity.counter
  have hle := k.liveIds_length_le
  have hargs : ∀ {idp' allocated'}, c.initArgs = some (idp', allocated') →
      idp' = idp ∧ allocated' = allocated := by
    intro idp' allocated' hc'
    rw [hc] at hc'
    simpa [eq_comm] using hc'
  have hno : ∀ id, c ≠ .reclaim id := by
    rintro id rfl
    simp [TableCall.initArgs] at hc
  by_cases hfull : k.liveIds.length = MAX_SYNCS ∨ allocated = false
  · refine ⟨ERROR, k, ?_, h, ?_⟩
    · rw [hrun]
      exact syncInit_error (hfull.imp_left fun hf => by omega)
    · refine ⟨Or.inr rfl, fun _ => rfl, ?_, ?_, fun id hid => absurd hid (hno id)⟩
      · intro idp' allocated' hc'
        obtain ⟨-, rfl⟩ := hargs hc'
        exact iff_of_true rfl hfull.symm
      · intro _ _ _ hs
        simp [ERROR, SUCCESS] at hs
  · obtain ⟨hfree, htrue⟩ := not_or.1 hfull
    obtain rfl : allocated = true := by simpa using htrue
    obtain ⟨i, hi, hnone, heq⟩ := h.integrity.syncInit_eq x x.waitLists idp (by omega)
    refine ⟨SUCCESS, _, hrun.trans heq, h.insert hi hnone, ?_⟩
    refine ⟨Or.inl rfl, fun hs => by simp [ERROR, SUCCESS] at hs, ?_, ?_,
      fun id hid => absurd hid (hno id)⟩
    · intro idp' allocated' hc'
      obtain ⟨-, rfl⟩ := hargs hc'
      exact iff_of_false (by simp [ERROR, SUCCESS]) (by simp [hfree])
    · intro idp' allocated' hc' _
      obtain ⟨rfl, -⟩ := hargs hc'
      refine ⟨i, ?_, rfl, fun j => ?_⟩
      · simp [Kernel.mem_liveIds, hnone]
      · rw [Kernel.mem_liveIds, Kernel.mem_liveIds]
        by_cases e : j = i
        · subst e; simp [hi]
        · simp [e]

theorem TableInv.reclaim (h : TableInv k) (id : Int) :
    ∃ rc k', (TableCall.reclaim id).run k = some (rc, k') ∧ TableInv k' ∧
      TableReport k (.reclaim id) rc k' := by
  cases ho : getCheckSync k id with
  | none =>
    have hdead : ¬ ∃ i : Nat, id = i ∧ i ∈ k.liveIds := by
      rintro ⟨i, rfl, hi⟩
      obtain ⟨hlt, hsome⟩ := Kernel.mem_liveIds.1 hi
      rw [getCheckSync, if_neg (by omega), Int.toNat_natCast] at ho
      simp [ho] at hsome
    refine ⟨ERROR, k, by simp [TableCall.run, syncReclaim, ho], h, Or.inr rfl, fun _ => rfl, ?_, ?_, ?_⟩
    · intro _ _ hc
      cases hc
    · intro _ _ hc
      cases hc
    · intro id' hid
      obtain rfl := TableCall.reclaim.inj hid
      refine ⟨iff_of_false (by simp [ERROR, SUCCESS]) hdead, fun hs => ?_⟩
      simp [ERROR, SUCCESS] at hs
  | some o =>
    obtain ⟨hslot, hid⟩ := getCheckSync_eq_some ho
    generalize id.toNat = i at hslot hid
    subst hid
    have hi := h.bound i o hslot
    refine ⟨SUCCESS, _, h.syncReclaim_eq hslot, h.erase hslot, Or.inl rfl,
      fun hs => by simp [ERROR, SUCCESS] at hs, ?_, ?_, ?_⟩
    · intro _ _ hc
      cases hc
    · intro _ _ hc
      cases hc
    · intro id' hid
      obtain rfl := TableCall.reclaim.inj hid
      refine ⟨iff_of_true rfl ⟨i, rfl, Kernel.mem_liveIds.2 ⟨hi, by simp [hslot]⟩⟩, fun _ j => ?_⟩
      rw [Kernel.mem_liveIds, Kernel.mem_liveIds]
      by_cases e : j = i
      · subst e; simp
      · have hne : (j : Int) ≠ i := by omega
        simp [e, hne]

/-- Every call has a result and keeps the invariant. -/
theorem TableInv.call (h : TableInv k) (c : TableCall) :
    ∃ rc k', c.run k = some (rc, k') ∧ TableInv k' ∧ TableReport k c rc k' := by
  cases c with
  | initPipe pipe_idp allocated buffer =>
    exact h.init (x := .pipe (newPipe buffer)) rfl rfl
  | initLock lock_idp allocated => exact h.init (x := .lock ⟨false, none⟩) rfl rfl
  | initCvar cvar_idp allocated => exact h.init (x := .cvar) rfl rfl
  | reclaim id => exact h.reclaim id

/-! ## Runs -/

theorem TableStart.tableInv (h : TableStart k) : TableInv k where
  integrity :=
    { used := fun i _ => by simp [h.noId i, h.noObject i]
      counter := by
        have hempty : k.liveIds = [] := by simp [Kernel.liveIds, h.noObject]
        rw [h.counter, hempty]
        rfl
      id := fun i o _ ho => by simp [h.noObject i] at ho }
  bound i o ho := by simp [h.noObject i] at ho
  quiet i o ho := by simp [h.noObject i] at ho

/-- In every run of `SyncInitPipe`, `SyncInitLock`, `SyncInitCvar` and `SyncReclaim` the three records of
the table agree, `GetNewID` finds an id whenever the counter lets `InitSyncObject` ask for one, and
every further call succeeds or changes nothing. -/
theorem sync_table_integrity (h₀ : TableStart k₀)
    (hrun : Run tableMachine (fun _ _ => True) k₀ t k) :
    TableIntegrity k ∧
    (k.global_sync_counter ≥ MAX_SYNCS ↔ k.liveIds.length = MAX_SYNCS) ∧
    (k.global_sync_counter < MAX_SYNCS → (getNewID k).1 ≠ ERROR) ∧
    ∀ c, ∃ rc k', TableCall.run k c = some (rc, k') ∧ TableReport k c rc k' := by
  have hinv : TableInv k := by
    refine hrun.invariant h₀.tableInv fun s e s' hs _ _ hstep => ?_
    obtain ⟨rc, k', hcall, hk', -⟩ := hs.call e
    obtain rfl : k' = s' := by simpa [tableMachine, hcall] using hstep
    exact hk'
  have hcounter := hinv.integrity.counter
  have hle := k.liveIds_length_le
  refine ⟨hinv.integrity, by omega, ?_, ?_⟩
  · intro hc
    obtain ⟨i, -, -, hnew⟩ := hinv.integrity.getNewID_eq hc
    rw [hnew]
    simp [ERROR]
  · intro c
    obtain ⟨rc, k', hcall, -, hreport⟩ := hinv.call c
    exact ⟨rc, k', hcall, hreport⟩

/-- A pipe and a lock, the pipe reclaimed, a call with a wrong id, and a condition variable without
memory. -/
def tableEvents : List TableCall :=
  [.initPipe 8 true fun _ => 0, .initLock 8 true, .reclaim 0, .reclaim 7, .initCvar 8 false]

/-- The small machine after these calls. -/
def tableEventsKernel : Kernel := (tableMachine.exec Boot.smallKernel tableEvents).get (by decide)

theorem tableExec {k : Kernel} (hexec : tableMachine.exec k₀ es = some k) :
    Run tableMachine (fun _ _ => True) k₀ (tableMachine.trace k₀ es) k :=
  Run.exec (I := fun _ => True) trivial (fun _ _ _ _ _ _ _ => trivial) hexec
    fun _ _ _ => ⟨trivial, trivial⟩

theorem sync_table_integrity_small :
    tableEventsKernel.liveIds = [1] ∧ TableIntegrity tableEventsKernel := by
  have hexec : tableMachine.exec Boot.smallKernel tableEvents = some tableEventsKernel := by
    simp [tableEventsKernel]
  have hrun := tableExec hexec
  exact ⟨by decide +kernel, (sync_table_integrity ⟨fun _ => rfl, fun _ => rfl, rfl⟩ hrun).1⟩

end Yalnix
