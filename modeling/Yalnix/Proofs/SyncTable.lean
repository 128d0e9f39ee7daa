import Yalnix.Proofs.Schedule

/-!
# The synchronization table

A new object gets a slot that no list belongs to yet, so its fresh wait lists disturb nobody.
-/

namespace Yalnix

open Intrusive Transition

variable {hw : Hardware} {k k' : Kernel} {s s' : QueueId → List PcbPtr}

theorem getCheckSync_eq_some {id : Int} {o : SyncObj} (h : getCheckSync k id = some o) :
    k.sync_table id.toNat = some o ∧ (id.toNat : Int) = id := by
  unfold getCheckSync at h
  split at h
  · cases h
  · exact ⟨h, by omega⟩

theorem getNewID_cases {id : Int} {k₁ : Kernel} (h : getNewID k = (id, k₁)) :
    id = ERROR ∨ ∃ i : Nat, id = i ∧ i < MAX_SYNCS ∧ k.id_used i = false ∧
      k₁ = { k with
        id_used := Function.update k.id_used i true
        global_sync_counter := k.global_sync_counter + 1 } := by
  unfold getNewID at h
  split at h
  · rename_i i hi
    refine Or.inr ⟨i, ?_⟩
    obtain ⟨rfl, rfl⟩ := Prod.mk.inj h
    have hmem := List.mem_of_find?_eq_some hi
    have hfree := List.find?_some hi
    exact ⟨rfl, List.mem_range.1 hmem, by simpa using hfree, rfl⟩
  · exact Or.inl (Prod.mk.inj h).1.symm

/-- An `Init` call reports an error and changes nothing, or takes a slot that is not in use. -/
theorem syncInit_cases {object : SyncObject} {lists : Nat → List WaitList} {idp rc : Int}
    {allocated : Bool} (h : syncInit object lists k idp allocated = some (rc, k')) :
    k' = k ∨ ∃ i : Nat, i < MAX_SYNCS ∧ k.id_used i = false ∧
      k' = { k with
        id_used := Function.update k.id_used i true
        global_sync_counter := k.global_sync_counter + 1
        sync_table := Function.update k.sync_table i (some ⟨i, object⟩)
        queues := (lists i).foldl (fun q w => q.listInit (.wait w)) k.queues
        userStores := k.userStores ++ [.word k.current_process idp i] } := by
  unfold syncInit at h
  split at h
  · simp only [Option.some.injEq, Prod.mk.injEq] at h
    exact Or.inl h.2.symm
  · simp only [Option.bind_eq_bind, Option.bind_eq_some_iff] at h
    obtain ⟨⟨id, k₁⟩, hobj, h⟩ := h
    unfold initSyncObject at hobj
    split at hobj
    · simp only [Option.some.injEq, Prod.mk.injEq] at hobj
      obtain ⟨rfl, rfl⟩ := hobj
      simp only [if_pos, Option.pure_def, Option.some.injEq, Prod.mk.injEq] at h
      exact Or.inl h.2.symm
    · rcases hnew : getNewID k with ⟨new, k₂⟩
      rw [hnew] at hobj
      simp only at hobj
      split at hobj
      · cases hobj
      · simp only [Option.some.injEq, Prod.mk.injEq] at hobj
        obtain ⟨rfl, rfl⟩ := hobj
        rcases getNewID_cases hnew with rfl | ⟨i, rfl, hi, hfree, rfl⟩
        · simp [ERROR] at *
        · have hne : ¬ ((i : Int) = ERROR) := by simp [ERROR]
          rw [if_neg hne] at h
          simp only [Option.pure_def, Option.some.injEq, Prod.mk.injEq, Int.toNat_natCast] at h
          exact Or.inr ⟨i, hi, hfree, h.2.symm⟩

/-- Fresh wait lists are empty circles. -/
theorem rep_foldl_listInit {q : Heap QueueId PcbPtr} (h : q.Rep Set.univ s) (ws : List WaitList)
    (hws : ∀ w ∈ ws, s (.wait w) = []) :
    (ws.foldl (fun q w => q.listInit (.wait w)) q).Rep Set.univ s := by
  induction ws generalizing q with
  | nil => exact h
  | cons w ws ih =>
    exact ih (h.listInit (hws w (by simp))) fun v hv => hws v (by simp [hv])

theorem getCheckSync_of_slot (h : SyncTable k s) {i : Nat} {o : SyncObj}
    (ho : k.sync_table i = some o) : getCheckSync k i = some o := by
  have hi := h.bound i o ho
  unfold getCheckSync
  rw [if_neg (by omega), Int.toNat_natCast]
  exact ho

namespace SyncTable

/-- A slot that is not in use has no waiters. -/
theorem noWaiter (h : SyncTable k s) {w : WaitList} (hfree : k.id_used w.slot = false) :
    s (.wait w) = [] := by
  refine List.eq_nil_iff_forall_not_mem.2 fun p hp => ?_
  obtain ⟨o, ho, -⟩ := h.fits w p hp
  rw [h.used _ o ho] at hfree
  cases hfree

theorem congr (h : SyncTable k s) (ht : k'.sync_table = k.sync_table) (hu : k'.id_used = k.id_used)
    (hs : ∀ w p, p ∈ s' (.wait w) → p ∈ s (.wait w) ∨
      ∃ o, k.sync_table w.slot = some o ∧ w.Fits o.object) : SyncTable k' s' where
  id i o ho := h.id i o (ht ▸ ho)
  bound i o ho := h.bound i o (ht ▸ ho)
  used i o ho := by rw [hu]; exact h.used i o (ht ▸ ho)
  fits w p hp := by
    rw [ht]
    rcases hs w p hp with hp | ho
    · exact h.fits w p hp
    · exact ho

/-- An object is replaced by one of the same type. -/
theorem setObject (h : SyncTable k s) {i : Nat} {o : SyncObj} {x : SyncObject}
    (ho : k.sync_table i = some o) (hx : ∀ w : WaitList, w.Fits o.object → w.Fits x) :
    SyncTable (k.setObject i x) s where
  id j o' ho' := by
    by_cases e : j = i
    · subst e
      simp only [Kernel.setObject, Function.update_self, ho, Option.map_some,
        Option.some.injEq] at ho'
      rw [← ho']
      exact h.id j o ho
    · simp only [Kernel.setObject, Function.update_of_ne e] at ho'
      exact h.id j o' ho'
  bound j o' ho' := by
    by_cases e : j = i
    · subst e; exact h.bound j o ho
    · simp only [Kernel.setObject, Function.update_of_ne e] at ho'
      exact h.bound j o' ho'
  used j o' ho' := by
    by_cases e : j = i
    · subst e; exact h.used j o ho
    · simp only [Kernel.setObject, Function.update_of_ne e] at ho'
      exact h.used j o' ho'
  fits w p hp := by
    obtain ⟨o', ho', hfit⟩ := h.fits w p hp
    by_cases e : w.slot = i
    · rw [e, ho, Option.some.injEq] at ho'
      subst ho'
      exact ⟨{ o with object := x }, by simp [Kernel.setObject, e, ho], hx w hfit⟩
    · exact ⟨o', by simpa [Kernel.setObject, e] using ho', hfit⟩

/-- A new object in a slot that was not in use. -/
theorem init (h : SyncTable k s) {i : Nat} {x : SyncObject} (hi : i < MAX_SYNCS)
    (hfree : k.id_used i = false)
    (ht : k'.sync_table = Function.update k.sync_table i (some ⟨i, x⟩))
    (hu : k'.id_used = Function.update k.id_used i true) : SyncTable k' s where
  id j o ho := by
    rw [ht] at ho
    by_cases e : j = i
    · subst e
      simp only [Function.update_self, Option.some.injEq] at ho
      rw [← ho]
    · rw [Function.update_of_ne e] at ho
      exact h.id j o ho
  bound j o ho := by
    rw [ht] at ho
    by_cases e : j = i
    · rw [e]; exact hi
    · rw [Function.update_of_ne e] at ho
      exact h.bound j o ho
  used j o ho := by
    rw [ht] at ho
    rw [hu]
    by_cases e : j = i
    · subst e; simp
    · rw [Function.update_of_ne e] at ho ⊢
      exact h.used j o ho
  fits w p hp := by
    have e : w.slot ≠ i := by
      rintro rfl
      rw [h.noWaiter hfree] at hp
      simp at hp
    rw [ht, Function.update_of_ne e]
    exact h.fits w p hp

end SyncTable

/-- An `Init` call of the right wait lists keeps the lists and the table. -/
theorem syncInit_keeps {object : SyncObject} {lists : Nat → List WaitList} {idp rc : Int}
    {allocated : Bool} (hc : Coherent k s) (ht : SyncTable k s)
    (hlists : ∀ i, ∀ w ∈ lists i, w.slot = i)
    (h : syncInit object lists k idp allocated = some (rc, k')) :
    Coherent k' s ∧ SyncTable k' s := by
  rcases syncInit_cases h with rfl | ⟨i, hi, hfree, rfl⟩
  · exact ⟨hc, ht⟩
  · refine ⟨⟨rep_foldl_listInit hc.rep _ fun w hw => ?_, hc.listed, hc.unlisted, hc.idle⟩,
      ht.init hi hfree rfl rfl⟩
    exact ht.noWaiter (by rw [hlists i w hw]; exact hfree)

end Yalnix
