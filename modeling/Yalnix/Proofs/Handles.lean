import Yalnix.Proofs.Identity
import Yalnix.Proofs.TableRun
import Yalnix.WholeRun

/-!
# Ids are handles

Whatever the processes do, the three records of the synchronization table agree, and the id of an object
names an object of that type until somebody reclaims it.
-/

namespace Yalnix

open Transition

variable {hw : Hardware} {h : Header} {b : Boot hw} {k k' k₀ : Kernel} {e : VectorEvent} {i : Nat}
  {t t' : List (Kernel × VectorEvent)}

theorem TableIntegrity.congr (hk : TableIntegrity k) (ht : k'.sync_table = k.sync_table)
    (hu : k'.id_used = k.id_used) (hc : k'.global_sync_counter = k.global_sync_counter) :
    TableIntegrity k' where
  used j hj := by
    rw [ht, hu]
    exact hk.used j hj
  counter := by
    rw [hc, hk.counter, Kernel.liveIds, Kernel.liveIds, ht]
  id j o hj ho := by
    rw [ht] at ho
    exact hk.id j o hj ho

/-- An object is replaced by another that keeps its id. -/
theorem TableIntegrity.setObject (hk : TableIntegrity k) (i : Nat) (o : SyncObject) :
    TableIntegrity (k.setObject i o) := by
  have hsome : ∀ j, ((k.setObject i o).sync_table j).isSome = (k.sync_table j).isSome := by
    intro j
    by_cases e : j = i
    · subst e
      simp [Kernel.setObject]
    · simp [Kernel.setObject, e]
  refine ⟨fun j hj => ?_, ?_, fun j o' hj ho' => ?_⟩
  · rw [hsome j]
    exact hk.used j hj
  · have hlive : (k.setObject i o).liveIds = k.liveIds := by
      unfold Kernel.liveIds
      exact List.filter_congr fun j _ => hsome j
    rw [hlive]
    exact hk.counter
  · by_cases e : j = i
    · subst e
      simp only [Kernel.setObject, Function.update_self, Option.map_eq_some_iff] at ho'
      obtain ⟨old, hold, rfl⟩ := ho'
      exact hk.id j old hj hold
    · simp only [Kernel.setObject, Function.update_of_ne e] at ho'
      exact hk.id j o' hj ho'

theorem slotType_setObject {o : SyncObject} (htype : k.slotType i = some o.type) (j : Nat) :
    (k.setObject i o).slotType j = k.slotType j := by
  by_cases e : j = i
  · subst e
    rw [htype]
    obtain ⟨sync, hsync, -⟩ := Option.map_eq_some_iff.1 htype
    simp [Kernel.slotType, Kernel.setObject, hsync]
  · simp [Kernel.slotType, Kernel.setObject, e]

namespace KeepsHandles

variable {gone : Int → Prop}

/-- The table is the same. -/
theorem of_table (hcurrent : k'.current_process = k.current_process) (ht : k'.sync_table = k.sync_table)
    (hu : k'.id_used = k.id_used) (hc : k'.global_sync_counter = k.global_sync_counter) :
    KeepsHandles gone k k' := by
  refine ⟨hcurrent, fun hk => hk.congr ht hu hc, fun _ i _ _ ty htype => ?_⟩
  rw [slotType_of_table ht]
  exact htype

/-- `InitSyncObject` takes a slot that has no object. -/
theorem init {o : SyncObject} {allocated : Bool} {rc : Int}
    (hinit : initSyncObject k o allocated = some (rc, k')) : KeepsHandles gone k k' := by
  unfold initSyncObject at hinit
  split at hinit
  · obtain ⟨-, rfl⟩ := Prod.mk.inj (Option.some.inj hinit)
    exact of_table rfl rfl rfl rfl
  · generalize hnew : getNewID k = r at hinit
    obtain ⟨id, k₁⟩ := r
    simp only at hinit
    split at hinit
    · cases hinit
    · rename_i hpos
      obtain ⟨-, rfl⟩ := Prod.mk.inj (Option.some.inj hinit)
      rcases getNewID_cases hnew with rfl | ⟨i, rfl, hi, hfree, rfl⟩
      · exact absurd (by decide) hpos
      · have hnone : TableIntegrity k → k.sync_table i = none := by
          intro hk
          have hused := hk.used i hi
          rw [hfree] at hused
          simpa using hused
        refine ⟨rfl, fun hk => hk.insert (x := o) hi (hnone hk) rfl rfl rfl, fun hk j _ _ ty htype => ?_⟩
        have hne : j ≠ i := by
          rintro rfl
          rw [Kernel.slotType, hnone hk] at htype
          cases htype
        simpa [Kernel.slotType, hne] using htype

/-- `SyncReclaim` takes the object of its id out of the table. -/
theorem reclaim {id rc : Int} (hgone : gone id) (hreclaim : syncReclaim k id = some (rc, k')) :
    KeepsHandles gone k k' := by
  unfold syncReclaim at hreclaim
  split at hreclaim
  · obtain ⟨-, rfl⟩ := Prod.mk.inj (Option.some.inj hreclaim)
    exact of_table rfl rfl rfl rfl
  · rename_i sync hcheck
    simp only [Option.bind_eq_bind, Option.bind_eq_some_iff, Option.pure_def, Option.some.injEq,
      Prod.mk.injEq] at hreclaim
    obtain ⟨queues, -, -, rfl⟩ := hreclaim
    obtain ⟨hslot, hid⟩ := getCheckSync_eq_some hcheck
    have hlt : id.toNat < MAX_SYNCS := by
      unfold getCheckSync at hcheck
      split at hcheck
      · cases hcheck
      · omega
    have hfree : TableIntegrity k → freeID { k with queues := queues } id = { k with
        queues := queues
        id_used := Function.update k.id_used id.toNat false
        global_sync_counter := k.global_sync_counter - 1 } := by
      intro hk
      have hk' : TableIntegrity { k with queues := queues } := hk.congr rfl rfl rfl
      have heq := hk'.freeID_eq hlt (by rw [hslot]; rfl)
      rwa [hid] at heq
    refine ⟨?_, fun hk => ?_, fun hk j _ hj ty htype => ?_⟩
    · unfold freeID
      split <;> rfl
    · rw [hfree hk]
      exact hk.erase hlt (by rw [hslot]; rfl) rfl rfl rfl
    · have hne : j ≠ id.toNat := by
        rintro rfl
        exact hj (by rwa [hid])
      rw [hfree hk]
      simpa [Kernel.slotType, hne] using htype

theorem allows (hw : Hardware) (new : PcbPtr → Prop) (gone : Int → Prop) :
    Allows hw new gone (KeepsHandles gone) where
  refl _ := of_table rfl rfl rfl rfl
  trans h h' := by
    refine ⟨h'.current.trans h.current, fun hk => h'.integrity (h.integrity hk), ?_⟩
    intro hk i hi hno ty htype
    exact h'.type (h.integrity hk) i hi hno ty (h.type hk i hi hno ty htype)
  current := KeepsHandles.current
  links heq := by
    rw [heq]
    exact of_table rfl rfl rfl rfl
  store _ := of_table rfl rfl rfl rfl
  pcb _ := of_table rfl rfl rfl rfl
  free := of_table rfl rfl rfl rfl
  memory _ := of_table rfl rfl rfl rfl
  walk := of_table rfl rfl rfl rfl
  object o htype := by
    refine ⟨rfl, fun hk => hk.setObject _ o, fun _ j _ _ ty hty => ?_⟩
    rw [slotType_setObject htype]
    exact hty
  init hinit := init hinit
  reclaim hgone hreclaim := reclaim hgone hreclaim

/-- An event keeps the ids but those it reclaims. -/
theorem of_step (hstep : (vectorMachine hw h).step k e = some k') :
    (TableIntegrity k → TableIntegrity k') ∧ (TableIntegrity k → ∀ i < MAX_SYNCS, ¬ e.Reclaims h i →
      ∀ ty, k.slotType i = some ty → k'.slotType i = some ty) := by
  rcases (allows hw e.Gives (e.Reclaims h)).vectorStep (fun _ hp => hp) (fun _ hid => hid) hstep with
    hk | ⟨u, a, rfl, hk⟩ | ⟨caller, rfl, -, hswitch⟩
  · exact ⟨hk.integrity, hk.type⟩
  · have hcreate : ∀ {k₁ : Kernel}, k₁ = createPcb hw { k with uctxt := u } a.child_pcb →
        TableIntegrity k → TableIntegrity k₁ := by
      rintro k₁ rfl hk
      exact hk.congr rfl rfl rfl
    exact ⟨fun hi => hk.integrity (hcreate rfl hi), fun hi => hk.type (hcreate rfl hi)⟩
  · obtain ⟨next, q, rfl⟩ := schedule_switched hswitch
    exact ⟨fun hk => hk.congr rfl rfl rfl, fun _ i _ _ ty htype => htype⟩

end KeepsHandles

/-- Boot leaves the table empty. -/
theorem kernelStart_table (h₀ : kernelStart b = some k₀) : TableIntegrity k₀ := by
  simp only [kernelStart, Option.bind_eq_bind, Option.bind_eq_some_iff, Option.pure_def,
    Option.some.injEq] at h₀
  obtain ⟨k₁, hidle, k₂, hinit, k₃, hready, rfl⟩ := h₀
  obtain ⟨m₁, idle, -, rfl⟩ := startIdle_cases hidle
  obtain ⟨m₂, init, -, rfl⟩ := startInit_cases hinit
  have hkept := (KeepsHandles.allows hw (fun _ => False) fun _ => False).addToQueue hready
  have hempty : TableStart b.globals := ⟨fun _ => rfl, fun _ => rfl, rfl⟩
  have hbefore := hkept.integrity (hempty.tableInv.integrity.congr rfl rfl rfl)
  exact hbefore.congr rfl rfl rfl

/-- In every run of the machine from boot in which no call has to wait the records of the table agree, and as long
as nobody reclaims the id of an object, it names an object of that type. -/
theorem handles_stable (h₀ : kernelStart b = some k₀)
    (hrun : Run (vectorMachine hw h) (CallsGoOn hw h) k₀ t k)
    (hrun' : Run (vectorMachine hw h) (CallsGoOn hw h) k t' k') :
    TableIntegrity k' ∧ ∀ i < MAX_SYNCS, ∀ ty, k.slotType i = some ty →
      (∀ x ∈ t', ¬ x.2.Reclaims h i) → k'.slotType i = some ty := by
  have hk : TableIntegrity k := by
    refine hrun.invariant (kernelStart_table h₀) ?_
    intro k e k' hk _ _ hstep
    exact (KeepsHandles.of_step hstep).1 hk
  induction hrun' with
  | nil => exact ⟨hk, fun i _ ty htype _ => htype⟩
  | @snoc t' k₁ k₂ e _ hen _ hstep ih =>
    obtain ⟨hk₁, hkept⟩ := ih
    obtain ⟨hintegrity, htypes⟩ := KeepsHandles.of_step hstep
    refine ⟨hintegrity hk₁, fun i hi ty htype hno => ?_⟩
    have hbefore := hkept i hi ty htype fun x hx => hno x (List.mem_append_left _ hx)
    exact htypes hk₁ i hi (hno (k₁, e) (by simp)) ty hbefore

/-- The init process makes a lock and a pipe. -/
def makeEvents : List VectorEvent := [.resume, .ofCode .lockInit, .ofCode .pipeInit]

def madeKernel : Kernel :=
  ((vectorMachine .small .small).exec dispatchedKernel makeEvents).get (by decide +kernel)

theorem madeKernel_run : Run (vectorMachine .small .small) (CallsGoOn .small .small) dispatchedKernel
    ((vectorMachine .small .small).trace dispatchedKernel makeEvents) madeKernel :=
  Run.ofExec (Option.some_get _).symm (by decide +kernel)

/-- It takes the lock, and reclaims it. -/
def giveBackEvents : List VectorEvent := [.ofCode .lockAcquire, .ofCode .reclaim]

def givenBackKernel : Kernel :=
  ((vectorMachine .small .small).exec madeKernel giveBackEvents).get (by decide +kernel)

theorem givenBackKernel_run : Run (vectorMachine .small .small) (CallsGoOn .small .small) madeKernel
    ((vectorMachine .small .small).trace madeKernel giveBackEvents) givenBackKernel :=
  Run.ofExec (Option.some_get _).symm (by decide +kernel)

theorem handles_stable_small : givenBackKernel.slotType 1 = some .pipe :=
  (handles_stable (Option.some_get _).symm (dispatchedKernel_run.trans madeKernel_run)
    givenBackKernel_run).2 1 (by decide) .pipe (by decide +kernel) (by decide +kernel)

end Yalnix
