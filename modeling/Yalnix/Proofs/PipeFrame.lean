import Yalnix.Proofs.LockMoves

/-!
# What the other calls leave of the pipes

A call on a lock or a condition variable, a new object and `schedule` change no pipe, and no field that
a pipe call writes.
-/

namespace Yalnix

open Intrusive Transition

variable {hw : Hardware} {k k' k'' : Kernel} {s s' : QueueId → List PcbPtr} {i : Nat} {p : PcbPtr}

/-- The fields of a process that say what it waits for at a pipe. -/
def Pcb.request (pcb : Pcb) : Option BufPtr × Int × Int := (pcb.pipe_buffer, pcb.pipe_len, pcb.write_loc)

/-- The pipes that were there, and what everybody asks for, stay; there may be a new pipe. -/
structure PipeFrame (k k' : Kernel) : Prop where
  pipe : ∀ j, k'.pipe j = k.pipe j ∨
    (k.pipe j = none ∧ ∃ buffer, k'.pipe j = some (newPipe buffer))
  request : ∀ n, (k'.pcb n).request = (k.pcb n).request
  history : k'.pipeHistory = k.pipeHistory
  freed : k'.kbufFreed = k.kbufFreed

namespace PipeFrame

theorem refl (k : Kernel) : PipeFrame k k := ⟨fun _ => Or.inl rfl, fun _ => rfl, rfl, rfl⟩

theorem trans (h : PipeFrame k k') (h' : PipeFrame k' k'') : PipeFrame k k'' := by
  refine ⟨fun j => ?_, fun n => (h'.request n).trans (h.request n), h'.history.trans h.history,
    h'.freed.trans h.freed⟩
  rcases h.pipe j with hj | ⟨hnone, buffer, hj⟩
  · rw [← hj]
    exact h'.pipe j
  · rcases h'.pipe j with hj' | ⟨hnone', -⟩
    · exact Or.inr ⟨hnone, buffer, hj'.trans hj⟩
    · rw [hj] at hnone'
      cases hnone'

/-- A change of one process that leaves its requests. -/
theorem modifyPcb (k : Kernel) (p : PcbPtr) {f : Pcb → Pcb} (hf : ∀ pcb, (f pcb).request = pcb.request) :
    PipeFrame k (k.modifyPcb p f) := by
  refine ⟨fun _ => Or.inl rfl, fun n => ?_, rfl, rfl⟩
  by_cases e : n = p
  · subst e
    simp [Kernel.modifyPcb, hf]
  · simp [Kernel.modifyPcb, e]

theorem queues (k : Kernel) (q : Heap QueueId PcbPtr) : PipeFrame k { k with queues := q } :=
  ⟨fun _ => Or.inl rfl, fun _ => rfl, rfl, rfl⟩

theorem pop {l : QueueId} {node : Option PcbPtr} (h : k.pop l = some (node, k')) : PipeFrame k k' := by
  unfold Kernel.pop at h
  simp only [Option.bind_eq_bind, Option.bind_eq_some_iff, Option.pure_def, Option.some.injEq,
    Prod.mk.injEq] at h
  obtain ⟨-, -, -, -, -, rfl⟩ := h
  exact queues k _

theorem insertTail {l : QueueId} (h : k.insertTail l p = some k') : PipeFrame k k' := by
  obtain ⟨q, -, rfl⟩ := Option.map_eq_some_iff.1 h
  exact queues k q

theorem addToReadyQueue (h : Yalnix.addToReadyQueue k p = some k') : PipeFrame k k' := by
  unfold Yalnix.addToReadyQueue addToQueue at h
  split at h
  · rw [← Option.some.inj h]
    exact refl k
  · exact (modifyPcb k p (by exact fun _ => rfl)).trans (insertTail h)

/-- Another lock in the place of a lock. -/
theorem setLock {lock new : Lock} (hl : k.lock i = some lock) :
    PipeFrame k (k.setObject i (.lock new)) := by
  refine ⟨fun j => Or.inl ?_, fun _ => rfl, rfl, rfl⟩
  by_cases e : j = i
  · subst e
    obtain ⟨o, ho, hobj⟩ := lock_eq_some hl
    simp [Kernel.pipe, Kernel.setObject, ho, hobj, SyncObject.asPipe]
  · simp [Kernel.pipe, Kernel.setObject, e]

theorem handOff {lock : Lock} (hl : k.lock i = some lock) (h : Yalnix.handOff k i lock = some k') :
    PipeFrame k k' := by
  unfold Yalnix.handOff at h
  split at h
  · simp only [Option.bind_eq_bind, Option.bind_eq_some_iff, Option.pure_def, Option.some.injEq] at h
    obtain ⟨⟨node, k₁⟩, hpop, next, -, k₂, hadd, rfl⟩ := h
    have htable : k₂.sync_table = k.sync_table := by
      unfold Kernel.pop at hpop
      simp only [Option.bind_eq_bind, Option.bind_eq_some_iff, Option.pure_def, Option.some.injEq,
        Prod.mk.injEq] at hpop
      obtain ⟨q, -, _, -, -, rfl⟩ := hpop
      unfold Yalnix.addToReadyQueue addToQueue at hadd
      split at hadd
      · rw [← Option.some.inj hadd]
        rfl
      · obtain ⟨q, -, rfl⟩ := Option.map_eq_some_iff.1 hadd
        rfl
    have hframe : PipeFrame k k₂ := (pop hpop).trans ((modifyPcb k₁ next (by exact fun _ => rfl)).trans
      (addToReadyQueue hadd))
    have hl' : k₂.lock i = some lock := by
      unfold Kernel.lock at hl ⊢
      rwa [htable]
    exact hframe.trans (setLock hl')
  · rw [← Option.some.inj h]
    exact setLock hl

theorem wakeCvarWaiter (h : Yalnix.wakeCvarWaiter k i = some k') : PipeFrame k k' := by
  unfold Yalnix.wakeCvarWaiter at h
  simp only [Option.bind_eq_bind, Option.bind_eq_some_iff] at h
  obtain ⟨⟨node, k₁⟩, hpop, next, -, hadd⟩ := h
  exact (pop hpop).trans ((modifyPcb k₁ next (by exact fun _ => rfl)).trans (addToReadyQueue hadd))

theorem broadcastLoop (n : Nat) (h : Yalnix.broadcastLoop i n k = some k') : PipeFrame k k' := by
  induction n generalizing k with
  | zero =>
    rw [Yalnix.broadcastLoop] at h
    split at h
    · rw [← Option.some.inj h]
      exact refl k
    · cases h
  | succ n ih =>
    rw [Yalnix.broadcastLoop] at h
    split at h
    · rw [← Option.some.inj h]
      exact refl k
    · simp only [Option.bind_eq_bind, Option.bind_eq_some_iff] at h
      obtain ⟨k₁, hwake, h⟩ := h
      exact (wakeCvarWaiter hwake).trans (ih h)

/-- A new object takes a slot that no pipe has. -/
theorem init (ht : SyncTable k s) {object : SyncObject} {lists : Nat → List WaitList} {idp rc : Int}
    {allocated : Bool} (hnew : ∀ pipe, object.asPipe = some pipe → ∃ buffer, pipe = newPipe buffer)
    (h : syncInit object lists k idp allocated = some (rc, k')) : PipeFrame k k' := by
  rcases syncInit_cases h with rfl | ⟨j, -, hfree, rfl⟩
  · exact refl _
  · refine ⟨fun m => ?_, fun _ => rfl, rfl, rfl⟩
    by_cases e : m = j
    · subst e
      have hnone : k.pipe m = none := by
        cases hp : k.pipe m with
        | none => rfl
        | some pipe =>
          obtain ⟨o, ho, -⟩ := pipe_eq_some hp
          rw [ht.used m o ho] at hfree
          cases hfree
      cases hobj : object.asPipe with
      | none => exact Or.inl (by simp [Kernel.pipe, hobj, ← hnone])
      | some pipe =>
        obtain ⟨buffer, rfl⟩ := hnew pipe hobj
        exact Or.inr ⟨hnone, buffer, by simp [Kernel.pipe, hobj]⟩
    · exact Or.inl (by simp [Kernel.pipe, e])

end PipeFrame

/-- The calls of `sync.c` on pipes. -/
def SyncCall.onPipe : SyncCall → Bool
  | .readPipe _ _ _ => true
  | .writePipe _ _ _ => true
  | _ => false

/-- The other calls leave the pipes alone. -/
theorem syncCall_pipeFrame (ht : SyncTable k s) {c : SyncCall} (hc : c.onPipe = false) {rc : Int}
    (hrun : c.run hw k = some (rc, k')) : PipeFrame k k' := by
  cases c with
  | readPipe => cases hc
  | writePipe => cases hc
  | initPipe pipe_idp allocated buffer =>
    have hrun : syncInitPipe k pipe_idp allocated buffer = some (rc, k') := hrun
    unfold syncInitPipe at hrun
    refine .init ht (fun pipe hp => ⟨buffer, ?_⟩) hrun
    cases hp
    rfl
  | initLock lock_idp allocated =>
    have hrun : syncInitLock k lock_idp allocated = some (rc, k') := hrun
    unfold syncInitLock at hrun
    exact .init ht (fun pipe hp => by cases hp) hrun
  | initCvar cvar_idp allocated =>
    have hrun : syncInitCvar k cvar_idp allocated = some (rc, k') := hrun
    unfold syncInitCvar at hrun
    exact .init ht (fun pipe hp => by cases hp) hrun
  | lockAcquire lock_id =>
    have hrun : syncLockAcquire k lock_id = some (rc, k') := hrun
    unfold syncLockAcquire at hrun
    split at hrun
    · simp only [Option.some.injEq, Prod.mk.injEq] at hrun
      exact hrun.2 ▸ .refl k
    · rename_i o hcheck
      simp only [Option.bind_eq_bind, Option.bind_eq_some_iff] at hrun
      obtain ⟨lock, hlock, hrun⟩ := hrun
      split at hrun
      · simp only [Option.pure_def, Option.some.injEq, Prod.mk.injEq] at hrun
        exact hrun.2 ▸ .setLock (asLock_eq_some hlock (getCheckSync_eq_some hcheck).1)
      · simp only [Option.bind_eq_some_iff, Option.pure_def, Option.some.injEq, Prod.mk.injEq] at hrun
        obtain ⟨k₁, hins, -, rfl⟩ := hrun
        exact (PipeFrame.insertTail hins).trans (.modifyPcb k₁ _ fun _ => rfl)
  | lockRelease lock_id =>
    have hrun : syncLockRelease k lock_id = some (rc, k') := hrun
    unfold syncLockRelease at hrun
    split at hrun
    · simp only [Option.some.injEq, Prod.mk.injEq] at hrun
      exact hrun.2 ▸ .refl k
    · rename_i o hcheck
      simp only [Option.bind_eq_bind, Option.bind_eq_some_iff] at hrun
      obtain ⟨lock, hlock, hrun⟩ := hrun
      split at hrun
      · simp only [Option.bind_eq_some_iff, Option.pure_def, Option.some.injEq, Prod.mk.injEq] at hrun
        obtain ⟨-, -, -, rfl⟩ := hrun
        exact .refl k
      · simp only [Option.bind_eq_some_iff, Option.pure_def, Option.some.injEq, Prod.mk.injEq] at hrun
        obtain ⟨k₁, hoffer, -, rfl⟩ := hrun
        exact .handOff (asLock_eq_some hlock (getCheckSync_eq_some hcheck).1) hoffer
  | cvarWait cvar_id lock_id =>
    have hrun : syncCvarWait k cvar_id lock_id = some (rc, k') := hrun
    unfold syncCvarWait at hrun
    split at hrun
    · simp only [Option.some.injEq, Prod.mk.injEq] at hrun
      exact hrun.2 ▸ .refl k
    · split at hrun
      · simp only [Option.some.injEq, Prod.mk.injEq] at hrun
        exact hrun.2 ▸ .refl k
      · rename_i o hcheck
        simp only [Option.bind_eq_bind, Option.bind_eq_some_iff] at hrun
        obtain ⟨lock, hlock, hrun⟩ := hrun
        split at hrun
        · simp only [Option.bind_eq_some_iff, Option.pure_def, Option.some.injEq, Prod.mk.injEq] at hrun
          obtain ⟨-, -, -, rfl⟩ := hrun
          exact .refl k
        · simp only [Option.bind_eq_some_iff, Option.pure_def, Option.some.injEq, Prod.mk.injEq] at hrun
          obtain ⟨k₁, hoffer, -, -, k₂, hins, -, rfl⟩ := hrun
          have hhand : PipeFrame k k₁ :=
            .handOff (asLock_eq_some hlock (getCheckSync_eq_some hcheck).1) hoffer
          exact hhand.trans ((PipeFrame.insertTail hins).trans (.modifyPcb k₂ _ fun _ => rfl))
  | cvarSignal cvar_id =>
    have hrun : syncCvarSignal k cvar_id = some (rc, k') := hrun
    unfold syncCvarSignal at hrun
    split at hrun
    · simp only [Option.some.injEq, Prod.mk.injEq] at hrun
      exact hrun.2 ▸ .refl k
    · simp only [Option.bind_eq_bind, Option.bind_eq_some_iff] at hrun
      obtain ⟨⟨⟩, -, hrun⟩ := hrun
      split at hrun
      · simp only [Option.pure_def, Option.some.injEq, Prod.mk.injEq] at hrun
        exact hrun.2 ▸ .refl k
      · simp only [Option.bind_eq_some_iff, Option.pure_def, Option.some.injEq, Prod.mk.injEq] at hrun
        obtain ⟨k₁, hwake, -, rfl⟩ := hrun
        exact .wakeCvarWaiter hwake
  | cvarBroadcast cvar_id ret =>
    have hrun : syncCvarBroadcast k cvar_id ret = some (rc, k') := hrun
    unfold syncCvarBroadcast at hrun
    split at hrun
    · simp only [Option.some.injEq, Prod.mk.injEq] at hrun
      exact hrun.2 ▸ .refl k
    · simp only [Option.bind_eq_bind, Option.bind_eq_some_iff] at hrun
      obtain ⟨⟨⟩, -, hrun⟩ := hrun
      split at hrun
      · simp only [Option.pure_def, Option.some.injEq, Prod.mk.injEq] at hrun
        exact hrun.2 ▸ .refl k
      · simp only [Option.bind_eq_some_iff, Option.pure_def, Option.some.injEq, Prod.mk.injEq] at hrun
        obtain ⟨k₁, hloop, -, rfl⟩ := hrun
        exact .broadcastLoop _ hloop

/-- A call leaves the wait lists alone that it does not touch. -/
theorem SyncMoves.list_eq {T : WaitList → Prop} (hm : SyncMoves p T k s k' s') {v : WaitList}
    (hv : ¬ T v) : s' (.wait v) = s (.wait v) := by
  have hne : ∀ w, T w → v ≠ w := by
    rintro w hw rfl
    exact hv hw
  induction hm with
  | refl => rfl
  | head hmove _ ih =>
    rw [ih]
    cases hmove with
    | own => rfl
    | block h hoff hT => exact Function.update_of_ne (by simpa using hne _ hT) _ _
    | wake h hs hT => exact woken_ne (hne _ hT)
    | refill => rfl

end Yalnix
