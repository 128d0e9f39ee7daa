import Yalnix.Proofs.Boot
import Yalnix.Proofs.Clock
import Yalnix.Proofs.KernelMap
import Yalnix.Proofs.SyncTable

/-!
# Handlers do what their actions do

A relation that allows the single actions allows `schedule`-free stretches of every handler: one lemma for
each function of the source, none of which looks at the relation.
-/

namespace Yalnix

open Intrusive

/-! ## Changes of a PCB -/

namespace PcbChange

variable {new own : Prop} {a b : Pcb}

/-- The fields by which the kernel keeps track of a process. -/
theorem bookkeeping (h : b = { a with
    state := b.state
    run_time := b.run_time
    delay_ticks := b.delay_ticks
    parent := b.parent
    waiting_lock_id := b.waiting_lock_id
    waiting_cvar_id := b.waiting_cvar_id
    waiting_pipe_id := b.waiting_pipe_id
    pipe_buffer := b.pipe_buffer
    pipe_len := b.pipe_len
    write_loc := b.write_loc }) : PcbChange new own a b := by
  rw [h]
  exact ⟨rfl, rfl, fun _ => rfl, fun _ _ => ⟨rfl, rfl, rfl, rfl, rfl, rfl, fun _ => rfl⟩⟩

/-- A result that another process hands over. -/
theorem setReg0 (a : Pcb) (v : Int) :
    PcbChange new own a { a with user_context := a.user_context.setReg0 v } := by
  refine ⟨rfl, rfl, fun _ => rfl, fun _ _ => ⟨rfl, rfl, rfl, rfl, rfl, rfl, fun w => ?_⟩⟩
  simp [UserContext.setReg0]

/-- The process that runs may change all but who it is. -/
theorem byItself (hown : own) (hpid : b.pid = a.pid) (hslice : b.time_slice = a.time_slice)
    (hstack : b.kernel_stack = a.kernel_stack) : PcbChange new own a b :=
  ⟨hpid, hslice, fun _ => hstack, fun _ hother => absurd hown hother⟩

/-- A fork fills in the PCB of its child. -/
theorem ofNew (hnew : new) (hpid : b.pid = a.pid) (hslice : b.time_slice = a.time_slice) :
    PcbChange new own a b :=
  ⟨hpid, hslice, fun hold => absurd hnew hold, fun hold => absurd hnew hold⟩

end PcbChange

/-! ## The table -/

section Table

variable {k k' : Kernel} {p : PcbPtr} {l : QueueId} {i : Nat}

theorem slotType_of_table (h : k'.sync_table = k.sync_table) : k'.slotType i = k.slotType i := by
  unfold Kernel.slotType
  rw [h]

theorem slotType_of_pipe {pipe : Pipe} (h : k.pipe i = some pipe) : k.slotType i = some .pipe := by
  obtain ⟨sync, hsync, hpipe⟩ := Option.bind_eq_some_iff.1 h
  unfold Kernel.slotType
  rw [hsync]
  cases hobject : sync.object <;> simp_all [SyncObject.asPipe, SyncObject.type]

theorem slotType_of_check {id : Int} {sync : SyncObj} (h : getCheckSync k id = some sync) :
    k.slotType id.toNat = some sync.object.type := by
  unfold Kernel.slotType
  rw [(getCheckSync_eq_some h).1]
  rfl

theorem type_of_asPipe {o : SyncObject} {pipe : Pipe} (h : o.asPipe = some pipe) : o.type = .pipe := by
  cases o <;> first | rfl | cases h

theorem type_of_asLock {o : SyncObject} {lock : Lock} (h : o.asLock = some lock) : o.type = .lock := by
  cases o <;> first | rfl | cases h

theorem pop_table {node : Option PcbPtr} (h : k.pop l = some (node, k')) :
    k'.sync_table = k.sync_table := by
  simp only [Kernel.pop, Option.bind_eq_bind, Option.bind_eq_some_iff, Option.pure_def,
    Option.some.injEq, Prod.mk.injEq, Prod.exists] at h
  obtain ⟨r, q, -, x, -, -, rfl⟩ := h
  rfl

theorem addToQueue_table {st : ProcessState} (h : addToQueue l st k p = some k') :
    k'.sync_table = k.sync_table := by
  unfold addToQueue at h
  split at h
  · rw [Option.some.inj h]
  · obtain ⟨q, -, rfl⟩ := Option.map_eq_some_iff.1 h
    rfl

end Table

namespace Allows

variable {hw : Hardware} {new : PcbPtr → Prop} {gone : Int → Prop} {R : Kernel → Kernel → Prop}
  (hR : Allows hw new gone R) {k k₁ k' : Kernel} {p : PcbPtr} {l : QueueId} {i n : Nat} {rc : Int}

include hR

theorem setState (k : Kernel) (p : PcbPtr) (st : ProcessState) : R k (k.setState p st) :=
  hR.pcb (.bookkeeping rfl)

theorem setReg0 (k : Kernel) (p : PcbPtr) (v : Int) : R k (k.setReg0 p v) := hR.pcb (.setReg0 _ v)

theorem returnValue (h : R k k₁) (v : Int) : R k (k₁.returnValue v) := hR.trans h (hR.links rfl)

theorem callSchedule (h : R k k₁) (caller : ScheduleCaller) : R k (k₁.callSchedule caller) :=
  hR.trans h (hR.links rfl)

/-! ## Queues -/

theorem insertTail (h : k.insertTail l p = some k') : R k k' := by
  obtain ⟨q, -, rfl⟩ := Option.map_eq_some_iff.1 h
  exact hR.links rfl

theorem insertHead (h : k.insertHead l p = some k') : R k k' := by
  obtain ⟨q, -, rfl⟩ := Option.map_eq_some_iff.1 h
  exact hR.links rfl

theorem pop {node : Option PcbPtr} (h : k.pop l = some (node, k')) : R k k' := by
  simp only [Kernel.pop, Option.bind_eq_bind, Option.bind_eq_some_iff, Option.pure_def,
    Option.some.injEq, Prod.mk.injEq, Prod.exists] at h
  obtain ⟨r, q, -, x, -, -, rfl⟩ := h
  exact hR.links rfl

theorem addToQueue {st : ProcessState} (h : Yalnix.addToQueue l st k p = some k') : R k k' := by
  unfold Yalnix.addToQueue at h
  split at h
  · obtain rfl := Option.some.inj h
    exact hR.refl _
  · exact hR.trans (hR.setState k p st) (hR.insertTail h)

theorem addToDelayQueue {ticks : Int} (h : Yalnix.addToDelayQueue k p ticks = some k') : R k k' := by
  unfold Yalnix.addToDelayQueue at h
  split at h
  · obtain rfl := Option.some.inj h
    exact hR.refl _
  · refine hR.trans ?_ (hR.insertTail h)
    exact hR.trans (hR.setState k p _) (hR.pcb (.bookkeeping rfl))

theorem removeFromQueue {st : ProcessState} : R k (Yalnix.removeFromQueue l st k p) := by
  unfold Yalnix.removeFromQueue
  split
  · exact hR.refl _
  · exact hR.trans (hR.setState k p _) (hR.links rfl)

theorem tickProcess (h : Yalnix.tickProcess k p = some k') : R k k' := by
  unfold Yalnix.tickProcess at h
  simp only at h
  have htick : R k (k.modifyPcb p fun pcb => { pcb with delay_ticks := pcb.delay_ticks - 1 }) :=
    hR.pcb (.bookkeeping rfl)
  split at h
  · exact hR.trans htick (hR.trans hR.removeFromQueue (hR.addToQueue h))
  · obtain rfl := Option.some.inj h
    exact htick

theorem updateDelayedLoop {r : Option (Ref QueueId PcbPtr)}
    (h : Yalnix.updateDelayedLoop n r k = some k') : R k k' := by
  induction n generalizing k r with
  | zero =>
    unfold Yalnix.updateDelayedLoop at h
    split at h
    · obtain rfl := Option.some.inj h
      exact hR.refl _
    · rename_i hzero
      cases hzero
    · cases h
  | succ n ih =>
    match r with
    | some (.node p) =>
      rw [updateDelayedLoop_node] at h
      obtain ⟨k₁, htick, hloop⟩ := Option.bind_eq_some_iff.1 h
      exact hR.trans (hR.tickProcess htick) (ih hloop)
    | some (.head l) =>
      unfold Yalnix.updateDelayedLoop at h
      split at h
      · obtain rfl := Option.some.inj h
        exact hR.refl _
      · rename_i hnode
        cases hnode
      · cases h
    | none =>
      unfold Yalnix.updateDelayedLoop at h
      cases h

theorem updateDelayedProcesses (h : Yalnix.updateDelayedProcesses k = some k') : R k k' := by
  unfold Yalnix.updateDelayedProcesses at h
  split at h
  · obtain rfl := Option.some.inj h
    exact hR.refl _
  · exact hR.updateDelayedLoop h

/-! ## Pipes, locks and condition variables -/

theorem syncInit {object : SyncObject} {lists : Nat → List WaitList} {idp : Int} {allocated : Bool}
    (h : Yalnix.syncInit object lists k idp allocated = some (rc, k')) : R k k' := by
  unfold Yalnix.syncInit at h
  split at h
  · obtain ⟨-, rfl⟩ := Prod.mk.inj (Option.some.inj h)
    exact hR.refl _
  · simp only [Option.bind_eq_bind, Option.bind_eq_some_iff, Prod.exists] at h
    obtain ⟨id, k₁, hinit, h⟩ := h
    split at h
    · obtain ⟨-, rfl⟩ := Prod.mk.inj (Option.some.inj h)
      exact hR.init hinit
    · obtain ⟨-, rfl⟩ := Prod.mk.inj (Option.some.inj h)
      refine hR.trans (hR.trans (hR.init hinit) (hR.store (s := .word k₁.current_process idp id) rfl)) ?_
      exact hR.links rfl

theorem record (k : Kernel) (e : PipeEvent) : R k (k.record e) := hR.links rfl

theorem serveReader {pipe : Pipe} (htype : k.slotType i = some .pipe)
    (h : Yalnix.serveReader hw k i pipe p = some k') : R k k' := by
  simp only [Yalnix.serveReader, Option.bind_eq_bind, Option.bind_eq_some_iff, Option.pure_def,
    Option.ite_none_left_eq_some, Option.some.injEq] at h
  obtain ⟨dest, -, -, rfl⟩ := h
  generalize readLoop hw 1 pipe (k.kbuf dest) 0 _ = r
  refine hR.trans (hR.trans ?_ (hR.setReg0 _ p _)) (hR.pcb (.bookkeeping rfl))
  exact hR.trans (hR.object (.pipe r.1) htype) (hR.links rfl)

theorem fillFromWriter {pipe : Pipe} (htype : k.slotType i = some .pipe)
    (h : Yalnix.fillFromWriter hw k i pipe p = some k') : R k k' := by
  simp only [Yalnix.fillFromWriter, Option.bind_eq_bind, Option.bind_eq_some_iff, Option.pure_def,
    Option.ite_none_left_eq_some, Option.some.injEq] at h
  obtain ⟨src, -, -, rfl⟩ := h
  exact hR.trans (hR.trans (hR.object _ htype) (hR.record _ _)) (hR.pcb (.bookkeeping rfl))

theorem finishWriter (k : Kernel) (p : PcbPtr) : R k (Yalnix.finishWriter k p) :=
  hR.trans (hR.pcb (.bookkeeping rfl)) (hR.setReg0 _ p _)

/-- The two drain loops call each other. -/
theorem syncDrain : (∀ k k', syncDrainWriters hw n k i = some k' → R k k') ∧
    ∀ k k', syncDrainReaders hw n k i = some k' → R k k' := by
  induction n with
  | zero =>
    refine ⟨fun k k' h => ?_, fun k k' h => ?_⟩
    · simp [syncDrainWriters] at h
    · simp [syncDrainReaders] at h
  | succ n ih =>
    obtain ⟨writers, readers⟩ := ih
    refine ⟨fun k k' h => ?_, fun k k' h => ?_⟩
    · simp only [syncDrainWriters, Option.bind_eq_bind, Option.bind_eq_some_iff, Prod.exists] at h
      obtain ⟨node, k₁, hpop, pipe, hpipe, h⟩ := h
      apply hR.trans (hR.pop hpop)
      cases node with
      | none =>
        simp only at h
        split at h
        · exact readers _ _ h
        · obtain rfl := Option.some.inj h
          exact hR.refl _
      | some writer =>
        simp only [Option.bind_eq_some_iff] at h
        obtain ⟨k₂, hfill, h⟩ := h
        apply hR.trans (hR.fillFromWriter (slotType_of_pipe hpipe) hfill)
        split at h
        · simp only [Option.bind_eq_some_iff] at h
          obtain ⟨k₃, hins, pipe', -, h⟩ := h
          apply hR.trans (hR.insertHead hins)
          split at h
          · exact readers _ _ h
          · obtain rfl := Option.some.inj h
            exact hR.refl _
        · simp only [Option.bind_eq_some_iff] at h
          obtain ⟨k₃, hready, h⟩ := h
          exact hR.trans (hR.finishWriter k₂ writer) (hR.trans (hR.addToQueue hready) (writers _ _ h))
    · simp only [syncDrainReaders, Option.bind_eq_bind, Option.bind_eq_some_iff] at h
      obtain ⟨pipe, hpipe, h⟩ := h
      split at h
      · simp only [Option.bind_eq_some_iff, Prod.exists] at h
        obtain ⟨node, k₁, hpop, h⟩ := h
        have htype : k₁.slotType i = some .pipe :=
          (slotType_of_table (pop_table hpop)).trans (slotType_of_pipe hpipe)
        apply hR.trans (hR.pop hpop)
        cases node with
        | none =>
          simp only at h
          split at h
          · exact writers _ _ h
          · obtain rfl := Option.some.inj h
            exact hR.refl _
        | some reader =>
          simp only [Option.bind_eq_some_iff] at h
          obtain ⟨k₂, hserve, k₃, hready, h⟩ := h
          exact hR.trans (hR.serveReader htype hserve) (hR.trans (hR.addToQueue hready) (readers _ _ h))
      · split at h
        · exact writers _ _ h
        · obtain rfl := Option.some.inj h
          exact hR.refl _

theorem syncReadPipe {id len : Int} {buf : BufPtr}
    (h : Yalnix.syncReadPipe hw k id buf len = some (rc, k')) : R k k' := by
  unfold Yalnix.syncReadPipe at h
  split at h
  · obtain ⟨-, rfl⟩ := Prod.mk.inj (Option.some.inj h)
    exact hR.refl _
  · rename_i sync hcheck
    simp only [Option.bind_eq_bind, Option.bind_eq_some_iff] at h
    obtain ⟨pipe, hpipe, h⟩ := h
    have htype : k.slotType id.toNat = some .pipe := by
      rw [slotType_of_check hcheck, type_of_asPipe hpipe]
    split at h
    · obtain ⟨-, rfl⟩ := Prod.mk.inj (Option.some.inj h)
      exact hR.refl _
    · split at h
      · simp only [Option.bind_eq_some_iff, Option.pure_def, Option.some.injEq, Prod.mk.injEq] at h
        obtain ⟨k₁, hins, -, rfl⟩ := h
        refine hR.trans (hR.trans ?_ (hR.insertTail hins)) (hR.setState _ _ _)
        exact hR.trans (hR.record k _) (hR.pcb (.bookkeeping rfl))
      · simp only [Option.bind_eq_some_iff, Option.pure_def, Option.some.injEq, Prod.mk.injEq] at h
        obtain ⟨k₁, hdrain, -, rfl⟩ := h
        refine hR.trans ?_ (hR.syncDrain.1 _ _ hdrain)
        refine hR.trans (hR.trans ?_ (hR.object _ htype)) (hR.record _ _)
        refine hR.trans ?_ (hR.setReg0 _ _ _)
        exact hR.trans (hR.record k _) (hR.links rfl)

theorem syncWritePipe {id len : Int} {buf : BufPtr}
    (h : Yalnix.syncWritePipe hw k id buf len = some (rc, k')) : R k k' := by
  unfold Yalnix.syncWritePipe at h
  split at h
  · obtain ⟨-, rfl⟩ := Prod.mk.inj (Option.some.inj h)
    exact hR.refl _
  · rename_i sync hcheck
    simp only [Option.bind_eq_bind, Option.bind_eq_some_iff] at h
    obtain ⟨pipe, hpipe, h⟩ := h
    have htype : k.slotType id.toNat = some .pipe := by
      rw [slotType_of_check hcheck, type_of_asPipe hpipe]
    split at h
    · obtain ⟨-, rfl⟩ := Prod.mk.inj (Option.some.inj h)
      exact hR.refl _
    · split at h
      · simp only [Option.bind_eq_some_iff, Option.pure_def, Option.some.injEq, Prod.mk.injEq] at h
        obtain ⟨k₁, hins, k₂, hdrain, -, rfl⟩ := h
        refine hR.trans (hR.trans ?_ (hR.insertTail hins)) (hR.syncDrain.2 _ _ hdrain)
        refine hR.trans (hR.trans ?_ (hR.pcb (.bookkeeping rfl))) (hR.pcb (.bookkeeping rfl))
        refine hR.trans (hR.trans ?_ (hR.object _ htype)) (hR.record _ _)
        exact hR.record k _
      · simp only [Option.bind_eq_some_iff, Option.pure_def, Option.some.injEq, Prod.mk.injEq] at h
        obtain ⟨k₁, hdrain, -, rfl⟩ := h
        refine hR.trans ?_ (hR.syncDrain.2 _ _ hdrain)
        refine hR.trans (hR.trans ?_ (hR.pcb (.bookkeeping rfl))) (hR.setReg0 _ _ _)
        refine hR.trans (hR.trans ?_ (hR.object _ htype)) (hR.record _ _)
        exact hR.record k _

theorem syncLockAcquire {id : Int} (h : Yalnix.syncLockAcquire k id = some (rc, k')) : R k k' := by
  unfold Yalnix.syncLockAcquire at h
  split at h
  · obtain ⟨-, rfl⟩ := Prod.mk.inj (Option.some.inj h)
    exact hR.refl _
  · rename_i sync hcheck
    simp only [Option.bind_eq_bind, Option.bind_eq_some_iff] at h
    obtain ⟨lock, hlock, h⟩ := h
    split at h
    · obtain ⟨-, rfl⟩ := Prod.mk.inj (Option.some.inj h)
      refine hR.object _ ?_
      rw [slotType_of_check hcheck, type_of_asLock hlock]
      rfl
    · simp only [Option.bind_eq_some_iff, Option.pure_def, Option.some.injEq, Prod.mk.injEq] at h
      obtain ⟨k₁, hins, -, rfl⟩ := h
      exact hR.trans (hR.insertTail hins) (hR.pcb (.bookkeeping rfl))

theorem handOff {lock : Lock} (htype : k.slotType i = some .lock)
    (h : Yalnix.handOff k i lock = some k') : R k k' := by
  unfold Yalnix.handOff at h
  split at h
  · simp only [Option.bind_eq_bind, Option.bind_eq_some_iff, Option.pure_def, Option.some.injEq,
      Prod.exists] at h
    obtain ⟨node, k₁, hpop, next, -, k₂, hready, rfl⟩ := h
    have hbefore : k₁.sync_table = k.sync_table := pop_table hpop
    have htable : k₂.sync_table = k.sync_table := (addToQueue_table hready).trans hbefore
    refine hR.trans (hR.pop hpop) (hR.trans (hR.trans ?_ (hR.addToQueue hready)) (hR.object _ ?_))
    · exact hR.pcb (.bookkeeping rfl)
    · exact (slotType_of_table htable).trans htype
  · obtain rfl := Option.some.inj h
    exact hR.object _ htype

theorem syncLockRelease {id : Int} (h : Yalnix.syncLockRelease k id = some (rc, k')) : R k k' := by
  unfold Yalnix.syncLockRelease at h
  split at h
  · obtain ⟨-, rfl⟩ := Prod.mk.inj (Option.some.inj h)
    exact hR.refl _
  · rename_i sync hcheck
    simp only [Option.bind_eq_bind, Option.bind_eq_some_iff] at h
    obtain ⟨lock, hlock, h⟩ := h
    split at h
    · simp only [Option.bind_eq_some_iff, Option.pure_def, Option.some.injEq, Prod.mk.injEq] at h
      obtain ⟨owner, -, -, rfl⟩ := h
      exact hR.refl _
    · simp only [Option.bind_eq_some_iff, Option.pure_def, Option.some.injEq, Prod.mk.injEq] at h
      obtain ⟨k₁, hoff, -, rfl⟩ := h
      refine hR.handOff ?_ hoff
      rw [slotType_of_check hcheck, type_of_asLock hlock]

theorem syncCvarWait {cvar_id lock_id : Int} (h : Yalnix.syncCvarWait k cvar_id lock_id = some (rc, k')) :
    R k k' := by
  unfold Yalnix.syncCvarWait at h
  split at h
  · obtain ⟨-, rfl⟩ := Prod.mk.inj (Option.some.inj h)
    exact hR.refl _
  · split at h
    · obtain ⟨-, rfl⟩ := Prod.mk.inj (Option.some.inj h)
      exact hR.refl _
    · rename_i sync hcheck
      simp only [Option.bind_eq_bind, Option.bind_eq_some_iff] at h
      obtain ⟨lock, hlock, h⟩ := h
      have htype : k.slotType lock_id.toNat = some .lock := by
        rw [slotType_of_check hcheck, type_of_asLock hlock]
      split at h
      · simp only [Option.bind_eq_some_iff, Option.pure_def, Option.some.injEq, Prod.mk.injEq] at h
        obtain ⟨owner, -, -, rfl⟩ := h
        exact hR.refl _
      · simp only [Option.bind_eq_some_iff, Option.pure_def, Option.some.injEq, Prod.mk.injEq] at h
        obtain ⟨k₁, hoff, u, -, k₂, hins, -, rfl⟩ := h
        exact hR.trans (hR.handOff htype hoff) (hR.trans (hR.insertTail hins) (hR.pcb (.bookkeeping rfl)))

theorem wakeCvarWaiter (h : Yalnix.wakeCvarWaiter k i = some k') : R k k' := by
  simp only [Yalnix.wakeCvarWaiter, Option.bind_eq_bind, Option.bind_eq_some_iff, Prod.exists] at h
  obtain ⟨node, k₁, hpop, next, -, hready⟩ := h
  exact hR.trans (hR.pop hpop) (hR.trans (hR.pcb (.bookkeeping rfl)) (hR.addToQueue hready))

theorem broadcastLoop (h : Yalnix.broadcastLoop i n k = some k') : R k k' := by
  induction n generalizing k with
  | zero =>
    unfold Yalnix.broadcastLoop at h
    split at h
    · obtain rfl := Option.some.inj h
      exact hR.refl _
    · cases h
  | succ n ih =>
    unfold Yalnix.broadcastLoop at h
    split at h
    · obtain rfl := Option.some.inj h
      exact hR.refl _
    · obtain ⟨k₁, hwake, hloop⟩ := Option.bind_eq_some_iff.1 h
      exact hR.trans (hR.wakeCvarWaiter hwake) (ih hloop)

theorem syncCvarSignal {id : Int} (h : Yalnix.syncCvarSignal k id = some (rc, k')) : R k k' := by
  unfold Yalnix.syncCvarSignal at h
  split at h
  · obtain ⟨-, rfl⟩ := Prod.mk.inj (Option.some.inj h)
    exact hR.refl _
  · simp only [Option.bind_eq_bind, Option.bind_eq_some_iff] at h
    obtain ⟨u, -, h⟩ := h
    split at h
    · obtain ⟨-, rfl⟩ := Prod.mk.inj (Option.some.inj h)
      exact hR.refl _
    · simp only [Option.bind_eq_some_iff, Option.pure_def, Option.some.injEq, Prod.mk.injEq] at h
      obtain ⟨k₁, hwake, -, rfl⟩ := h
      exact hR.wakeCvarWaiter hwake

theorem syncCvarBroadcast {id r : Int} (h : Yalnix.syncCvarBroadcast k id r = some (rc, k')) : R k k' := by
  unfold Yalnix.syncCvarBroadcast at h
  split at h
  · obtain ⟨-, rfl⟩ := Prod.mk.inj (Option.some.inj h)
    exact hR.refl _
  · simp only [Option.bind_eq_bind, Option.bind_eq_some_iff] at h
    obtain ⟨u, -, h⟩ := h
    split at h
    · obtain ⟨-, rfl⟩ := Prod.mk.inj (Option.some.inj h)
      exact hR.refl _
    · simp only [Option.bind_eq_some_iff, Option.pure_def, Option.some.injEq, Prod.mk.injEq] at h
      obtain ⟨k₁, hloop, -, rfl⟩ := h
      exact hR.broadcastLoop hloop

/-! ## Parents and children -/

theorem addChild {parent : PcbPtr} (h : Yalnix.addChild k parent p = some k') : R k k' := by
  obtain ⟨family, -, rfl⟩ := Option.map_eq_some_iff.1 h
  have hparent : R k (k.modifyPcb p fun pcb => { pcb with parent := some parent }) :=
    hR.pcb (.bookkeeping rfl)
  exact hR.trans hparent (hR.links rfl)

theorem orphanLoop {parent : PcbPtr} (h : Yalnix.orphanLoop parent n k = some k') : R k k' := by
  induction n generalizing k with
  | zero =>
    unfold Yalnix.orphanLoop at h
    split at h
    · obtain rfl := Option.some.inj h
      exact hR.refl _
    · cases h
  | succ n ih =>
    unfold Yalnix.orphanLoop at h
    split at h
    · obtain rfl := Option.some.inj h
      exact hR.refl _
    · simp only [Option.bind_eq_bind, Option.bind_eq_some_iff, Prod.exists] at h
      obtain ⟨node, family, -, h⟩ := h
      have hpop : R k { k with family := family } := hR.links rfl
      apply hR.trans hpop
      match node, h with
      | some (.node child), h =>
        simp only at h
        split at h
        · exact hR.trans hR.free (ih h)
        · exact hR.trans (hR.pcb (.bookkeeping rfl)) (ih h)
      | some (.head _), h => cases h
      | none, h => cases h

theorem orphanChildren (h : Yalnix.orphanChildren k p = some k') : R k k' := by
  unfold Yalnix.orphanChildren at h
  split at h
  · obtain rfl := Option.some.inj h
    exact hR.refl _
  · exact hR.orphanLoop h

theorem releaseProcess {status : Int}
    (h : Yalnix.releaseProcess hw k k.current_process status = some k') : R k k' := by
  simp only [Yalnix.releaseProcess, Option.bind_eq_bind, Option.bind_eq_some_iff, Option.pure_def,
    Option.some.injEq] at h
  obtain ⟨k₁, horphan, rfl⟩ := h
  refine hR.trans (hR.trans ?_ (hR.orphanChildren horphan)) (hR.memory (.freeProcessMemory _ _))
  exact hR.pcb (.byItself rfl rfl rfl rfl)

theorem leaveQueue (k : Kernel) (p : PcbPtr) : R k (Yalnix.leaveQueue k p) := by
  unfold Yalnix.leaveQueue
  split
  · exact hR.removeFromQueue
  · exact hR.removeFromQueue
  · exact hR.removeFromQueue
  · exact hR.refl _

theorem notifyParent {parent : PcbPtr} {status : Int}
    (h : Yalnix.notifyParent k p parent status = some k') : R k k' := by
  simp only [Yalnix.notifyParent, Option.bind_eq_bind, Option.bind_eq_some_iff, Option.pure_def,
    Option.some.injEq] at h
  obtain ⟨k₁, hready, k₂, hstore, rfl⟩ := h
  refine hR.trans hR.removeFromQueue (hR.trans (hR.addToQueue hready) ?_)
  refine hR.trans (hR.trans ?_ (hR.setReg0 _ parent _)) hR.free
  rw [storeStatus_frame hstore]
  exact hR.links rfl

theorem terminateProcess {status : Int}
    (h : Yalnix.terminateProcess hw k k.current_process status = some k') : R k k' := by
  simp only [Yalnix.terminateProcess, Option.bind_eq_bind, Option.bind_eq_some_iff] at h
  obtain ⟨k₁, hrel, hterm⟩ := h
  refine hR.trans (hR.releaseProcess hrel) (hR.trans (hR.leaveQueue k₁ k.current_process) ?_)
  split at hterm
  · split at hterm
    · exact hR.notifyParent hterm
    · exact hR.addToQueue hterm
  · exact hR.addToQueue hterm

/-! ## System calls -/

theorem forkReturn (h : Yalnix.forkReturn k p = some k') : R k k' := by
  obtain ⟨k₁, hready, h⟩ := Option.bind_eq_some_iff.1 h
  obtain rfl := Option.some.inj h
  exact hR.returnValue (hR.addToQueue hready) _

theorem forkMemory {parent : PcbPtr} (hnew : new p) (h : Yalnix.forkMemory hw k parent p = some k') :
    R k k' := by
  simp only [Yalnix.forkMemory, Option.bind_eq_bind, Option.bind_eq_some_iff, Option.pure_def,
    Option.some.injEq, Prod.exists] at h
  obtain ⟨m, stack, hstack, rfl⟩ := h
  refine hR.trans (hR.memory ?_) (hR.pcb (.ofNew hnew rfl rfl))
  exact SameKernelMap.trans (.copyPageTable rfl) (.trans (.initializeKernelStack hstack) (.copyKernelStack rfl))

/-- The first half of a fork makes a PCB; what follows is made of actions. -/
theorem sysFork (hnew : new p) (h : Yalnix.sysFork hw k p = some k') :
    (k.pcb k.current_process).should_fork = false ∧ R k k' ∨
    (k.pcb k.current_process).should_fork = true ∧ R (createPcb hw k p) k' := by
  unfold Yalnix.sysFork at h
  simp only at h
  split at h
  · rename_i hfork
    simp only [Option.bind_eq_bind, Option.bind_eq_some_iff] at h
    obtain ⟨k₁, hadd, k₂, hmem, hret⟩ := h
    refine Or.inr ⟨hfork, hR.trans (hR.addChild hadd) (hR.trans ?_ (hR.trans (hR.forkMemory hnew hmem)
      (hR.trans ?_ (hR.forkReturn hret))))⟩
    · exact hR.pcb (.ofNew hnew rfl rfl)
    · exact hR.pcb (.ofNew hnew rfl rfl)
  · rename_i hfork
    obtain rfl := Option.some.inj h
    refine Or.inl ⟨by simpa using hfork, hR.returnValue ?_ 0⟩
    exact hR.pcb (.byItself rfl rfl rfl rfl)

theorem sysExec {req : LoadRequest} (h : Yalnix.sysExec hw k req = some k') : R k k' := by
  simp only [Yalnix.sysExec, Option.bind_eq_bind, Option.bind_eq_some_iff, Option.pure_def,
    Option.some.injEq, Prod.exists] at h
  obtain ⟨rc, m, proc, hload, rfl⟩ := h
  obtain ⟨pt, brk, uc, hproc⟩ := loadProgram_frame hload
  have hchange : PcbChange (new k.current_process) True (k.pcb k.current_process) proc :=
    .byItself trivial (by rw [hproc]) (by rw [hproc]) (by rw [hproc])
  refine hR.trans (hR.trans (hR.memory (.loadProgram hload)) (hR.pcb (f := fun _ => proc) ?_)) (hR.links rfl)
  exact .byItself rfl hchange.pid hchange.time_slice (by rw [hproc])

theorem sysExit (h : Yalnix.sysExit hw k = some k') : R k k' := by
  simp only [Yalnix.sysExit, Option.bind_eq_bind, Option.bind_eq_some_iff, Option.pure_def,
    Option.some.injEq] at h
  obtain ⟨k₁, hterm, rfl⟩ := h
  exact hR.callSchedule (hR.terminateProcess hterm) _

theorem sysWait {kstatus_ptr : Int} (h : Yalnix.sysWait k kstatus_ptr = some k') : R k k' := by
  unfold Yalnix.sysWait at h
  simp only at h
  split at h
  · obtain rfl := Option.some.inj h
    exact hR.returnValue (hR.refl k) ERROR
  · simp only [Option.bind_eq_bind, Option.bind_eq_some_iff] at h
    obtain ⟨z_child, -, h⟩ := h
    cases z_child with
    | none =>
      simp only [Option.bind_eq_some_iff, Option.pure_def, Option.some.injEq] at h
      obtain ⟨k₁, hblocked, rfl⟩ := h
      refine hR.callSchedule (hR.trans ?_ (hR.addToQueue hblocked)) _
      refine hR.trans (hR.trans (hR.setState k k.current_process .processDefault) ?_)
        (hR.pcb (.byItself rfl rfl rfl rfl))
      exact hR.links rfl
    | some z =>
      obtain rfl := Option.some.inj h
      have hremoved : R k (removeFromZombieQueue k z) := hR.removeFromQueue
      refine hR.trans hremoved (hR.trans (hR.returnValue ?_ _) hR.free)
      split
      · exact hR.store (hR.current hremoved).symm
      · exact hR.refl _

theorem sysDelay (h : Yalnix.sysDelay k = some k') : R k k' := by
  unfold Yalnix.sysDelay at h
  simp only at h
  split at h
  · obtain rfl := Option.some.inj h
    exact hR.returnValue (hR.refl k) _
  · split at h
    · obtain rfl := Option.some.inj h
      exact hR.returnValue (hR.refl k) _
    · simp only [Option.bind_eq_bind, Option.bind_eq_some_iff, Option.pure_def, Option.some.injEq] at h
      obtain ⟨k₁, hdelay, rfl⟩ := h
      refine hR.callSchedule (hR.trans ?_ (hR.addToDelayQueue hdelay)) _
      exact hR.trans (hR.returnValue (hR.refl k) 0) (hR.setState _ k.current_process _)

theorem sysBrk (h : Yalnix.sysBrk hw k = some k') : R k k' := by
  unfold Yalnix.sysBrk at h
  simp only at h
  split at h
  · obtain rfl := Option.some.inj h
    exact hR.returnValue (hR.refl k) _
  · split at h
    · obtain rfl := Option.some.inj h
      exact hR.returnValue (hR.refl k) _
    · split at h
      · simp only [Option.bind_eq_bind, Option.bind_eq_some_iff, Option.pure_def, Option.some.injEq,
          Prod.exists] at h
        obtain ⟨ok, m, pt, hgrow, rfl⟩ := h
        refine hR.returnValue (hR.trans (hR.memory (.growUserHeap hgrow)) ?_) _
        exact hR.pcb (.byItself rfl rfl rfl rfl)
      · generalize hshrink : Yalnix.shrinkUserHeap hw _ _ _ _ = r at h
        obtain ⟨m, pt⟩ := r
        obtain rfl := Option.some.inj h
        refine hR.returnValue (hR.trans (hR.memory (.shrinkUserHeap hshrink)) ?_) _
        exact hR.pcb (.byItself rfl rfl rfl rfl)

theorem copyToUser {buf len : Int} {kbuf : BufPtr} (h : k.copyToUser buf kbuf len = some k') : R k k' := by
  unfold Kernel.copyToUser at h
  split at h
  · cases h
  · obtain rfl := Option.some.inj h
    exact hR.store rfl

theorem finishRead {buf len : Int} {kbuf : BufPtr} (h : k.finishRead buf kbuf len = some k') : R k k' := by
  obtain ⟨k₁, hcopy, rfl⟩ := Option.map_eq_some_iff.1 h
  exact hR.trans (hR.copyToUser hcopy) (hR.links rfl)

theorem returnSync {r : Option (Int × Kernel)} (hr : ∀ rc k₁, r = some (rc, k₁) → R k k₁)
    (h : Yalnix.returnSync r = some k') : R k k' := by
  simp only [Yalnix.returnSync, Option.bind_eq_bind, Option.bind_eq_some_iff, Option.pure_def,
    Option.some.injEq, Prod.exists] at h
  obtain ⟨rc, k₁, hrc, rfl⟩ := h
  exact hR.returnValue (hr rc k₁ hrc) rc

theorem sysPipeRead {kbuf : BufPtr} (h : Yalnix.sysPipeRead hw k kbuf = some k') : R k k' := by
  simp only [Yalnix.sysPipeRead, Option.bind_eq_bind, Option.bind_eq_some_iff, Prod.exists] at h
  obtain ⟨rc, k₁, hread, h⟩ := h
  have hmalloc : R k (k.mallocBuffer kbuf) := hR.links rfl
  apply hR.trans hmalloc
  apply hR.trans (hR.syncReadPipe hread)
  split at h
  · obtain rfl := Option.some.inj h
    exact hR.callSchedule (hR.refl k₁) _
  · split at h
    · obtain rfl := Option.some.inj h
      exact hR.refl _
    · exact hR.finishRead h

theorem sysPipeWrite {kbuf : BufPtr} {data : Nat → UInt8}
    (h : Yalnix.sysPipeWrite hw k kbuf data = some k') : R k k' := by
  unfold Yalnix.sysPipeWrite at h
  simp only at h
  split at h
  · cases h
  · simp only [Option.bind_eq_bind, Option.bind_eq_some_iff, Prod.exists] at h
    obtain ⟨rc, k₁, hwrite, h⟩ := h
    have hwritten : R k k₁ := by
      refine hR.trans ?_ (hR.syncWritePipe hwrite)
      exact hR.links rfl
    split at h
    · obtain rfl := Option.some.inj h
      exact hR.callSchedule hwritten _
    · split at h
      · obtain rfl := Option.some.inj h
        exact hwritten
      · obtain rfl := Option.some.inj h
        exact hR.trans hwritten (hR.links rfl)

theorem sysLockAcquire (h : Yalnix.sysLockAcquire k = some k') : R k k' := by
  simp only [Yalnix.sysLockAcquire, Option.bind_eq_bind, Option.bind_eq_some_iff, Prod.exists] at h
  obtain ⟨rc, k₁, hacquire, h⟩ := h
  split at h
  · obtain rfl := Option.some.inj h
    exact hR.callSchedule (hR.syncLockAcquire hacquire) _
  · obtain rfl := Option.some.inj h
    exact hR.returnValue (hR.syncLockAcquire hacquire) rc

theorem sysCvarWait (h : Yalnix.sysCvarWait k = some k') : R k k' := by
  simp only [Yalnix.sysCvarWait, Option.bind_eq_bind, Option.bind_eq_some_iff, Prod.exists] at h
  obtain ⟨rc, k₁, hwait, h⟩ := h
  split at h
  · obtain rfl := Option.some.inj h
    exact hR.returnValue (hR.syncCvarWait hwait) ERROR
  · obtain rfl := Option.some.inj h
    exact hR.callSchedule (hR.syncCvarWait hwait) _

theorem syscall {c : Syscall} (hc : ∀ child, c ≠ .fork child) (h : c.run hw k = some k') : R k k' := by
  cases c with
  | fork child => exact absurd rfl (hc child)
  | exec req => exact hR.sysExec h
  | exit => exact hR.sysExit h
  | wait kstatus_ptr => exact hR.sysWait h
  | getPid =>
    obtain rfl := Option.some.inj h
    exact hR.returnValue (hR.refl k) _
  | brk => exact hR.sysBrk h
  | delay => exact hR.sysDelay h
  | pipeInit => exact hR.returnSync (fun _ _ => hR.syncInit) h
  | pipeRead => exact hR.sysPipeRead h
  | pipeWrite => exact hR.sysPipeWrite h
  | lockInit => exact hR.returnSync (fun _ _ => hR.syncInit) h
  | lockAcquire => exact hR.sysLockAcquire h
  | lockRelease => exact hR.returnSync (fun _ _ => hR.syncLockRelease) h
  | cvarInit => exact hR.returnSync (fun _ _ => hR.syncInit) h
  | signal => exact hR.returnSync (fun _ _ => hR.syncCvarSignal) h
  | broadcast => exact hR.returnSync (fun _ _ => hR.syncCvarBroadcast) h
  | cvarWait => exact hR.sysCvarWait h
  | unimplemented =>
    obtain rfl := Option.some.inj h
    exact hR.returnValue (hR.refl k) ERROR

/-! ## Traps -/

theorem clockHandler (h : Yalnix.clockHandler k = some k') : R k k' := by
  simp only [Yalnix.clockHandler, Option.bind_eq_bind, Option.bind_eq_some_iff] at h
  obtain ⟨k₁, hupdate, h⟩ := h
  have htick : R k₁ (k₁.modifyPcb k₁.current_process fun pcb =>
      { pcb with run_time := pcb.run_time + 1 }) := hR.pcb (.bookkeeping rfl)
  apply hR.trans (hR.trans (hR.updateDelayedProcesses hupdate) htick)
  split at h
  · obtain rfl := Option.some.inj h
    exact hR.callSchedule (hR.setState _ _ _) _
  · obtain rfl := Option.some.inj h
    exact hR.refl _

theorem afterSchedule {caller : ScheduleCaller} (h : Yalnix.afterSchedule k caller = some k') : R k k' := by
  cases caller with
  | sysWait status_ptr kstatus_ptr =>
    unfold Yalnix.afterSchedule at h
    simp only at h
    split at h
    · cases h
    · obtain rfl := Option.some.inj h
      exact hR.trans (hR.store (s := .word k.current_process status_ptr _) rfl) (hR.links rfl)
  | sysPipeRead buf kbuf len => exact hR.finishRead h
  | sysCvarWait lock_id =>
    simp only [Yalnix.afterSchedule, Option.bind_eq_bind, Option.bind_eq_some_iff, Option.pure_def,
      Option.some.injEq, Prod.exists] at h
    obtain ⟨rc, k₁, hacquire, rfl⟩ := h
    exact hR.returnValue (hR.syncLockAcquire hacquire) SUCCESS
  | clockHandler => exact (Option.some.inj h) ▸ hR.refl _
  | sysExit => exact (Option.some.inj h) ▸ hR.refl _
  | sysDelay => exact (Option.some.inj h) ▸ hR.refl _
  | sysPipeWrite => exact (Option.some.inj h) ▸ hR.links rfl
  | sysLockAcquire => exact (Option.some.inj h) ▸ hR.refl _

theorem resume (h : Yalnix.resume k = some k') : R k k' := by
  unfold Yalnix.resume at h
  cases hcontext : (k.pcb k.current_process).kernel_context with
  | uninitialized => simp [hcontext] at h
  | kernelStart =>
    simp only [hcontext, Option.bind_eq_bind, Option.bind_some, Option.pure_def,
      Option.some.injEq] at h
    rw [← h]
    refine hR.trans hR.walk (hR.trans (hR.trans ?_ (hR.setState _ k.current_process _)) (hR.links rfl))
    exact hR.links rfl
  | sysFork child u =>
    simp only [hcontext, Option.bind_eq_bind, Option.bind_eq_some_iff, Option.pure_def,
      Option.some.injEq] at h
    obtain ⟨k₁, hret, rfl⟩ := h
    refine hR.trans (hR.trans ?_ (hR.forkReturn hret)) (hR.links rfl)
    exact hR.links rfl
  | schedule caller =>
    simp only [hcontext, Option.bind_eq_bind, Option.bind_eq_some_iff, Option.pure_def,
      Option.some.injEq] at h
    obtain ⟨k₁, hafter, rfl⟩ := h
    exact hR.trans (hR.afterSchedule hafter) (hR.links rfl)

theorem sysReclaim (hgone : gone (k.uctxt.regs 0)) (h : Yalnix.sysReclaim k = some k') : R k k' :=
  hR.returnSync (fun _ _ => hR.reclaim hgone) h

/-- A handler of the table of system calls; only a fork makes a PCB. -/
theorem syscallHandler {f : SyscallHandler} {a : Answers} (hnew : new a.child_pcb)
    (hgone : f = .sysReclaim → gone (k.uctxt.regs 0)) (h : f.run hw k a = some k') : R k k' ∨ R (createPcb hw k a.child_pcb) k' := by
  unfold SyscallHandler.run at h
  cases f with
  | sysFork =>
    rcases hR.sysFork hnew h with ⟨-, hk⟩ | ⟨-, hk⟩
    · exact Or.inl hk
    · exact Or.inr hk
  | sysReclaim => exact Or.inl (hR.sysReclaim (hgone rfl) h)
  | _ => exact Or.inl (hR.syscall (fun _ => by simp) h)

/-- A handler of the vector table, from the frame `u`. -/
theorem trapHandler {h : Header} {f : TrapHandler} {u : UserContext} {a : Answers} (hnew : new a.child_pcb)
    (hgone : f = .kernelHandler → findSyscall h u = some .sysReclaim → gone (u.regs 0))
    (hrun : f.run hw h { k with uctxt := u } a = some k') :
    R k k' ∨ R (createPcb hw { k with uctxt := u } a.child_pcb) k' := by
  have huctxt : R k { k with uctxt := u } := hR.links rfl
  have hexit : Yalnix.illegalHandler hw { k with uctxt := u } = some k' → R k k' := by
    intro hfault
    exact hR.trans (hR.returnValue huctxt ERROR) (hR.sysExit hfault)
  cases f with
  | kernelHandler =>
    unfold TrapHandler.run Yalnix.kernelHandler at hrun
    simp only at hrun
    cases hfind : findSyscall h u with
    | none =>
      rw [hfind] at hrun
      obtain rfl := Option.some.inj hrun
      exact Or.inl (hR.returnValue huctxt ERROR)
    | some f =>
      rw [hfind] at hrun
      rcases hR.syscallHandler hnew (fun hf => hgone rfl (hf ▸ hfind)) hrun with hk | hk
      · exact Or.inl (hR.trans huctxt hk)
      · exact Or.inr hk
  | clockHandler => exact Or.inl (hR.trans huctxt (hR.clockHandler hrun))
  | illegalHandler => exact Or.inl (hexit hrun)
  | mathHandler => exact Or.inl (hexit hrun)
  | memoryHandler =>
    obtain ⟨_, -, rfl⟩ := Option.map_eq_some_iff.1 hrun
    exact Or.inl huctxt
  | receiveHandler =>
    obtain rfl := Option.some.inj hrun
    exact Or.inl huctxt
  | transmitHandler =>
    obtain rfl := Option.some.inj hrun
    exact Or.inl huctxt

/-- What a step of the machine with the tables can do: a handler runs, or makes a PCB and goes on, or
`schedule` switches. -/
theorem vectorStep {h : Header} {e : VectorEvent} (hnew : ∀ p, e.Gives p → new p)
    (hgone : ∀ id, e.Reclaims h id → gone id) (hstep : (vectorMachine hw h).step k e = some k') :
    R k k' ∨ (∃ u a, e = .trap u a ∧ R (createPcb hw { k with uctxt := u } a.child_pcb) k') ∨
      ∃ caller, e = .schedule ∧ k.mode = .atSchedule caller ∧ schedule hw k caller = some k' := by
  cases e with
  | trap u a =>
    obtain ⟨f, hfind, hrun⟩ := Option.bind_eq_some_iff.1 hstep
    have hgone' : f = .kernelHandler → findSyscall h u = some .sysReclaim → gone (u.regs 0) := by
      rintro rfl hreclaim
      exact hgone _ ⟨hfind, hreclaim, rfl⟩
    rcases hR.trapHandler (hnew _ rfl) hgone' hrun with hk | hk
    · exact Or.inl hk
    · exact Or.inr (Or.inl ⟨u, a, rfl, hk⟩)
  | schedule =>
    cases hmode : k.mode with
    | user => simp [vectorMachine, hmode] at hstep
    | resumed => simp [vectorMachine, hmode] at hstep
    | atSchedule caller =>
      simp only [vectorMachine, hmode] at hstep
      exact Or.inr (Or.inr ⟨caller, rfl, rfl, hstep⟩)
  | resume => exact Or.inl (hR.resume hstep)

/-- The same for the machine without the tables. -/
theorem trapStep {e : TrapEvent} (hnew : ∀ u child, e = .kernel u (.fork child) → new child)
    (hstep : (trapMachine hw).step k e = some k') :
    R k k' ∨ (∃ u child, e = .kernel u (.fork child) ∧ R (createPcb hw { k with uctxt := u } child) k') ∨
      ∃ caller, e = .schedule ∧ k.mode = .atSchedule caller ∧ schedule hw k caller = some k' := by
  cases e with
  | kernel u c =>
    have huctxt : R k { k with uctxt := u } := hR.links rfl
    by_cases hfork : ∃ child, c = .fork child
    · obtain ⟨child, rfl⟩ := hfork
      rcases hR.sysFork (hnew u child rfl) hstep with ⟨-, hk⟩ | ⟨-, hk⟩
      · exact Or.inl (hR.trans huctxt hk)
      · exact Or.inr (Or.inl ⟨u, child, rfl, hk⟩)
    · exact Or.inl (hR.trans huctxt (hR.syscall (fun child hc => hfork ⟨child, hc⟩) hstep))
  | clock u =>
    have huctxt : R k { k with uctxt := u } := hR.links rfl
    exact Or.inl (hR.trans huctxt (hR.clockHandler hstep))
  | schedule =>
    cases hmode : k.mode with
    | user => simp [trapMachine, hmode] at hstep
    | resumed => simp [trapMachine, hmode] at hstep
    | atSchedule caller =>
      simp only [trapMachine, hmode] at hstep
      exact Or.inr (Or.inr ⟨caller, rfl, rfl, hstep⟩)
  | resume => exact Or.inl (hR.resume hstep)

end Allows

end Yalnix
