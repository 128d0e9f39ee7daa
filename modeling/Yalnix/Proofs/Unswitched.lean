import Yalnix.TrapRun
import Yalnix.Proofs.Clock
import Yalnix.Proofs.Handlers
import Yalnix.Proofs.Window

/-!
# Handlers switch no process

Whatever the lists are like, a handler leaves the process that runs, `REG_PTBR1`, the kernel stack and
its pages in region 0 alone; `SysFork` does when its child gets another address than the caller's.
-/

namespace Yalnix

open Intrusive

variable {hw : Hardware} {k k₁ k' : Kernel} {p : PcbPtr} {l : QueueId} {i n : Nat} {rc : Int}

/-- The same process runs, on the same kernel stack and for the same time. -/
structure Unswitched (hw : Hardware) (k k' : Kernel) : Prop where
  current : k'.current_process = k.current_process
  mem : SameWindow hw k.mem k'.mem
  stack : (k'.pcb k.current_process).kernel_stack = (k.pcb k.current_process).kernel_stack
  runTime : (k'.pcb k.current_process).run_time = (k.pcb k.current_process).run_time

namespace Unswitched

/-- Only other fields have changed. -/
theorem of_eq (hcurrent : k'.current_process = k.current_process) (hmem : k'.mem = k.mem)
    (hpcb : k'.pcb = k.pcb) : Unswitched hw k k' :=
  ⟨hcurrent, .of_eq (by rw [hmem]) (by rw [hmem]), by rw [hpcb], by rw [hpcb]⟩

theorem refl (k : Kernel) : Unswitched hw k k := of_eq rfl rfl rfl

theorem trans (h : Unswitched hw k k₁) (h' : Unswitched hw k₁ k') : Unswitched hw k k' := by
  obtain ⟨hcurrent, hmem, hstack, htime⟩ := h'
  rw [h.current] at hcurrent hstack htime
  exact ⟨hcurrent, h.mem.trans hmem, hstack.trans h.stack, htime.trans h.runTime⟩

theorem modifyPcb (k : Kernel) (p : PcbPtr) {f : Pcb → Pcb}
    (hstack : ∀ pcb, (f pcb).kernel_stack = pcb.kernel_stack)
    (htime : ∀ pcb, (f pcb).run_time = pcb.run_time) : Unswitched hw k (k.modifyPcb p f) := by
  refine ⟨rfl, .refl _, ?_, ?_⟩ <;> by_cases e : k.current_process = p
  · subst e
    simp [Kernel.modifyPcb, hstack]
  · simp [Kernel.modifyPcb, e]
  · subst e
    simp [Kernel.modifyPcb, htime]
  · simp [Kernel.modifyPcb, e]

/-- Anything may change in the PCB of another process. -/
theorem modifyOther (h : Unswitched hw k k₁) (hne : p ≠ k.current_process) (f : Pcb → Pcb) :
    Unswitched hw k (k₁.modifyPcb p f) := by
  refine h.trans ⟨rfl, .refl _, ?_, ?_⟩ <;> simp [Kernel.modifyPcb, h.current, hne.symm]

theorem setMem {m : Memory} (hmem : SameWindow hw k.mem m) : Unswitched hw k { k with mem := m } :=
  ⟨rfl, hmem, rfl, rfl⟩

theorem setState (k : Kernel) (p : PcbPtr) (st : ProcessState) : Unswitched hw k (k.setState p st) :=
  modifyPcb k p (fun _ => rfl) fun _ => rfl

theorem setReg0 (k : Kernel) (p : PcbPtr) (v : Int) : Unswitched hw k (k.setReg0 p v) :=
  modifyPcb k p (fun _ => rfl) fun _ => rfl

/-! ## Queues -/

theorem insertTail (h : k.insertTail l p = some k') : Unswitched hw k k' := by
  obtain ⟨q, -, rfl⟩ := Option.map_eq_some_iff.1 h
  exact of_eq rfl rfl rfl

theorem insertHead (h : k.insertHead l p = some k') : Unswitched hw k k' := by
  obtain ⟨q, -, rfl⟩ := Option.map_eq_some_iff.1 h
  exact of_eq rfl rfl rfl

theorem pop {node : Option PcbPtr} (h : k.pop l = some (node, k')) : Unswitched hw k k' := by
  simp only [Kernel.pop, Option.bind_eq_bind, Option.bind_eq_some_iff, Option.pure_def,
    Option.some.injEq, Prod.mk.injEq, Prod.exists] at h
  obtain ⟨r, q, -, x, -, -, rfl⟩ := h
  exact of_eq rfl rfl rfl

theorem addToQueue {st : ProcessState} (h : Yalnix.addToQueue l st k p = some k') : Unswitched hw k k' := by
  unfold Yalnix.addToQueue at h
  split at h
  · obtain rfl := Option.some.inj h
    exact refl _
  · exact (setState k p st).trans (insertTail h)

theorem addToDelayQueue {ticks : Int} (h : Yalnix.addToDelayQueue k p ticks = some k') :
    Unswitched hw k k' := by
  unfold Yalnix.addToDelayQueue at h
  split at h
  · obtain rfl := Option.some.inj h
    exact refl _
  · refine trans ?_ (insertTail h)
    refine trans ?_ (modifyPcb _ p (fun _ => rfl) fun _ => rfl)
    exact setState k p _

theorem removeFromQueue {st : ProcessState} : Unswitched hw k (Yalnix.removeFromQueue l st k p) := by
  unfold Yalnix.removeFromQueue
  split
  · exact refl _
  · exact (setState k p _).trans (of_eq rfl rfl rfl)

theorem tickProcess (h : Yalnix.tickProcess k p = some k') : Unswitched hw k k' := by
  unfold Yalnix.tickProcess at h
  simp only at h
  have htick : Unswitched hw k (k.modifyPcb p fun pcb =>
      { pcb with delay_ticks := pcb.delay_ticks - 1 }) := modifyPcb k p (fun _ => rfl) fun _ => rfl
  split at h
  · exact htick.trans (removeFromQueue.trans (addToQueue h))
  · obtain rfl := Option.some.inj h
    exact htick

theorem updateDelayedLoop {r : Option (Ref QueueId PcbPtr)}
    (h : Yalnix.updateDelayedLoop n r k = some k') : Unswitched hw k k' := by
  induction n generalizing k r with
  | zero =>
    unfold Yalnix.updateDelayedLoop at h
    split at h
    · obtain rfl := Option.some.inj h
      exact refl _
    · rename_i hzero
      cases hzero
    · cases h
  | succ n ih =>
    match r with
    | some (.node p) =>
      rw [updateDelayedLoop_node] at h
      obtain ⟨k₁, htick, hloop⟩ := Option.bind_eq_some_iff.1 h
      exact (tickProcess htick).trans (ih hloop)
    | some (.head l) =>
      unfold Yalnix.updateDelayedLoop at h
      split at h
      · obtain rfl := Option.some.inj h
        exact refl _
      · rename_i hnode
        cases hnode
      · cases h
    | none =>
      unfold Yalnix.updateDelayedLoop at h
      cases h

theorem updateDelayedProcesses (h : Yalnix.updateDelayedProcesses k = some k') : Unswitched hw k k' := by
  unfold Yalnix.updateDelayedProcesses at h
  split at h
  · obtain rfl := Option.some.inj h
    exact refl _
  · exact updateDelayedLoop h

/-! ## Pipes, locks and condition variables -/

theorem getNewID (h : Yalnix.getNewID k = (rc, k')) : Unswitched hw k k' := by
  unfold Yalnix.getNewID at h
  split at h
  · obtain ⟨-, rfl⟩ := Prod.mk.inj h
    exact of_eq rfl rfl rfl
  · obtain ⟨-, rfl⟩ := Prod.mk.inj h
    exact refl _

theorem initSyncObject {object : SyncObject} {allocated : Bool}
    (h : Yalnix.initSyncObject k object allocated = some (rc, k')) : Unswitched hw k k' := by
  unfold Yalnix.initSyncObject at h
  split at h
  · obtain ⟨-, rfl⟩ := Prod.mk.inj (Option.some.inj h)
    exact refl _
  · generalize hid : Yalnix.getNewID k = r at h
    obtain ⟨id, k₁⟩ := r
    simp only at h
    split at h
    · cases h
    · obtain ⟨-, rfl⟩ := Prod.mk.inj (Option.some.inj h)
      exact (getNewID hid).trans (of_eq rfl rfl rfl)

theorem syncInit {object : SyncObject} {lists : Nat → List WaitList} {idp : Int} {allocated : Bool}
    (h : Yalnix.syncInit object lists k idp allocated = some (rc, k')) : Unswitched hw k k' := by
  unfold Yalnix.syncInit at h
  split at h
  · obtain ⟨-, rfl⟩ := Prod.mk.inj (Option.some.inj h)
    exact refl _
  · simp only [Option.bind_eq_bind, Option.bind_eq_some_iff, Prod.exists] at h
    obtain ⟨id, k₁, hinit, h⟩ := h
    split at h
    · obtain ⟨-, rfl⟩ := Prod.mk.inj (Option.some.inj h)
      exact initSyncObject hinit
    · obtain ⟨-, rfl⟩ := Prod.mk.inj (Option.some.inj h)
      exact (initSyncObject hinit).trans (of_eq rfl rfl rfl)

theorem serveReader {pipe : Pipe} (h : Yalnix.serveReader hw k i pipe p = some k') :
    Unswitched hw k k' := by
  simp only [Yalnix.serveReader, Option.bind_eq_bind, Option.bind_eq_some_iff, Option.pure_def,
    Option.ite_none_left_eq_some, Option.some.injEq] at h
  obtain ⟨dest, -, -, rfl⟩ := h
  refine trans ?_ (modifyPcb _ p (fun _ => rfl) fun _ => rfl)
  refine trans ?_ (setReg0 _ p _)
  exact of_eq rfl rfl rfl

theorem fillFromWriter {pipe : Pipe} (h : Yalnix.fillFromWriter hw k i pipe p = some k') :
    Unswitched hw k k' := by
  simp only [Yalnix.fillFromWriter, Option.bind_eq_bind, Option.bind_eq_some_iff, Option.pure_def,
    Option.ite_none_left_eq_some, Option.some.injEq] at h
  obtain ⟨src, -, -, rfl⟩ := h
  refine trans ?_ (modifyPcb _ p (fun _ => rfl) fun _ => rfl)
  exact of_eq rfl rfl rfl

theorem finishWriter (k : Kernel) (p : PcbPtr) : Unswitched hw k (Yalnix.finishWriter k p) := by
  refine trans ?_ (setReg0 _ p _)
  exact modifyPcb k p (fun _ => rfl) fun _ => rfl

/-- The two drain loops call each other. -/
theorem syncDrain : (∀ k k', syncDrainWriters hw n k i = some k' → Unswitched hw k k') ∧
    ∀ k k', syncDrainReaders hw n k i = some k' → Unswitched hw k k' := by
  induction n with
  | zero =>
    refine ⟨fun k k' h => ?_, fun k k' h => ?_⟩
    · simp [syncDrainWriters] at h
    · simp [syncDrainReaders] at h
  | succ n ih =>
    obtain ⟨writers, readers⟩ := ih
    refine ⟨fun k k' h => ?_, fun k k' h => ?_⟩
    · simp only [syncDrainWriters, Option.bind_eq_bind, Option.bind_eq_some_iff, Prod.exists] at h
      obtain ⟨node, k₁, hpop, pipe, -, h⟩ := h
      refine (pop hpop).trans ?_
      cases node with
      | none =>
        simp only at h
        split at h
        · exact readers _ _ h
        · obtain rfl := Option.some.inj h
          exact refl _
      | some writer =>
        simp only [Option.bind_eq_some_iff] at h
        obtain ⟨k₂, hfill, h⟩ := h
        refine (fillFromWriter hfill).trans ?_
        split at h
        · simp only [Option.bind_eq_some_iff] at h
          obtain ⟨k₃, hins, pipe', -, h⟩ := h
          refine (insertHead hins).trans ?_
          split at h
          · exact readers _ _ h
          · obtain rfl := Option.some.inj h
            exact refl _
        · simp only [Option.bind_eq_some_iff] at h
          obtain ⟨k₃, hready, h⟩ := h
          exact (finishWriter k₂ writer).trans ((addToQueue hready).trans (writers _ _ h))
    · simp only [syncDrainReaders, Option.bind_eq_bind, Option.bind_eq_some_iff] at h
      obtain ⟨pipe, -, h⟩ := h
      split at h
      · simp only [Option.bind_eq_some_iff, Prod.exists] at h
        obtain ⟨node, k₁, hpop, h⟩ := h
        refine (pop hpop).trans ?_
        cases node with
        | none =>
          simp only at h
          split at h
          · exact writers _ _ h
          · obtain rfl := Option.some.inj h
            exact refl _
        | some reader =>
          simp only [Option.bind_eq_some_iff] at h
          obtain ⟨k₂, hserve, k₃, hready, h⟩ := h
          exact (serveReader hserve).trans ((addToQueue hready).trans (readers _ _ h))
      · split at h
        · exact writers _ _ h
        · obtain rfl := Option.some.inj h
          exact refl _

theorem syncReadPipe {id len : Int} {buf : BufPtr}
    (h : Yalnix.syncReadPipe hw k id buf len = some (rc, k')) : Unswitched hw k k' := by
  unfold Yalnix.syncReadPipe at h
  split at h
  · obtain ⟨-, rfl⟩ := Prod.mk.inj (Option.some.inj h)
    exact refl _
  · simp only [Option.bind_eq_bind, Option.bind_eq_some_iff] at h
    obtain ⟨pipe, -, h⟩ := h
    split at h
    · obtain ⟨-, rfl⟩ := Prod.mk.inj (Option.some.inj h)
      exact refl _
    · split at h
      · simp only [Option.bind_eq_some_iff, Option.pure_def, Option.some.injEq, Prod.mk.injEq] at h
        obtain ⟨k₁, hins, -, rfl⟩ := h
        refine trans (trans ?_ (insertTail hins)) (setState _ _ _)
        refine trans ?_ (modifyPcb _ _ (fun _ => rfl) fun _ => rfl)
        exact of_eq rfl rfl rfl
      · simp only [Option.bind_eq_some_iff, Option.pure_def, Option.some.injEq, Prod.mk.injEq] at h
        obtain ⟨k₁, hdrain, -, rfl⟩ := h
        refine trans ?_ (syncDrain.1 _ _ hdrain)
        exact (setReg0 k k.current_process _).trans (of_eq rfl rfl rfl)

theorem syncWritePipe {id len : Int} {buf : BufPtr}
    (h : Yalnix.syncWritePipe hw k id buf len = some (rc, k')) : Unswitched hw k k' := by
  unfold Yalnix.syncWritePipe at h
  split at h
  · obtain ⟨-, rfl⟩ := Prod.mk.inj (Option.some.inj h)
    exact refl _
  · simp only [Option.bind_eq_bind, Option.bind_eq_some_iff] at h
    obtain ⟨pipe, -, h⟩ := h
    split at h
    · obtain ⟨-, rfl⟩ := Prod.mk.inj (Option.some.inj h)
      exact refl _
    · split at h
      · simp only [Option.bind_eq_some_iff, Option.pure_def, Option.some.injEq, Prod.mk.injEq] at h
        obtain ⟨k₁, hins, k₂, hdrain, -, rfl⟩ := h
        refine trans (trans ?_ (insertTail hins)) (syncDrain.2 _ _ hdrain)
        refine trans ?_ (modifyPcb _ _ (fun _ => rfl) fun _ => rfl)
        refine trans ?_ (modifyPcb _ _ (fun _ => rfl) fun _ => rfl)
        exact of_eq rfl rfl rfl
      · simp only [Option.bind_eq_some_iff, Option.pure_def, Option.some.injEq, Prod.mk.injEq] at h
        obtain ⟨k₁, hdrain, -, rfl⟩ := h
        refine trans ?_ (syncDrain.2 _ _ hdrain)
        refine trans ?_ (setReg0 _ _ _)
        refine trans ?_ (modifyPcb _ _ (fun _ => rfl) fun _ => rfl)
        exact of_eq rfl rfl rfl

theorem syncLockAcquire {id : Int} (h : Yalnix.syncLockAcquire k id = some (rc, k')) :
    Unswitched hw k k' := by
  unfold Yalnix.syncLockAcquire at h
  split at h
  · obtain ⟨-, rfl⟩ := Prod.mk.inj (Option.some.inj h)
    exact refl _
  · simp only [Option.bind_eq_bind, Option.bind_eq_some_iff] at h
    obtain ⟨lock, -, h⟩ := h
    split at h
    · obtain ⟨-, rfl⟩ := Prod.mk.inj (Option.some.inj h)
      exact of_eq rfl rfl rfl
    · simp only [Option.bind_eq_some_iff, Option.pure_def, Option.some.injEq, Prod.mk.injEq] at h
      obtain ⟨k₁, hins, -, rfl⟩ := h
      exact (insertTail hins).trans (modifyPcb k₁ _ (fun _ => rfl) fun _ => rfl)

theorem handOff {lock : Lock} (h : Yalnix.handOff k i lock = some k') : Unswitched hw k k' := by
  unfold Yalnix.handOff at h
  split at h
  · simp only [Option.bind_eq_bind, Option.bind_eq_some_iff, Option.pure_def, Option.some.injEq,
      Prod.exists] at h
    obtain ⟨node, k₁, hpop, next, -, k₂, hready, rfl⟩ := h
    refine (pop hpop).trans ((trans ?_ (addToQueue hready)).trans (of_eq rfl rfl rfl))
    exact modifyPcb k₁ _ (fun _ => rfl) fun _ => rfl
  · obtain rfl := Option.some.inj h
    exact of_eq rfl rfl rfl

theorem syncLockRelease {id : Int} (h : Yalnix.syncLockRelease k id = some (rc, k')) :
    Unswitched hw k k' := by
  unfold Yalnix.syncLockRelease at h
  split at h
  · obtain ⟨-, rfl⟩ := Prod.mk.inj (Option.some.inj h)
    exact refl _
  · simp only [Option.bind_eq_bind, Option.bind_eq_some_iff] at h
    obtain ⟨lock, -, h⟩ := h
    split at h
    · simp only [Option.bind_eq_some_iff, Option.pure_def, Option.some.injEq, Prod.mk.injEq] at h
      obtain ⟨owner, -, -, rfl⟩ := h
      exact refl _
    · simp only [Option.bind_eq_some_iff, Option.pure_def, Option.some.injEq, Prod.mk.injEq] at h
      obtain ⟨k₁, hoff, -, rfl⟩ := h
      exact handOff hoff

theorem syncCvarWait {cvar_id lock_id : Int} (h : Yalnix.syncCvarWait k cvar_id lock_id = some (rc, k')) :
    Unswitched hw k k' := by
  unfold Yalnix.syncCvarWait at h
  split at h
  · obtain ⟨-, rfl⟩ := Prod.mk.inj (Option.some.inj h)
    exact refl _
  · split at h
    · obtain ⟨-, rfl⟩ := Prod.mk.inj (Option.some.inj h)
      exact refl _
    · simp only [Option.bind_eq_bind, Option.bind_eq_some_iff] at h
      obtain ⟨lock, -, h⟩ := h
      split at h
      · simp only [Option.bind_eq_some_iff, Option.pure_def, Option.some.injEq, Prod.mk.injEq] at h
        obtain ⟨owner, -, -, rfl⟩ := h
        exact refl _
      · simp only [Option.bind_eq_some_iff, Option.pure_def, Option.some.injEq, Prod.mk.injEq] at h
        obtain ⟨k₁, hoff, u, -, k₂, hins, -, rfl⟩ := h
        exact (handOff hoff).trans ((insertTail hins).trans (modifyPcb k₂ _ (fun _ => rfl) fun _ => rfl))

theorem wakeCvarWaiter (h : Yalnix.wakeCvarWaiter k i = some k') : Unswitched hw k k' := by
  simp only [Yalnix.wakeCvarWaiter, Option.bind_eq_bind, Option.bind_eq_some_iff, Prod.exists] at h
  obtain ⟨node, k₁, hpop, next, -, hready⟩ := h
  refine (pop hpop).trans (trans ?_ (addToQueue hready))
  exact modifyPcb k₁ _ (fun _ => rfl) fun _ => rfl

theorem broadcastLoop (h : Yalnix.broadcastLoop i n k = some k') : Unswitched hw k k' := by
  induction n generalizing k with
  | zero =>
    unfold Yalnix.broadcastLoop at h
    split at h
    · obtain rfl := Option.some.inj h
      exact refl _
    · cases h
  | succ n ih =>
    unfold Yalnix.broadcastLoop at h
    split at h
    · obtain rfl := Option.some.inj h
      exact refl _
    · obtain ⟨k₁, hwake, hloop⟩ := Option.bind_eq_some_iff.1 h
      exact (wakeCvarWaiter hwake).trans (ih hloop)

theorem syncCvarSignal {id : Int} (h : Yalnix.syncCvarSignal k id = some (rc, k')) :
    Unswitched hw k k' := by
  unfold Yalnix.syncCvarSignal at h
  split at h
  · obtain ⟨-, rfl⟩ := Prod.mk.inj (Option.some.inj h)
    exact refl _
  · simp only [Option.bind_eq_bind, Option.bind_eq_some_iff] at h
    obtain ⟨u, -, h⟩ := h
    split at h
    · obtain ⟨-, rfl⟩ := Prod.mk.inj (Option.some.inj h)
      exact refl _
    · simp only [Option.bind_eq_some_iff, Option.pure_def, Option.some.injEq, Prod.mk.injEq] at h
      obtain ⟨k₁, hwake, -, rfl⟩ := h
      exact wakeCvarWaiter hwake

theorem syncCvarBroadcast {id r : Int} (h : Yalnix.syncCvarBroadcast k id r = some (rc, k')) :
    Unswitched hw k k' := by
  unfold Yalnix.syncCvarBroadcast at h
  split at h
  · obtain ⟨-, rfl⟩ := Prod.mk.inj (Option.some.inj h)
    exact refl _
  · simp only [Option.bind_eq_bind, Option.bind_eq_some_iff] at h
    obtain ⟨u, -, h⟩ := h
    split at h
    · obtain ⟨-, rfl⟩ := Prod.mk.inj (Option.some.inj h)
      exact refl _
    · simp only [Option.bind_eq_some_iff, Option.pure_def, Option.some.injEq, Prod.mk.injEq] at h
      obtain ⟨k₁, hloop, -, rfl⟩ := h
      exact broadcastLoop hloop

/-! ## System calls -/

theorem forkReturn (h : Yalnix.forkReturn k p = some k') : Unswitched hw k k' := by
  obtain ⟨k₁, hready, h⟩ := Option.bind_eq_some_iff.1 h
  obtain rfl := Option.some.inj h
  exact (addToQueue hready).trans (of_eq rfl rfl rfl)

theorem returnValue (h : Unswitched hw k k₁) (v : Int) : Unswitched hw k (k₁.returnValue v) :=
  h.trans (of_eq rfl rfl rfl)

theorem callSchedule (h : Unswitched hw k k₁) (caller : ScheduleCaller) :
    Unswitched hw k (k₁.callSchedule caller) :=
  h.trans (of_eq rfl rfl rfl)

theorem free (h : Unswitched hw k k₁) (p : PcbPtr) : Unswitched hw k (k₁.free p) :=
  h.trans (of_eq rfl rfl rfl)

theorem createPcb (hne : p ≠ k.current_process) : Unswitched hw k (Yalnix.createPcb hw k p) :=
  ⟨rfl, .refl _, by simp [Yalnix.createPcb, hne.symm], by simp [Yalnix.createPcb, hne.symm]⟩

theorem addChild {parent : PcbPtr} (hne : p ≠ k.current_process)
    (h : Yalnix.addChild k parent p = some k') : Unswitched hw k k' := by
  obtain ⟨family, -, rfl⟩ := Option.map_eq_some_iff.1 h
  have hparent : Unswitched hw k (k.modifyPcb p fun pcb => { pcb with parent := some parent }) :=
    (refl k).modifyOther hne _
  exact hparent.trans (of_eq rfl rfl rfl)

theorem forkMemory {parent : PcbPtr} (hne : p ≠ k.current_process)
    (h : Yalnix.forkMemory hw k parent p = some k') : Unswitched hw k k' := by
  simp only [Yalnix.forkMemory, Option.bind_eq_bind, Option.bind_eq_some_iff, Option.pure_def,
    Option.some.injEq, Prod.exists] at h
  obtain ⟨m, stack, hstack, rfl⟩ := h
  refine modifyOther (setMem ?_) hne _
  exact (SameWindow.copyPageTable rfl).trans
    ((SameWindow.initializeKernelStack hstack).trans (SameWindow.copyKernelStack rfl))

theorem sysFork (hne : p ≠ k.current_process) (h : Yalnix.sysFork hw k p = some k') :
    Unswitched hw k k' := by
  unfold Yalnix.sysFork at h
  simp only at h
  split at h
  · simp only [Option.bind_eq_bind, Option.bind_eq_some_iff] at h
    obtain ⟨k₁, hadd, k₂, hmem, hret⟩ := h
    have hcreate : Unswitched hw k (Yalnix.createPcb hw k p) := createPcb hne
    have hchild := hcreate.trans (addChild (by rwa [hcreate.current]) hadd)
    have hcopied := hchild.modifyOther hne fun pcb =>
      { pcb with should_fork := false, user_context := k₁.uctxt }
    have hforked := hcopied.trans (forkMemory (by rwa [hcopied.current]) hmem)
    exact (hforked.modifyOther hne fun pcb => { pcb with kernel_context := .sysFork p k₂.uctxt }).trans
      (forkReturn hret)
  · obtain rfl := Option.some.inj h
    refine returnValue ?_ 0
    exact modifyPcb k k.current_process (fun _ => rfl) fun _ => rfl

theorem sysExec {req : LoadRequest} (h : Yalnix.sysExec hw k req = some k') : Unswitched hw k k' := by
  simp only [Yalnix.sysExec, Option.bind_eq_bind, Option.bind_eq_some_iff, Option.pure_def,
    Option.some.injEq, Prod.exists] at h
  obtain ⟨rc, m, proc, hload, rfl⟩ := h
  obtain ⟨pt, brk, uc, hproc⟩ := loadProgram_frame hload
  refine ⟨rfl, SameWindow.loadProgram hload, ?_, ?_⟩
  · simp [Kernel.modifyPcb, hproc]
  · simp [Kernel.modifyPcb, hproc]

theorem releaseProcess {status : Int}
    (h : Yalnix.releaseProcess hw k k.current_process status = some k') : Unswitched hw k k' := by
  have hr := releaseProcess_released h
  obtain ⟨parent, -, hpcb⟩ := hr.current
  refine ⟨by rw [hr.frame], ?_, by rw [hpcb], by rw [hpcb]⟩
  rw [hr.frame]
  exact SameWindow.freeProcessMemory k.mem _

theorem notifyParent {parent : PcbPtr} {status : Int}
    (h : Yalnix.notifyParent k p parent status = some k') : Unswitched hw k k' := by
  simp only [Yalnix.notifyParent, Option.bind_eq_bind, Option.bind_eq_some_iff, Option.pure_def,
    Option.some.injEq] at h
  obtain ⟨k₁, hready, k₂, hstore, rfl⟩ := h
  refine removeFromQueue.trans ((addToQueue hready).trans ?_)
  refine free (trans ?_ (setReg0 _ parent _)) p
  rw [storeStatus_frame hstore]
  exact of_eq rfl rfl rfl

theorem sysExit (h : Yalnix.sysExit hw k = some k') : Unswitched hw k k' := by
  simp only [Yalnix.sysExit, terminateProcess, Option.bind_eq_bind, Option.bind_eq_some_iff,
    Option.pure_def, Option.some.injEq] at h
  obtain ⟨k₂, ⟨k₁, hrel, hterm⟩, rfl⟩ := h
  have hleave : Unswitched hw k₁ (leaveQueue k₁ k.current_process) := by
    unfold leaveQueue
    split
    · exact removeFromQueue
    · exact removeFromQueue
    · exact removeFromQueue
    · exact refl _
  refine callSchedule ((releaseProcess hrel).trans (hleave.trans ?_)) _
  split at hterm
  · split at hterm
    · exact notifyParent hterm
    · exact addToQueue hterm
  · exact addToQueue hterm

theorem sysWait {kstatus_ptr : Int} (h : Yalnix.sysWait k kstatus_ptr = some k') : Unswitched hw k k' := by
  unfold Yalnix.sysWait at h
  simp only at h
  split at h
  · obtain rfl := Option.some.inj h
    exact (refl k).returnValue ERROR
  · simp only [Option.bind_eq_bind, Option.bind_eq_some_iff] at h
    obtain ⟨z_child, -, h⟩ := h
    cases z_child with
    | none =>
      simp only [Option.bind_eq_some_iff, Option.pure_def, Option.some.injEq] at h
      obtain ⟨k₁, hblocked, rfl⟩ := h
      refine callSchedule (trans ?_ (addToQueue hblocked)) _
      refine trans ?_ (modifyPcb _ _ (fun _ => rfl) fun _ => rfl)
      exact (setState k k.current_process _).trans (of_eq rfl rfl rfl)
    | some z =>
      obtain rfl := Option.some.inj h
      have hremoved : Unswitched hw k (removeFromZombieQueue k z) := removeFromQueue
      refine hremoved.trans ?_
      split
      · exact of_eq rfl rfl rfl
      · exact of_eq rfl rfl rfl

theorem sysDelay (h : Yalnix.sysDelay k = some k') : Unswitched hw k k' := by
  unfold Yalnix.sysDelay at h
  simp only at h
  split at h
  · obtain rfl := Option.some.inj h
    exact (refl k).returnValue _
  · split at h
    · obtain rfl := Option.some.inj h
      exact (refl k).returnValue _
    · simp only [Option.bind_eq_bind, Option.bind_eq_some_iff, Option.pure_def, Option.some.injEq] at h
      obtain ⟨k₁, hdelay, rfl⟩ := h
      refine callSchedule (trans ?_ (addToDelayQueue hdelay)) _
      refine trans ?_ (setState _ k.current_process _)
      exact (refl k).returnValue 0

theorem sysBrk (h : Yalnix.sysBrk hw k = some k') : Unswitched hw k k' := by
  unfold Yalnix.sysBrk at h
  simp only at h
  split at h
  · obtain rfl := Option.some.inj h
    exact (refl k).returnValue _
  · split at h
    · obtain rfl := Option.some.inj h
      exact (refl k).returnValue _
    · split at h
      · simp only [Option.bind_eq_bind, Option.bind_eq_some_iff, Option.pure_def, Option.some.injEq,
          Prod.exists] at h
        obtain ⟨ok, m, pt, hgrow, rfl⟩ := h
        refine returnValue (trans (setMem (SameWindow.growUserHeap hgrow)) ?_) _
        exact modifyPcb _ _ (fun _ => rfl) fun _ => rfl
      · generalize hshrink : Yalnix.shrinkUserHeap hw _ _ _ _ = r at h
        obtain ⟨m, pt⟩ := r
        obtain rfl := Option.some.inj h
        refine returnValue (trans (setMem (SameWindow.shrinkUserHeap hshrink)) ?_) _
        exact modifyPcb _ _ (fun _ => rfl) fun _ => rfl

theorem copyToUser {buf len : Int} {kbuf : BufPtr} (h : k.copyToUser buf kbuf len = some k') :
    Unswitched hw k k' := by
  unfold Kernel.copyToUser at h
  split at h
  · cases h
  · obtain rfl := Option.some.inj h
    exact of_eq rfl rfl rfl

theorem freeBuffer (k : Kernel) (kbuf : BufPtr) : Unswitched hw k (k.freeBuffer kbuf) := of_eq rfl rfl rfl

theorem finishRead {buf len : Int} {kbuf : BufPtr} (h : k.finishRead buf kbuf len = some k') :
    Unswitched hw k k' := by
  obtain ⟨k₁, hcopy, rfl⟩ := Option.map_eq_some_iff.1 h
  exact (copyToUser hcopy).trans (freeBuffer k₁ kbuf)

theorem returnSync {r : Option (Int × Kernel)} (hr : ∀ rc k₁, r = some (rc, k₁) → Unswitched hw k k₁)
    (h : Yalnix.returnSync r = some k') : Unswitched hw k k' := by
  simp only [Yalnix.returnSync, Option.bind_eq_bind, Option.bind_eq_some_iff, Option.pure_def,
    Option.some.injEq, Prod.exists] at h
  obtain ⟨rc, k₁, hrc, rfl⟩ := h
  exact (hr rc k₁ hrc).returnValue rc

theorem sysPipeRead {kbuf : BufPtr} (h : Yalnix.sysPipeRead hw k kbuf = some k') : Unswitched hw k k' := by
  simp only [Yalnix.sysPipeRead, Option.bind_eq_bind, Option.bind_eq_some_iff, Prod.exists] at h
  obtain ⟨rc, k₁, hread, h⟩ := h
  have hmalloc : Unswitched hw k (k.mallocBuffer kbuf) := of_eq rfl rfl rfl
  refine hmalloc.trans ((syncReadPipe hread).trans ?_)
  split at h
  · obtain rfl := Option.some.inj h
    exact (refl k₁).callSchedule _
  · split at h
    · obtain rfl := Option.some.inj h
      exact refl _
    · exact finishRead h

theorem sysPipeWrite {kbuf : BufPtr} {data : Nat → UInt8}
    (h : Yalnix.sysPipeWrite hw k kbuf data = some k') : Unswitched hw k k' := by
  unfold Yalnix.sysPipeWrite at h
  simp only at h
  split at h
  · cases h
  · simp only [Option.bind_eq_bind, Option.bind_eq_some_iff, Prod.exists] at h
    obtain ⟨rc, k₁, hwrite, h⟩ := h
    have hwritten : Unswitched hw k k₁ := by
      refine trans ?_ (syncWritePipe hwrite)
      exact of_eq rfl rfl rfl
    split at h
    · obtain rfl := Option.some.inj h
      exact hwritten.callSchedule _
    · split at h
      · obtain rfl := Option.some.inj h
        exact hwritten
      · obtain rfl := Option.some.inj h
        exact hwritten.trans (freeBuffer k₁ kbuf)

theorem sysLockAcquire (h : Yalnix.sysLockAcquire k = some k') : Unswitched hw k k' := by
  simp only [Yalnix.sysLockAcquire, Option.bind_eq_bind, Option.bind_eq_some_iff, Prod.exists] at h
  obtain ⟨rc, k₁, hacquire, h⟩ := h
  split at h
  · obtain rfl := Option.some.inj h
    exact (syncLockAcquire hacquire).callSchedule _
  · obtain rfl := Option.some.inj h
    exact (syncLockAcquire hacquire).returnValue rc

theorem sysCvarWait (h : Yalnix.sysCvarWait k = some k') : Unswitched hw k k' := by
  simp only [Yalnix.sysCvarWait, Option.bind_eq_bind, Option.bind_eq_some_iff, Prod.exists] at h
  obtain ⟨rc, k₁, hwait, h⟩ := h
  split at h
  · obtain rfl := Option.some.inj h
    exact (syncCvarWait hwait).returnValue ERROR
  · obtain rfl := Option.some.inj h
    exact (syncCvarWait hwait).callSchedule _

theorem syscall {c : Syscall} (hne : ∀ child, c = .fork child → child ≠ k.current_process)
    (h : c.run hw k = some k') : Unswitched hw k k' := by
  cases c with
  | fork child => exact sysFork (hne child rfl) h
  | exec req => exact sysExec h
  | exit => exact sysExit h
  | wait kstatus_ptr => exact sysWait h
  | getPid =>
    obtain rfl := Option.some.inj h
    exact (refl k).returnValue _
  | brk => exact sysBrk h
  | delay => exact sysDelay h
  | pipeInit => exact returnSync (fun _ _ => syncInit) h
  | pipeRead => exact sysPipeRead h
  | pipeWrite => exact sysPipeWrite h
  | lockInit => exact returnSync (fun _ _ => syncInit) h
  | lockAcquire => exact sysLockAcquire h
  | lockRelease => exact returnSync (fun _ _ => syncLockRelease) h
  | cvarInit => exact returnSync (fun _ _ => syncInit) h
  | signal => exact returnSync (fun _ _ => syncCvarSignal) h
  | broadcast => exact returnSync (fun _ _ => syncCvarBroadcast) h
  | cvarWait => exact sysCvarWait h
  | unimplemented =>
    obtain rfl := Option.some.inj h
    exact (refl k).returnValue ERROR

/-! ## The clock, and resuming -/

/-- The clock handler counts a tick for the process that runs. -/
theorem clockHandler (h : Yalnix.clockHandler k = some k') : ∃ k₁, Unswitched hw k k₁ ∧
    Unswitched hw (k₁.modifyPcb k₁.current_process fun pcb => { pcb with run_time := pcb.run_time + 1 })
      k' := by
  simp only [Yalnix.clockHandler, Option.bind_eq_bind, Option.bind_eq_some_iff] at h
  obtain ⟨k₁, hupdate, h⟩ := h
  refine ⟨k₁, updateDelayedProcesses hupdate, ?_⟩
  split at h
  · obtain rfl := Option.some.inj h
    exact callSchedule (setState _ _ _) _
  · obtain rfl := Option.some.inj h
    exact refl _

theorem afterSchedule {caller : ScheduleCaller} (h : Yalnix.afterSchedule k caller = some k') :
    Unswitched hw k k' := by
  cases caller with
  | sysWait status_ptr kstatus_ptr =>
    unfold Yalnix.afterSchedule at h
    simp only at h
    split at h
    · cases h
    · obtain rfl := Option.some.inj h
      exact of_eq rfl rfl rfl
  | sysPipeRead buf kbuf len => exact finishRead h
  | sysCvarWait lock_id =>
    simp only [Yalnix.afterSchedule, Option.bind_eq_bind, Option.bind_eq_some_iff, Option.pure_def,
      Option.some.injEq, Prod.exists] at h
    obtain ⟨rc, k₁, hacquire, rfl⟩ := h
    exact (syncLockAcquire hacquire).returnValue SUCCESS
  | clockHandler => exact (Option.some.inj h) ▸ refl _
  | sysExit => exact (Option.some.inj h) ▸ refl _
  | sysDelay => exact (Option.some.inj h) ▸ refl _
  | sysPipeWrite kbuf => exact (Option.some.inj h) ▸ freeBuffer k kbuf
  | sysLockAcquire => exact (Option.some.inj h) ▸ refl _

/-- A process that resumes finds its own table in `REG_PTBR1`. -/
theorem resume (htable : k.mem.ptbr1 = some k.current_process) (h : Yalnix.resume k = some k') :
    Unswitched hw k k' := by
  unfold Yalnix.resume at h
  cases hcontext : (k.pcb k.current_process).kernel_context with
  | uninitialized => simp [hcontext] at h
  | kernelStart =>
    simp only [hcontext, Option.bind_eq_bind, Option.bind_some, Option.pure_def,
      Option.some.injEq] at h
    rw [← h]
    refine ⟨rfl, .of_eq htable.symm rfl, ?_, ?_⟩ <;> simp [Kernel.setState, Kernel.modifyPcb]
  | sysFork child u =>
    simp only [hcontext, Option.bind_eq_bind, Option.bind_eq_some_iff, Option.pure_def,
      Option.some.injEq] at h
    obtain ⟨k₁, hret, rfl⟩ := h
    refine trans (trans ?_ (forkReturn hret)) (of_eq rfl rfl rfl)
    exact of_eq rfl rfl rfl
  | schedule caller =>
    simp only [hcontext, Option.bind_eq_bind, Option.bind_eq_some_iff, Option.pure_def,
      Option.some.injEq] at h
    obtain ⟨k₁, hafter, rfl⟩ := h
    exact (afterSchedule hafter).trans (of_eq rfl rfl rfl)

end Unswitched

end Yalnix
