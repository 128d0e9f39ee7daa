import Yalnix.Proofs.SyncMoves
import Yalnix.Proofs.PipeCall
import Yalnix.Proofs.Lock

/-!
# The moves of a pipe call

The caller takes or puts bytes, or waits; then every step of the drain loops is a move.
-/

namespace Yalnix

open Intrusive Transition

variable {hw : Hardware} {k k' : Kernel} {s s' : QueueId → List PcbPtr} {p : PcbPtr}
  {T : WaitList → Prop}

/-- A pipe has no owner. -/
theorem owners_setPipe {i : Nat} {pipe x : Pipe} (hp : k.pipe i = some pipe)
    (ht : k'.sync_table = (k.setObject i (.pipe x)).sync_table) {j : Nat} {lock : Lock}
    (hl : k'.lock j = some lock) : k.lock j = some lock := by
  have hl : (k.setObject i (.pipe x)).lock j = some lock := by
    unfold Kernel.lock at hl ⊢
    rwa [← ht]
  by_cases e : j = i
  · subst e
    obtain ⟨o, ho, -⟩ := pipe_eq_some hp
    simp [Kernel.lock, Kernel.setObject, ho, SyncObject.asLock] at hl
  · rwa [lock_setObject_ne e] at hl

theorem SyncTouch.ofPipe {q : PcbPtr} {i : Nat} {pipe x : Pipe} (hframe : SyncFrame k k')
    (hc : Coherent k' s') (ht : SyncTable k s) (hp : k.pipe i = some pipe)
    (htable : k'.sync_table = (k.setObject i (.pipe x)).sync_table) (hused : k'.id_used = k.id_used)
    (hs : ∀ w n, n ∈ s' (.wait w) → n ∈ s (.wait w) ∨
      ∃ o, k.sync_table w.slot = some o ∧ w.Fits o.object)
    (hne : ∀ n, n ≠ q → k'.pcb n = k.pcb n) : SyncTouch q k k' s' where
  frame := hframe
  coherent := hc
  table := by
    refine (ht.setPipe hp x).congr htable hused fun w n hn => ?_
    rcases hs w n hn with hn | hfit
    · exact Or.inl hn
    · obtain ⟨o, ho, hfit⟩ := hfit
      obtain ⟨o', ho', hobj⟩ := pipe_eq_some hp
      by_cases e : w.slot = i
      · refine Or.inr ⟨{ o' with object := .pipe x }, by simp [Kernel.setObject, e, ho'], ?_⟩
        obtain rfl : o = o' := Option.some.inj (ho.symm.trans (e ▸ ho'))
        rw [hobj] at hfit
        cases w <;> exact hfit
      · exact Or.inr ⟨o, by simpa [Kernel.setObject, e] using ho, hfit⟩
  others := hne
  owners j lock o hl ho := Or.inr ⟨lock, owners_setPipe hp htable hl, ho⟩

/-- Serving a reader, up to the bytes. -/
theorem serveReader_touch {i : Nat} {pipe : Pipe} {r : PcbPtr} {k₁ : Kernel}
    (h : serveReader hw k i pipe r = some k₁) : ∃ x v, k₁ = { k with
      pcb := Function.update k.pcb r { k.pcb r with
        user_context := (k.pcb r).user_context.setReg0 v
        waiting_pipe_id := -1
        state := .processDefault }
      sync_table := (k.setObject i (.pipe x)).sync_table
      kbuf := k₁.kbuf
      pipeHistory := k₁.pipeHistory } := by
  unfold serveReader at h
  obtain ⟨d, -, h⟩ := Option.bind_eq_some_iff.1 h
  simp only [Option.pure_def, Option.ite_none_left_eq_some, Option.some.injEq] at h
  obtain ⟨-, h⟩ := h
  generalize (if (k.pcb r).pipe_len < pipe.bytes_in_buffer then (k.pcb r).pipe_len
    else pipe.bytes_in_buffer) = v at h
  generalize readLoop hw 1 pipe (k.kbuf d) 0 v.toNat = copied at h
  rw [← h]
  refine ⟨copied.1, v, ?_⟩
  apply Kernel.ext <;> try rfl
  simp [Kernel.modifyPcb, Kernel.setReg0, Kernel.record, Kernel.setObject]

/-- Filling from a writer, up to the bytes. -/
theorem fillFromWriter_touch {i : Nat} {pipe : Pipe} {w : PcbPtr} {k₁ : Kernel}
    (h : fillFromWriter hw k i pipe w = some k₁) : ∃ x loc, k₁ = { k with
      pcb := Function.update k.pcb w { k.pcb w with write_loc := loc }
      sync_table := (k.setObject i (.pipe x)).sync_table
      pipeHistory := k₁.pipeHistory } := by
  unfold fillFromWriter at h
  obtain ⟨d, -, h⟩ := Option.bind_eq_some_iff.1 h
  simp only [Option.pure_def, Option.ite_none_left_eq_some, Option.some.injEq] at h
  obtain ⟨-, h⟩ := h
  rw [← h]
  exact ⟨_, _, rfl⟩

/-- A step of the drain loops is a move. -/
theorem DrainStep.move {i : Nat} (h : DrainStep hw i k s k' s') (ht : SyncTable k s)
    (hT : ∀ w : WaitList, w.type = .pipe → w.slot = i → T w) : SyncMove p T k s k' s' := by
  cases h with
  | @serve r xs pipe k₁ q hs hp hpos hrun hc =>
    obtain ⟨x, v, hk₁⟩ := serveReader_touch hrun
    generalize k₁.kbuf = kbuf at hk₁
    generalize k₁.pipeHistory = hist at hk₁
    subst hk₁
    refine .wake (.ofPipe ⟨rfl, rfl, rfl, rfl, rfl, rfl, rfl, rfl, rfl, rfl,
      synced_of_others (q := r) (fun n hn => by simp [Kernel.setState, Kernel.modifyPcb, hn])
        (by simp [Pcb.Synced, Kernel.setState, Kernel.modifyPcb])⟩ hc ht hp rfl rfl
      (fun w n hn => Or.inl (mem_of_mem_woken hs hn))
      fun n hn => by simp [Kernel.setState, Kernel.modifyPcb, hn]) hs (hT _ rfl rfl) ?_ ?_
    · intro y
      cases y <;> simp [Pcb.waitingId, WaitList.type, Kernel.setState, Kernel.modifyPcb]
    · exact Or.inr ⟨rfl, v, by simp [Kernel.setState, Kernel.modifyPcb]⟩
  | @finish w xs pipe k₁ q hs hp hrun hdone hc =>
    obtain ⟨x, loc, hk₁⟩ := fillFromWriter_touch hrun
    generalize k₁.pipeHistory = hist at hk₁
    subst hk₁
    refine .wake (.ofPipe ⟨rfl, rfl, rfl, rfl, rfl, rfl, rfl, rfl, rfl, rfl,
      synced_of_others (q := w)
        (fun n hn => by simp [finishWriter, Kernel.setReg0, Kernel.setState, Kernel.modifyPcb, hn])
        (by simp [Pcb.Synced, finishWriter, Kernel.setReg0, Kernel.setState, Kernel.modifyPcb])⟩
      hc ht hp rfl rfl (fun w n hn => Or.inl (mem_of_mem_woken hs hn))
      fun n hn => by
        simp [finishWriter, Kernel.setReg0, Kernel.setState, Kernel.modifyPcb, hn])
      hs (hT _ rfl rfl) ?_ ?_
    · intro y
      cases y <;> simp [Pcb.waitingId, WaitList.type, finishWriter, Kernel.setReg0, Kernel.setState,
        Kernel.modifyPcb]
    · exact Or.inr ⟨rfl, (k.pcb w).pipe_len, by
        simp [finishWriter, Kernel.setReg0, Kernel.setState, Kernel.modifyPcb]⟩
  | @refill w xs pipe k₁ q hs hp hrun hleft hc =>
    obtain ⟨x, loc, hk₁⟩ := fillFromWriter_touch hrun
    generalize k₁.pipeHistory = hist at hk₁
    subst hk₁
    refine .refill (w := .pipeWriters i) (q := w)
      (.ofPipe ⟨rfl, rfl, rfl, rfl, rfl, rfl, rfl, rfl, rfl, rfl,
      synced_of_others (q := w) (fun n hn => by simp [hn]) (by simp [Pcb.Synced])⟩ hc ht hp rfl rfl
      (fun w n hn => Or.inl hn) fun n hn => by simp [hn]) (by simp [hs]) ?_ ?_
    · intro y
      cases y <;> simp [Pcb.waitingId]
    · simp

theorem Drain.moves {i : Nat} (hd : Drain hw i k s k' s') (ht : SyncTable k s)
    (hT : ∀ w : WaitList, w.type = .pipe → w.slot = i → T w) : SyncMoves p T k s k' s' := by
  induction hd with
  | refl => exact .refl _ _
  | head hstep _ ih =>
    have hmove := hstep.move (p := p) ht hT
    exact .head hmove (ih hmove.table)

/-- The caller takes or puts bytes without waiting. -/
theorem SyncMove.ofPipe {i : Nat} {pipe x : Pipe} (hframe : SyncFrame k k') (hc : Coherent k' s)
    (ht : SyncTable k s) (hp : k.pipe i = some pipe)
    (htable : k'.sync_table = (k.setObject i (.pipe x)).sync_table) (hused : k'.id_used = k.id_used)
    (hne : ∀ n, n ≠ p → k'.pcb n = k.pcb n) (hoff : ∀ l, p ∉ s l)
    (hids : ∀ y, (k'.pcb p).waitingId y = (k.pcb p).waitingId y) : SyncMove p T k s k' s :=
  .own (.ofPipe hframe hc ht hp htable hused (fun _ _ hn => Or.inl hn) hne) hoff hids

/-- The caller has taken `v` bytes, and the pipe in slot `i` is `x`. -/
def readTaken (k : Kernel) (i : Nat) (x : Pipe) (v : Int) (kbuf : BufPtr → Nat → UInt8)
    (hist : List PipeEvent) : Kernel :=
  { k with
    pcb := Function.update k.pcb k.current_process { k.pcb k.current_process with
      user_context := (k.pcb k.current_process).user_context.setReg0 v }
    sync_table := (k.setObject i (.pipe x)).sync_table
    kbuf := kbuf
    pipeHistory := hist }

theorem readTaken_move (hc : Coherent k s) (ht : SyncTable k s)
    (hoff : ∀ l, k.current_process ∉ s l) {i : Nat} {pipe : Pipe} (hp : k.pipe i = some pipe)
    (x : Pipe) (v : Int) (kbuf : BufPtr → Nat → UInt8) (hist : List PipeEvent) :
    SyncMove k.current_process T k s (readTaken k i x v kbuf hist) s := by
  have hne : ∀ n, n ≠ k.current_process → (readTaken k i x v kbuf hist).pcb n = k.pcb n :=
    fun n hn => by simp [readTaken, hn]
  have hst : ∀ n, ((readTaken k i x v kbuf hist).pcb n).state = (k.pcb n).state := by
    intro n
    by_cases e : n = k.current_process
    · subst e; simp [readTaken]
    · rw [hne n e]
  refine .ofPipe ⟨rfl, rfl, rfl, rfl, rfl, rfl, rfl, rfl, rfl, rfl, synced_of_others hne ?_⟩
    (hc.congr rfl rfl hst) ht hp rfl rfl hne hoff fun y => ?_
  · simp [Pcb.Synced, readTaken]
  · cases y <;> simp [Pcb.waitingId, readTaken]

theorem readPipe_moves (hc : Coherent k s) (ht : SyncTable k s)
    (hoff : ∀ l, k.current_process ∉ s l) (hidle : k.current_process ≠ k.idle_process)
    {id len rc : Int} {buf : BufPtr} (hrun : syncReadPipe hw k id buf len = some (rc, k')) :
    ∃ s', SyncMoves k.current_process (SyncCall.readPipe id buf len).Touches k s k' s' := by
  unfold syncReadPipe at hrun
  simp only at hrun
  split at hrun
  · simp only [Option.some.injEq, Prod.mk.injEq] at hrun
    obtain ⟨-, rfl⟩ := hrun
    exact ⟨s, .refl _ _⟩
  · rename_i o hcheck
    obtain ⟨ho, hid⟩ := getCheckSync_eq_some hcheck
    have hT : ∀ w : WaitList, w.type = .pipe → w.slot = id.toNat →
        (SyncCall.readPipe id buf len).Touches w := fun w hty hslot => ⟨hty, hslot⟩
    generalize id.toNat = i at *
    subst hid
    simp only [Option.bind_eq_bind, Option.bind_eq_some_iff] at hrun
    obtain ⟨pipe, hpipe, hrun⟩ := hrun
    have hp : k.pipe i = some pipe := by rw [Kernel.pipe, ho]; exact hpipe
    obtain ⟨o', ho', hobj⟩ := pipe_eq_some hp
    split at hrun
    · simp only [Option.pure_def, Option.some.injEq, Prod.mk.injEq] at hrun
      obtain ⟨-, rfl⟩ := hrun
      exact ⟨s, .refl _ _⟩
    · split at hrun
      · simp only [Option.bind_eq_some_iff, Option.pure_def, Option.some.injEq,
          Prod.mk.injEq] at hrun
        obtain ⟨k₁, hins, -, rfl⟩ := hrun
        have htr : InTransit (k.record (.readCall i k.current_process len)) s k.current_process :=
          (hc.transit hoff).congr rfl rfl fun _ _ => rfl
        obtain ⟨k₂, q, hins', hk₂, hc₂⟩ := (htr.modifyPcb _).enqueue (l := .wait (.pipeReaders i))
          (fun pcb => { pcb with state := .processBlocked }) rfl hidle
        obtain rfl : k₁ = k₂ := Option.some.inj (hins.symm.trans hins')
        have hk₁ : k₁.setState k.current_process .processBlocked = readBlocked k i buf len q := by
          refine hk₂.trans ?_
          simp [readBlocked, Kernel.modifyPcb, Kernel.record]
        have hne : ∀ n, n ≠ k.current_process →
            (readBlocked k i buf len q).pcb n = k.pcb n := fun n hn => by simp [readBlocked, hn]
        rw [hk₁]
        refine ⟨_, .single (.block (w := .pipeReaders i) ⟨⟨rfl, rfl, rfl, rfl, rfl, rfl, rfl, rfl,
          rfl, rfl, synced_of_others hne (by simp [Pcb.Synced, readBlocked])⟩, hk₁ ▸ hc₂,
          ht.congr rfl rfl fun w n hn => ?_, hne, fun j lock o hl ho => Or.inr ⟨lock, hl, ho⟩⟩ hoff
          (hT _ rfl rfl) fun y => ?_)⟩
        · by_cases e : w = .pipeReaders i
          · subst e
            exact Or.inr ⟨o', ho', by simp [WaitList.Fits, hobj]⟩
          · rw [Function.update_of_ne (by simpa using e)] at hn
            exact Or.inl hn
        · cases y <;> simp [Pcb.waitingId, WaitList.type, WaitList.slot, readBlocked]
      · simp only [Option.bind_eq_some_iff, Option.pure_def, Option.some.injEq,
          Prod.mk.injEq] at hrun
        obtain ⟨k₂, hdrain, -, rfl⟩ := hrun
        generalize (if len < pipe.bytes_in_buffer then len else pipe.bytes_in_buffer) = v at hdrain
        generalize readLoop hw 0 pipe _ 0 v.toNat = copied at hdrain
        have key : ∀ (K : Kernel) (n : Nat) (x : Pipe), K = readTaken k i x v K.kbuf K.pipeHistory →
            syncDrainWriters hw n K i = some k₂ →
            ∃ s', SyncMoves k.current_process (SyncCall.readPipe i buf len).Touches k s k₂ s' := by
          rintro K n x hK hdrain
          have hmove := readTaken_move (T := (SyncCall.readPipe i buf len).Touches) hc ht hoff hp x v
            K.kbuf K.pipeHistory
          rw [← hK] at hmove
          obtain ⟨s', hd, -⟩ := (drain_steps n _ _ hmove.coherent).1 _ hdrain
          exact ⟨s', .head hmove (hd.moves hmove.table hT)⟩
        refine key _ _ { copied.1 with bytes_in_buffer := copied.1.bytes_in_buffer - v } ?_ hdrain
        apply Kernel.ext <;> try rfl

theorem writePipe_moves (hc : Coherent k s) (ht : SyncTable k s)
    (hoff : ∀ l, k.current_process ∉ s l) (hidle : k.current_process ≠ k.idle_process)
    {id len rc : Int} {buf : BufPtr} (hrun : syncWritePipe hw k id buf len = some (rc, k')) :
    ∃ s', SyncMoves k.current_process (SyncCall.writePipe id buf len).Touches k s k' s' := by
  cases writePipe_cases hc hoff hidle hrun with
  | error => exact ⟨s, .refl _ _⟩
  | @blocked i m n pipe q k₁ _ hopen hp hm hlt hk₁ hc₁ hdrain =>
    obtain ⟨o, ho, hobj⟩ := pipe_eq_some hp
    have hne : ∀ n, n ≠ k.current_process → k₁.pcb n = k.pcb n := fun n hn => by
      simp [hk₁, writeNow, hn]
    have hsync : (k.pcb k.current_process).Synced (k₁.pcb k.current_process) := by
      simp [Pcb.Synced, hk₁, writeNow, pcbBlockedWrite]
    have hmove : SyncMove k.current_process (SyncCall.writePipe i buf len).Touches k s k₁
        (Function.update s (.wait (.pipeWriters i))
          (s (.wait (.pipeWriters i)) ++ [k.current_process])) := by
      refine .block (w := .pipeWriters i) (.ofPipe ?_ hc₁ ht hp (by rw [hk₁]; rfl)
        (by rw [hk₁]; rfl) (fun w n hn => ?_) hne) hoff ⟨rfl, rfl⟩ fun y => ?_
      · subst hk₁
        exact ⟨rfl, rfl, rfl, rfl, rfl, rfl, rfl, rfl, rfl, rfl, synced_of_others hne hsync⟩
      · by_cases e : w = .pipeWriters i
        · subst e
          exact Or.inr ⟨o, ho, by simp [WaitList.Fits, hobj]⟩
        · rw [Function.update_of_ne (by simpa using e)] at hn
          exact Or.inl hn
      · cases y <;> simp [Pcb.waitingId, WaitList.type, WaitList.slot, hk₁, writeNow, pcbBlockedWrite]
    obtain ⟨s', hd, -⟩ := (drain_steps _ _ _ hc₁).2 _ hdrain
    exact ⟨s', .head hmove (hd.moves hmove.table fun w hty hslot => ⟨hty, hslot⟩)⟩
  | @done i m n pipe k₁ _ hopen hp hm hlt hk₁ hdrain =>
    have hne : ∀ n, n ≠ k.current_process → k₁.pcb n = k.pcb n := fun n hn => by
      simp [hk₁, writeNow, hn]
    have hsync : (k.pcb k.current_process).Synced (k₁.pcb k.current_process) := by
      simp [Pcb.Synced, hk₁, writeNow, pcbDoneWrite]
    have hst : ∀ n, (k₁.pcb n).state = (k.pcb n).state := by
      intro n
      by_cases e : n = k.current_process
      · subst e; simp [hk₁, writeNow, pcbDoneWrite]
      · rw [hne n e]
    have hmove : SyncMove k.current_process (SyncCall.writePipe i buf len).Touches k s k₁ s := by
      refine .ofPipe ?_ (hc.congr (by rw [hk₁]; rfl) (by rw [hk₁]; rfl) hst) ht hp (by rw [hk₁]; rfl)
        (by rw [hk₁]; rfl) hne hoff fun y => ?_
      · subst hk₁
        exact ⟨rfl, rfl, rfl, rfl, rfl, rfl, rfl, rfl, rfl, rfl, synced_of_others hne hsync⟩
      · cases y <;> simp [Pcb.waitingId, hk₁, writeNow, pcbDoneWrite]
    obtain ⟨s', hd, -⟩ := (drain_steps _ _ _ hmove.coherent).2 _ hdrain
    exact ⟨s', .head hmove (hd.moves hmove.table fun w hty hslot => ⟨hty, hslot⟩)⟩

end Yalnix
