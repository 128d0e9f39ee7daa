import Yalnix.CallRun
import Yalnix.Proofs.Wake

/-!
# The calls of `sync.c` as moves

Whatever a call of `sync.c` does to processes, it does in moves of four kinds: it changes the caller
alone, it puts the caller on a wait list, it wakes the head of a wait list, or it lets the first writer
of a pipe go on.
-/

namespace Yalnix

open Intrusive Transition

variable {k k' k'' : Kernel} {s s' s'' : QueueId → List PcbPtr} {p : PcbPtr}
  {T : WaitList → Prop}

/-- `b` is `a` but for the fields that `sync.c` writes. -/
def Pcb.Synced (a b : Pcb) : Prop :=
  b = { a with
    user_context := b.user_context
    state := b.state
    waiting_lock_id := b.waiting_lock_id
    waiting_cvar_id := b.waiting_cvar_id
    waiting_pipe_id := b.waiting_pipe_id
    pipe_buffer := b.pipe_buffer
    pipe_len := b.pipe_len
    write_loc := b.write_loc }

theorem Pcb.Synced.refl (a : Pcb) : a.Synced a := rfl

theorem Pcb.Synced.trans {a b c : Pcb} (h : a.Synced b) (h' : b.Synced c) : a.Synced c := by
  unfold Pcb.Synced at *
  rw [h', h]

theorem Pcb.Synced.kin {a b : Pcb} (h : a.Synced b) :
    b.parent = a.parent ∧ b.waiting_for_children = a.waiting_for_children := by
  rw [h]
  exact ⟨rfl, rfl⟩

/-- What `sync.c` leaves alone. -/
structure SyncFrame (k k' : Kernel) : Prop where
  family : k'.family = k.family
  allocated : k'.allocated = k.allocated
  current : k'.current_process = k.current_process
  idle : k'.idle_process = k.idle_process
  mem : k'.mem = k.mem
  uctxt : k'.uctxt = k.uctxt
  mode : k'.mode = k.mode
  pidCalls : k'.pidCalls = k.pidCalls
  kstatus : k'.kstatus = k.kstatus
  kstatusAllocated : k'.kstatusAllocated = k.kstatusAllocated
  pcb : ∀ q, (k.pcb q).Synced (k'.pcb q)

theorem SyncFrame.refl (k : Kernel) : SyncFrame k k :=
  ⟨rfl, rfl, rfl, rfl, rfl, rfl, rfl, rfl, rfl, rfl, fun _ => .refl _⟩

theorem SyncFrame.trans (h : SyncFrame k k') (h' : SyncFrame k' k'') : SyncFrame k k'' :=
  ⟨h'.family.trans h.family, h'.allocated.trans h.allocated, h'.current.trans h.current,
    h'.idle.trans h.idle, h'.mem.trans h.mem, h'.uctxt.trans h.uctxt, h'.mode.trans h.mode,
    h'.pidCalls.trans h.pidCalls, h'.kstatus.trans h.kstatus,
    h'.kstatusAllocated.trans h.kstatusAllocated, fun q => (h.pcb q).trans (h'.pcb q)⟩

theorem synced_of_others {q : PcbPtr} (hne : ∀ n, n ≠ q → k'.pcb n = k.pcb n)
    (hq : (k.pcb q).Synced (k'.pcb q)) (n : PcbPtr) : (k.pcb n).Synced (k'.pcb n) := by
  by_cases e : n = q
  · exact e ▸ hq
  · rw [hne n e]
    exact .refl _

/-- A change of the process `q` and of objects, after which the lists are `s'`. A lock may pass to
`q`. -/
structure SyncTouch (q : PcbPtr) (k k' : Kernel) (s' : QueueId → List PcbPtr) : Prop where
  frame : SyncFrame k k'
  coherent : Coherent k' s'
  table : SyncTable k' s'
  others : ∀ n, n ≠ q → k'.pcb n = k.pcb n
  owners : ∀ i lock o, k'.lock i = some lock → lock.owner = some o → o = q ∨
    ∃ lock₀, k.lock i = some lock₀ ∧ lock₀.owner = some o

/-- One move of a call of `p`, which may touch the wait lists `T`. -/
inductive SyncMove (p : PcbPtr) (T : WaitList → Prop) (k : Kernel) (s : QueueId → List PcbPtr) :
    Kernel → (QueueId → List PcbPtr) → Prop where
  | own {k' : Kernel} (h : SyncTouch p k k' s) (hoff : ∀ l, p ∉ s l)
      (hids : ∀ y, (k'.pcb p).waitingId y = (k.pcb p).waitingId y) : SyncMove p T k s k' s
  | block {k' : Kernel} {w : WaitList}
      (h : SyncTouch p k k' (Function.update s (.wait w) (s (.wait w) ++ [p])))
      (hoff : ∀ l, p ∉ s l) (hT : T w)
      (hids : ∀ y, (k'.pcb p).waitingId y =
        if y = w.type then (w.slot : Int) else (k.pcb p).waitingId y) :
      SyncMove p T k s k' (Function.update s (.wait w) (s (.wait w) ++ [p]))
  | wake {k' : Kernel} {w : WaitList} {q : PcbPtr} {xs : List PcbPtr}
      (h : SyncTouch q k k' (woken s w q xs)) (hs : s (.wait w) = q :: xs) (hT : T w)
      (hids : ∀ y, (k'.pcb q).waitingId y = if y = w.type then -1 else (k.pcb q).waitingId y)
      (hreg : (k'.pcb q).user_context = (k.pcb q).user_context ∨
        w.type = .pipe ∧ ∃ v, (k'.pcb q).user_context = (k.pcb q).user_context.setReg0 v) :
      SyncMove p T k s k' (woken s w q xs)
  | refill {k' : Kernel} {w : WaitList} {q : PcbPtr} (h : SyncTouch q k k' s)
      (hq : q ∈ s (.wait w)) (hids : ∀ y, (k'.pcb q).waitingId y = (k.pcb q).waitingId y)
      (hreg : (k'.pcb q).user_context = (k.pcb q).user_context) : SyncMove p T k s k' s

/-- Any number of moves. -/
inductive SyncMoves (p : PcbPtr) (T : WaitList → Prop) :
    Kernel → (QueueId → List PcbPtr) → Kernel → (QueueId → List PcbPtr) → Prop where
  | refl (k : Kernel) (s : QueueId → List PcbPtr) : SyncMoves p T k s k s
  | head {k k₁ k' : Kernel} {s s₁ s' : QueueId → List PcbPtr} (hmove : SyncMove p T k s k₁ s₁)
      (hrest : SyncMoves p T k₁ s₁ k' s') : SyncMoves p T k s k' s'

theorem SyncMove.frame (h : SyncMove p T k s k' s') : SyncFrame k k' := by
  cases h with
  | own h => exact h.frame
  | block h => exact h.frame
  | wake h => exact h.frame
  | refill h => exact h.frame

theorem SyncMove.coherent (h : SyncMove p T k s k' s') : Coherent k' s' := by
  cases h with
  | own h => exact h.coherent
  | block h => exact h.coherent
  | wake h => exact h.coherent
  | refill h => exact h.coherent

theorem SyncMove.table (h : SyncMove p T k s k' s') : SyncTable k' s' := by
  cases h with
  | own h => exact h.table
  | block h => exact h.table
  | wake h => exact h.table
  | refill h => exact h.table

namespace SyncMoves

/-- What every move preserves, a call preserves. -/
theorem invariant {I : Kernel → (QueueId → List PcbPtr) → Prop} (hm : SyncMoves p T k s k' s')
    (hpres : ∀ k s k' s', I k s → SyncMove p T k s k' s' → I k' s') (h : I k s) : I k' s' := by
  induction hm with
  | refl => exact h
  | head hmove _ ih => exact ih (hpres _ _ _ _ h hmove)

theorem single (h : SyncMove p T k s k' s') : SyncMoves p T k s k' s' := .head h (.refl _ _)

theorem trans (h : SyncMoves p T k s k' s') (h' : SyncMoves p T k' s' k'' s'') :
    SyncMoves p T k s k'' s'' := by
  induction h with
  | refl => exact h'
  | head hmove _ ih => exact .head hmove (ih h')

theorem frame (hm : SyncMoves p T k s k' s') : SyncFrame k k' := by
  induction hm with
  | refl => exact .refl _
  | head hmove _ ih => exact hmove.frame.trans ih

theorem coherent (hm : SyncMoves p T k s k' s') (h : Coherent k s) : Coherent k' s' :=
  hm.invariant (fun _ _ _ _ _ hmove => hmove.coherent) h

theorem table (hm : SyncMoves p T k s k' s') (h : SyncTable k s) : SyncTable k' s' :=
  hm.invariant (fun _ _ _ _ _ hmove => hmove.table) h

end SyncMoves

end Yalnix
