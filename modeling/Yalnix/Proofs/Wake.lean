import Yalnix.Proofs.SyncTable

/-!
# Waking a waiter

`sync.c` wakes a process in one way: it pops a wait list, puts the process into the default state and
adds it to the ready queue.
-/

namespace Yalnix

open Intrusive Transition

variable {k k' : Kernel} {s : QueueId → List PcbPtr}

/-- The sequences after `p` went from the head of the wait list `w`, which goes on with `xs`, to the end
of the ready queue. -/
def woken (s : QueueId → List PcbPtr) (w : WaitList) (p : PcbPtr) (xs : List PcbPtr) :
    QueueId → List PcbPtr :=
  Function.update (Function.update s (.wait w) xs) .ready (s .ready ++ [p])

section Woken

variable {w v : WaitList} {p : PcbPtr} {xs : List PcbPtr}

@[simp] theorem woken_self : woken s w p xs (.wait w) = xs := by simp [woken]

@[simp] theorem woken_ready : woken s w p xs .ready = s .ready ++ [p] := by simp [woken]

theorem woken_ne (h : v ≠ w) : woken s w p xs (.wait v) = s (.wait v) := by simp [woken, h]

/-- Only the ready queue gets a new process. -/
theorem mem_woken {n : PcbPtr} {l : QueueId} (hs : s (.wait w) = p :: xs)
    (hn : n ∈ woken s w p xs l) : n ∈ s l ∨ (n = p ∧ l = .ready) := by
  by_cases e : l = .ready
  · subst e
    simpa using hn
  · unfold woken at hn
    rw [Function.update_of_ne e] at hn
    by_cases e' : l = .wait w
    · subst e'
      rw [Function.update_self] at hn
      exact Or.inl (by simp [hs, hn])
    · rw [Function.update_of_ne e'] at hn
      exact Or.inl hn

theorem mem_of_mem_woken {n : PcbPtr} (hs : s (.wait w) = p :: xs)
    (hn : n ∈ woken s w p xs (.wait v)) : n ∈ s (.wait v) := by
  rcases mem_woken hs hn with h | ⟨-, h⟩
  · exact h
  · cases h

/-- The woken process is on no wait list. -/
theorem ne_of_mem_woken (h : Coherent k s) {n : PcbPtr} (hs : s (.wait w) = p :: xs)
    (hn : n ∈ woken s w p xs (.wait v)) : n ≠ p := by
  rintro rfl
  have hv := mem_of_mem_woken hs hn
  have e : v = w := by simpa using h.unique hv (show n ∈ s (.wait w) by simp [hs])
  subst e
  rw [woken_self] at hn
  have hnd := h.rep.nodup (.wait v)
  rw [hs, List.nodup_cons] at hnd
  exact hnd.1 hn

end Woken

/-- The head of a wait list is popped; once its state is the default one, it can join the ready
queue. -/
theorem Coherent.wake (h : Coherent k s) {w : WaitList} {p : PcbPtr} {xs : List PcbPtr}
    (hs : s (.wait w) = p :: xs) : ∃ q, k.pop (.wait w) = some (some p, { k with queues := q }) ∧
      ∀ k₁ : Kernel, k₁.queues = q → k₁.idle_process = k.idle_process →
        (∀ n, n ≠ p → (k₁.pcb n).state = (k.pcb n).state) →
        (k₁.pcb p).state = .processDefault →
        ∃ k₂ q', addToReadyQueue k₁ p = some k₂ ∧
          k₂ = { k₁.setState p .processReady with queues := q' } ∧
          Coherent k₂ (woken s w p xs) := by
  obtain ⟨q, hpop, htr⟩ := h.pop_cons hs
  refine ⟨q, hpop, fun k₁ hq hi hst hp => ?_⟩
  have hidle : p ≠ k.idle_process := by
    rintro rfl
    exact h.idle (.wait w) (by simp [hs])
  obtain ⟨q', hadd, hc⟩ := (htr.congr hq hi hst).addToQueue hp (hi ▸ hidle) (l := .ready)
  refine ⟨_, q', hadd, rfl, ?_⟩
  rw [Function.update_of_ne (by simp)] at hc
  exact hc

/-- `wakeCvarWaiter` wakes the head of the list. -/
theorem Coherent.wakeCvarWaiter (h : Coherent k s) {i : Nat} {p : PcbPtr} {xs : List PcbPtr}
    (hs : s (.wait (.cvarWaiters i)) = p :: xs) : ∃ k' q, Yalnix.wakeCvarWaiter k i = some k' ∧
      k' = { k.modifyPcb p (fun pcb => { pcb with waiting_cvar_id := -1, state := .processReady })
        with queues := q } ∧
      Coherent k' (woken s (.cvarWaiters i) p xs) := by
  obtain ⟨q, hpop, hwake⟩ := h.wake hs
  obtain ⟨k₁, q', hadd, hk₁, hc⟩ := hwake (({ k with queues := q } : Kernel).modifyPcb p
      fun pcb => { pcb with waiting_cvar_id := -1, state := .processDefault }) rfl rfl
    (fun n hn => by simp [Kernel.modifyPcb, hn]) (by simp [Kernel.modifyPcb])
  refine ⟨k₁, q', ?_, ?_, hc⟩
  · simp only [Yalnix.wakeCvarWaiter, hpop, Option.bind_eq_bind, Option.bind_some]
    exact hadd
  · rw [hk₁]
    simp [Kernel.setState, Kernel.modifyPcb]

/-- What `wakeCvarWaiter` preserves, the loop of `SyncCvarBroadcast` preserves. -/
theorem broadcastLoop_induction {I : Kernel → (QueueId → List PcbPtr) → Prop} {i : Nat}
    (hcoh : ∀ k s, I k s → Coherent k s)
    (hstep : ∀ k s p xs k', I k s → s (.wait (.cvarWaiters i)) = p :: xs →
      wakeCvarWaiter k i = some k' → I k' (woken s (.cvarWaiters i) p xs)) (h : I k s) :
    ∃ k' s', broadcastLoop i (s (.wait (.cvarWaiters i))).length k = some k' ∧ I k' s' := by
  generalize hn : (s (.wait (.cvarWaiters i))).length = n
  induction n generalizing k s with
  | zero =>
    have hs := List.eq_nil_of_length_eq_zero hn
    exact ⟨k, s, by rw [broadcastLoop, if_pos ((hcoh k s h).count_eq_zero.2 hs)], h⟩
  | succ n ih =>
    cases hs : s (.wait (.cvarWaiters i)) with
    | nil => simp [hs] at hn
    | cons p xs =>
      obtain ⟨k', -, hwake, -, -⟩ := (hcoh k s h).wakeCvarWaiter hs
      have hlen : (woken s (.cvarWaiters i) p xs (.wait (.cvarWaiters i))).length = n := by
        simpa [hs] using hn
      obtain ⟨k'', s'', hloop, hI⟩ := ih (hstep k s p xs k' h hs hwake) hlen
      refine ⟨k'', s'', ?_, hI⟩
      rw [broadcastLoop, if_neg (fun e => by simp [(hcoh k s h).count_eq_zero.1 e] at hs), hwake]
      exact hloop

/-- Waking leaves the table alone. -/
theorem SyncTable.woken (h : SyncTable k s) {w : WaitList} {p : PcbPtr} {xs : List PcbPtr}
    (hs : s (.wait w) = p :: xs) (ht : k'.sync_table = k.sync_table) (hu : k'.id_used = k.id_used) :
    SyncTable k' (woken s w p xs) :=
  h.congr ht hu fun _ _ hn => Or.inl (mem_of_mem_woken hs hn)

end Yalnix
