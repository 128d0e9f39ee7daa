import Yalnix.Proofs.ReapStep

/-!
# Every child is reaped once

A child stays on the list of its parent when it has exited; whether it is allocated says whether its exit
has been told.
-/

namespace Yalnix

open Intrusive Transition

variable {hw : Hardware} {k k' k₀ k₁ : Kernel} {s s' : QueueId → List PcbPtr}
  {f f' : PcbPtr → List PcbPtr} {e : TrapEvent} {p c : PcbPtr} {t : List (Kernel × TrapEvent)} {A : Account}

/-! ## What has been handed over -/

/-- `p` is ready or resumes. -/
def Returning (k : Kernel) (p : PcbPtr) : Prop :=
  p ∈ k.queue .ready ∨ k.mode = .resumed ∧ k.current_process = p

theorem handed_nil (h : ∀ n, WaitsWith k p n → ¬ Returning k p) : k.handed p = [] := by
  unfold Kernel.handed
  split
  · rename_i status_ptr n hcontext
    exact if_neg (h n ⟨status_ptr, hcontext⟩)
  · rfl

theorem handed_of_returning {n : Int} (hwaits : WaitsWith k p n) (h : Returning k p) :
    k.handed p = [((k.saved p).regs 0, k.kstatus n)] := by
  obtain ⟨status_ptr, hcontext⟩ := hwaits
  unfold Kernel.handed
  rw [hcontext]
  exact if_pos h

theorem handed_congr (hkept : (k.pcb p).Kept (k'.pcb p))
    (hstatus : ∀ n, WaitsWith k p n → Returning k p → k'.kstatus n = k.kstatus n)
    (hreturning : ∀ n, WaitsWith k p n → (Returning k' p ↔ Returning k p)) : k'.handed p = k.handed p := by
  by_cases hwaits : ∃ n, WaitsWith k p n ∧ Returning k p
  · obtain ⟨n, hw, ht⟩ := hwaits
    rw [handed_of_returning hw ht, handed_of_returning ((WaitsWith.congr hkept.context).2 hw) ((hreturning n hw).2 ht),
      Kernel.saved, hkept.saved, hstatus n hw ht]
    rfl
  · rw [handed_nil fun n hw ht => hwaits ⟨n, hw, ht⟩, handed_nil fun n hw ht => ?_]
    have hw := (WaitsWith.congr hkept.context).1 hw
    exact hwaits ⟨n, hw, (hreturning n hw).1 ht⟩

/-- Between traps nobody resumes. -/
theorem returning_iff (hmode : k.mode ≠ .resumed) (hmode' : k'.mode ≠ .resumed)
    (hready : p ∈ k'.queue .ready ↔ p ∈ k.queue .ready) : Returning k' p ↔ Returning k p := by
  unfold Returning
  rw [hready]
  exact or_congr_right (iff_of_false (fun h => hmode' h.1) fun h => hmode h.1)

/-! ## The account of a process -/

/-- The child has exited. -/
def gone (k : Kernel) (c : PcbPtr) : Bool :=
  !k.allocated c || decide ((k.pcb c).state = .processZombie)

/-- The children of `p` say what is in its account. -/
structure AccountInv (A : Account) (k : Kernel) (f : PcbPtr → List PcbPtr) (p : PcbPtr) : Prop where
  births : A.births = (f p).map fun c => (k.receipt c).1
  exits : A.exits.Perm (((f p).filter (gone k)).map k.receipt)
  returns : ∃ told, List.Forall₂ (WaitReturn.Tells p) A.returns told ∧
    (((f p).filter (!k.allocated ·)).map k.receipt).Perm (told ++ k.handed p)

/-- Nothing has happened to the child `c`. -/
structure SameChild (k k' : Kernel) (c : PcbPtr) : Prop where
  receipt : k'.receipt c = k.receipt c
  allocated : k'.allocated c = k.allocated c
  zombie : (k'.pcb c).state = .processZombie ↔ (k.pcb c).state = .processZombie

theorem SameChild.gone (h : SameChild k k' c) : gone k' c = gone k c := by
  unfold Yalnix.gone
  rw [h.allocated, decide_eq_decide.2 h.zombie]

theorem AccountInv.keeps (h : AccountInv A k f p) (hf : f' p = f p) (hsame : ∀ c ∈ f p, SameChild k k' c)
    (hhanded : k'.handed p = k.handed p) : AccountInv A k' f' p := by
  obtain ⟨told, htold, hperm⟩ := h.returns
  have hreceipt : ∀ l : List PcbPtr, (∀ c ∈ l, c ∈ f p) → l.map k'.receipt = l.map k.receipt :=
    fun l hl => List.map_congr_left fun c hc => (hsame c (hl c hc)).receipt
  refine ⟨?_, ?_, told, htold, ?_⟩
  · rw [h.births, hf]
    exact List.map_congr_left fun c hc => by rw [(hsame c hc).receipt]
  · rw [hf, List.filter_congr fun c hc => (hsame c hc).gone, hreceipt _ fun c hc => List.mem_of_mem_filter hc]
    exact h.exits
  · rw [hf, hhanded, List.filter_congr fun c hc => by rw [(hsame c hc).allocated],
      hreceipt _ fun c hc => List.mem_of_mem_filter hc]
    exact hperm

/-- One more element of a list passes the filter. -/
theorem map_filter_gain {β : Type} {l : List PcbPtr} {P Q : PcbPtr → Bool} {g g' : PcbPtr → β} {z : PcbPtr}
    (hnd : l.Nodup) (hz : z ∈ l) (hP : P z = false) (hQ : Q z = true)
    (hsame : ∀ c ∈ l, c ≠ z → Q c = P c ∧ (P c = true → g' c = g c)) :
    ((l.filter Q).map g').Perm ((l.filter P).map g ++ [g' z]) := by
  have herase : l.Perm (z :: l.erase z) := List.perm_cons_erase hz
  have hrest : ∀ c ∈ l.erase z, c ∈ l ∧ c ≠ z := fun c hc =>
    ⟨List.mem_of_mem_erase hc, (hnd.mem_erase_iff.1 hc).1⟩
  have hfilter : (l.erase z).filter Q = (l.erase z).filter P :=
    List.filter_congr fun c hc => (hsame c (hrest c hc).1 (hrest c hc).2).1
  have hmap : ((l.erase z).filter P).map g' = ((l.erase z).filter P).map g :=
    List.map_congr_left fun c hc => by
      obtain ⟨hc, hPc⟩ := List.mem_filter.1 hc
      exact (hsame c (hrest c hc).1 (hrest c hc).2).2 hPc
  calc ((l.filter Q).map g').Perm (((z :: l.erase z).filter Q).map g') := (herase.filter Q).map g'
    _ = g' z :: ((l.erase z).filter P).map g := by
        rw [List.filter_cons_of_pos hQ, List.map_cons, hfilter, hmap]
    _ = g' z :: ((z :: l.erase z).filter P).map g := by
        rw [List.filter_cons_of_neg (by simp [hP])]
    List.Perm _ (g' z :: (l.filter P).map g) := (((herase.filter P).map g).symm).cons _
    List.Perm _ ((l.filter P).map g ++ [g' z]) := (List.perm_append_singleton _ _).symm

/-- Another child has been made. -/
theorem AccountInv.bears (h : AccountInv A k f p) {child : PcbPtr} {pid : Int}
    (hf : f' p = f p ++ [child]) (hpid : (k'.receipt child).1 = pid) (hgone : gone k' child = false)
    (hsame : ∀ c ∈ f p, SameChild k k' c) (hhanded : k'.handed p = k.handed p) :
    AccountInv { A with births := A.births ++ [pid] } k' f' p := by
  have hlives : (!k'.allocated child) = false := (Bool.or_eq_false_iff.1 hgone).1
  have hold : AccountInv A k' f p := h.keeps rfl hsame hhanded
  obtain ⟨told, htold, hperm⟩ := hold.returns
  refine ⟨?_, ?_, told, htold, ?_⟩
  · rw [hf, List.map_append, ← hold.births, List.map_singleton, hpid]
  · rw [hf, List.filter_append, List.filter_cons_of_neg (by simp [hgone]), List.filter_nil, List.append_nil]
    exact hold.exits
  · rw [hf, List.filter_append, List.filter_cons_of_neg (by simp [hlives]), List.filter_nil, List.append_nil]
    exact hperm

/-- A child has exited, and waits for `SysWait` of its parent. -/
theorem AccountInv.loses (h : AccountInv A k f p) (hnd : (f p).Nodup) (hf : f' p = f p) (hc : c ∈ f p)
    (hlives : gone k c = false) (hgone : gone k' c = true) (halloc : k'.allocated c = k.allocated c)
    (hpid : (k'.receipt c).1 = (k.receipt c).1) (hsame : ∀ x ∈ f p, x ≠ c → SameChild k k' x)
    (hhanded : k'.handed p = k.handed p) :
    AccountInv { A with exits := A.exits ++ [k'.receipt c] } k' f' p := by
  obtain ⟨told, htold, hperm⟩ := h.returns
  have hthere : k.allocated c = true := by simpa using (Bool.or_eq_false_iff.1 hlives).1
  refine ⟨?_, ?_, told, htold, ?_⟩
  · rw [h.births, hf]
    refine List.map_congr_left fun x hx => ?_
    by_cases e : x = c
    · rw [e, hpid]
    · rw [(hsame x hx e).receipt]
  · rw [hf]
    refine (h.exits.append_right _).trans (map_filter_gain hnd hc hlives hgone fun x hx e => ?_).symm
    exact ⟨(hsame x hx e).gone, fun _ => (hsame x hx e).receipt⟩
  · rw [hf, hhanded]
    have hfilter : (f p).filter (!k'.allocated ·) = (f p).filter (!k.allocated ·) := by
      refine List.filter_congr fun x hx => ?_
      by_cases e : x = c
      · rw [e, halloc]
      · rw [(hsame x hx e).allocated]
    rw [hfilter]
    refine .trans (.of_eq (List.map_congr_left fun x hx => ?_)) hperm
    obtain ⟨hx, hfreed⟩ := List.mem_filter.1 hx
    refine (hsame x hx fun e => ?_).receipt
    rw [e, hthere] at hfreed
    cases hfreed

/-- `SysWait` of the parent has found a terminated child. -/
theorem AccountInv.collects (h : AccountInv A k f p) (hnd : (f p).Nodup) (hf : f' p = f p) (hc : c ∈ f p)
    (hthere : k.allocated c = true) (hgone : gone k c = true) (hfreed : k'.allocated c = false)
    (hreceipt : k'.receipt c = k.receipt c) (hsame : ∀ x ∈ f p, x ≠ c → SameChild k k' x)
    (hnil : k.handed p = []) (hnil' : k'.handed p = []) {r : WaitReturn} (hr : r.Tells p (k'.receipt c)) :
    AccountInv { A with returns := A.returns ++ [r] } k' f' p := by
  obtain ⟨told, htold, hperm⟩ := h.returns
  rw [hnil, List.append_nil] at hperm
  have hreceipts : ∀ x ∈ f p, k'.receipt x = k.receipt x := fun x hx => by
    by_cases e : x = c
    · rw [e, hreceipt]
    · exact (hsame x hx e).receipt
  refine ⟨?_, ?_, told ++ [k'.receipt c], List.rel_append htold (.cons hr .nil), ?_⟩
  · rw [h.births, hf]
    exact List.map_congr_left fun x hx => by rw [hreceipts x hx]
  · rw [hf]
    have hfilter : (f p).filter (gone k') = (f p).filter (gone k) := by
      refine List.filter_congr fun x hx => ?_
      by_cases e : x = c
      · rw [e, hgone, gone, hfreed]
        rfl
      · exact (hsame x hx e).gone
    rw [hfilter]
    exact h.exits.trans (.of_eq (List.map_congr_left fun x hx => (hreceipts x (List.mem_of_mem_filter hx)).symm))
  · rw [hf, hnil', List.append_nil]
    refine (map_filter_gain hnd hc (by simp [hthere]) (by simp [hfreed]) fun x hx e => ?_).trans
      (hperm.append_right _)
    exact ⟨by rw [(hsame x hx e).allocated], fun _ => (hsame x hx e).receipt⟩

/-- A child has exited while its parent is blocked in `SysWait`. -/
theorem AccountInv.hands (h : AccountInv A k f p) (hnd : (f p).Nodup) (hf : f' p = f p) (hc : c ∈ f p)
    (hlives : gone k c = false) (hfreed : k'.allocated c = false)
    (hpid : (k'.receipt c).1 = (k.receipt c).1) (hsame : ∀ x ∈ f p, x ≠ c → SameChild k k' x)
    (hnil : k.handed p = []) (hhanded : k'.handed p = [k'.receipt c]) :
    AccountInv { A with exits := A.exits ++ [k'.receipt c] } k' f' p := by
  obtain ⟨told, htold, hperm⟩ := h.returns
  rw [hnil, List.append_nil] at hperm
  have hthere := (Bool.or_eq_false_iff.1 hlives).1
  refine ⟨?_, ?_, told, htold, ?_⟩
  · rw [h.births, hf]
    refine List.map_congr_left fun x hx => ?_
    by_cases e : x = c
    · rw [e, hpid]
    · rw [(hsame x hx e).receipt]
  · rw [hf]
    have hgone : gone k' c = true := by simp [gone, hfreed]
    refine (h.exits.append_right _).trans (map_filter_gain hnd hc hlives hgone fun x hx e => ?_).symm
    exact ⟨(hsame x hx e).gone, fun _ => (hsame x hx e).receipt⟩
  · rw [hf, hhanded]
    refine (map_filter_gain hnd hc hthere (by simp [hfreed]) fun x hx e => ?_).trans (hperm.append_right _)
    exact ⟨by rw [(hsame x hx e).allocated], fun _ => (hsame x hx e).receipt⟩

/-- `SysWait` returns with what it was handed. -/
theorem AccountInv.returned (h : AccountInv A k f p) (hf : f' p = f p) (hsame : ∀ c ∈ f p, SameChild k k' c)
    {x : Int × Int} (hx : k.handed p = [x]) (hnil : k'.handed p = []) {r : WaitReturn} (hr : r.Tells p x) :
    AccountInv { A with returns := A.returns ++ [r] } k' f' p := by
  obtain ⟨told, htold, hperm⟩ := h.returns
  rw [hx] at hperm
  have hreceipt : ∀ l : List PcbPtr, (∀ c ∈ l, c ∈ f p) → l.map k'.receipt = l.map k.receipt :=
    fun l hl => List.map_congr_left fun c hc => (hsame c (hl c hc)).receipt
  refine ⟨?_, ?_, told ++ [x], List.rel_append htold (.cons hr .nil), ?_⟩
  · rw [h.births, hf]
    exact List.map_congr_left fun c hc => by rw [(hsame c hc).receipt]
  · rw [hf, List.filter_congr fun c hc => (hsame c hc).gone, hreceipt _ fun c hc => List.mem_of_mem_filter hc]
    exact h.exits
  · rw [hf, hnil, List.append_nil, List.filter_congr fun c hc => by rw [(hsame c hc).allocated],
      hreceipt _ fun c hc => List.mem_of_mem_filter hc]
    exact hperm

/-! ## The invariant -/

theorem account_snoc (hstep : (trapMachine hw).step k e = some k') :
    account hw p (t ++ [(k, e)]) = (account hw p t).update p k k' e := by
  rw [account, List.foldl_append, List.foldl_cons, List.foldl_nil, hstep]
  rfl

structure ReapInv (hw : Hardware) (t : List (Kernel × TrapEvent)) (k : Kernel)
    (s : QueueId → List PcbPtr) (f : PcbPtr → List PcbPtr) : Prop where
  family : FamilyInv k s f
  cells : CellInv k s
  quiet : ∀ p ∈ s .blocked, ∀ c ∈ f p, (k.pcb c).state ≠ .processZombie
  freed : ∀ p c, c ∈ f p → (k.pcb c).state = .processZombie → k.allocated c = true
  pids : ∀ p c, c ∈ f p → (k.receipt c).1 ≠ ERROR
  accounts : ∀ p, k.Lives p → AccountInv (account hw p t) k f p

namespace ReapInv

theorem start (h₀ : ReapStart k₀) : ∃ f, ReapInv hw [] k₀ k₀.queue f := by
  obtain ⟨f, hinv⟩ := FamilyInv.start h₀.family
  have hnil : ∀ p, f p = [] := fun p => by rw [← hinv.children_eq, h₀.childless]
  have hhanded : ∀ p, k₀.handed p = [] := fun p => handed_nil fun n hw _ => by
    obtain ⟨status_ptr, hcontext⟩ := hw
    exact h₀.noWait _ _ _ hcontext
  refine ⟨f, hinv, .start h₀, fun p _ c hc => ?_, fun p c hc => ?_, fun p c hc => ?_, fun p _ => ?_⟩
  · simp [hnil p] at hc
  · simp [hnil p] at hc
  · simp [hnil p] at hc
  · exact ⟨by simp [hnil p, account, Account.new], by simp [hnil p, account, Account.new], [],
      by simp [account, Account.new], by simp [hnil p, hhanded p]⟩

theorem queue_eq (h : ReapInv hw t k s f) : k.queue = s := h.family.steady.coherent.queue_eq

/-- A step that does nothing to any child, and gives or takes nobody anything. -/
theorem keeps (h : ReapInv hw t k s f) (hinv : FamilyInv k' s' f) (hcells : CellInv k' s')
    (hstep : (trapMachine hw).step k e = some k') (hblocked : ∀ p ∈ s' .blocked, p ∈ s .blocked)
    (hsame : ∀ c, SameChild k k' c) (hhanded : ∀ p, k'.handed p = k.handed p)
    (hupdate : ∀ p A, Account.update p k k' e A = A) : ReapInv hw (t ++ [(k, e)]) k' s' f where
  family := hinv
  cells := hcells
  quiet p hp c hc hz := h.quiet p (hblocked p hp) c hc ((hsame c).zombie.1 hz)
  freed p c hc hz := (hsame c).allocated.trans (h.freed p c hc ((hsame c).zombie.1 hz))
  pids p c hc := by
    rw [(hsame c).receipt]
    exact h.pids p c hc
  accounts p hp := by
    have hlives : k.Lives p :=
      ⟨(hsame p).allocated ▸ hp.1, fun hz => hp.2 ((hsame p).zombie.2 hz)⟩
    rw [account_snoc hstep, hupdate]
    exact (h.accounts p hlives).keeps rfl (fun c _ => hsame c) (hhanded p)

/-- A change of one PCB that is not about its exit. -/
theorem sameChild_of_others {q : PcbPtr} (hne : ∀ n, n ≠ q → k'.pcb n = k.pcb n)
    (halloc : k'.allocated = k.allocated) (hq : k'.receipt q = k.receipt q)
    (hzombie : (k'.pcb q).state = .processZombie ↔ (k.pcb q).state = .processZombie) (c : PcbPtr) :
    SameChild k k' c := by
  by_cases e : c = q
  · subst e
    exact ⟨hq, by rw [halloc], hzombie⟩
  · exact ⟨by rw [Kernel.receipt, hne c e]; rfl, by rw [halloc], by rw [hne c e]⟩

/-- Whoever runs does not say in its state that it has exited. -/
theorem notZombie (h : FamilyInv k s f) (hmode : k.mode = .user) :
    (k.pcb k.current_process).state ≠ .processZombie := by
  intro hz
  rcases h.state_current hmode with hd | hr
  · rw [hd] at hz
    cases hz
  · rw [hr] at hz
    cases hz

/-- A handler that leaves contexts, cells and the ready queue alone hands nothing over. -/
theorem handed_eq (h : ReapInv hw t k s f) (hc : Coherent k' s') (hmode : k.mode = .user)
    (hmode' : k'.mode ≠ .resumed) (hkept : (k.pcb p).Kept (k'.pcb p)) (hstatus : k'.kstatus = k.kstatus)
    (hready : p ∈ s' .ready ↔ p ∈ s .ready) : k'.handed p = k.handed p := by
  refine handed_congr hkept (fun _ _ _ => by rw [hstatus]) fun _ _ => ?_
  exact returning_iff (by simp [hmode]) hmode' (by rw [h.queue_eq, hc.queue_eq, hready])

/-- Whoever runs is given nothing. -/
theorem handed_current (h : ReapInv hw t k s f) (hmode : k.mode = .user) :
    k.handed k.current_process = [] := by
  refine handed_nil fun _ _ hr => ?_
  rcases hr with hr | ⟨hr, -⟩
  · rw [h.queue_eq] at hr
    exact h.cells.ready hr
  · rw [hmode] at hr
    cases hr

theorem again (h : ReapInv hw t k s f) {u : UserContext} {child : PcbPtr} (hmode : k.mode = .user)
    (hk : k' = (({ k with uctxt := u } : Kernel).modifyPcb k.current_process fun pcb =>
      { pcb with should_fork := true }).returnValue 0)
    (hinv : FamilyInv k' s f) (hcells : CellInv k' s)
    (hstep : (trapMachine hw).step k (.kernel u (.fork child)) = some k') :
    ReapInv hw (t ++ [(k, .kernel u (.fork child))]) k' s f := by
  have hothers : ∀ n, n ≠ k.current_process → k'.pcb n = k.pcb n := fun n hn => by
    rw [hk]
    simp [Kernel.returnValue, Kernel.modifyPcb, hn]
  have halloc : k'.allocated = k.allocated := by rw [hk]; rfl
  have hmode' : k'.mode = .user := by rw [hk]; exact hmode
  refine h.keeps hinv hcells hstep (fun p => id) (sameChild_of_others hothers halloc ?_ ?_) (fun p => ?_)
    fun p A => ?_
  · rw [hk]
    simp [Kernel.receipt, Kernel.returnValue, Kernel.modifyPcb]
  · rw [hk]
    simp [Kernel.returnValue, Kernel.modifyPcb]
  · refine h.handed_eq hinv.steady.coherent hmode (by simp [hmode']) (kept_of_others hothers ?_ p)
      (by rw [hk]; rfl) Iff.rfl
    rw [hk]
    constructor <;> simp [Kernel.returnValue, Kernel.modifyPcb]
  · rw [Account.update]
    simp [halloc]

theorem born (h : ReapInv hw t k s f) (hpid : ∀ n, hw.newPid n ≠ ERROR) {u : UserContext} {child : PcbPtr}
    {m : Memory} {pt stack : Nat → Pte} {family : Heap PcbPtr PcbPtr} {q : Heap QueueId PcbPtr}
    (hmode : k.mode = .user) (hfresh : k.allocated child = false) (hno : ∀ p, child ∉ f p)
    (hk : k' = forked hw { k with uctxt := u } child m pt stack family q)
    (hinv : FamilyInv k' (Function.update s .ready (s .ready ++ [child]))
      (Function.update f k.current_process (f k.current_process ++ [child])))
    (hcells : CellInv k' (Function.update s .ready (s .ready ++ [child])))
    (hstep : (trapMachine hw).step k (.kernel u (.fork child)) = some k') :
    ReapInv hw (t ++ [(k, .kernel u (.fork child))]) k' (Function.update s .ready (s .ready ++ [child]))
      (Function.update f k.current_process (f k.current_process ++ [child])) := by
  have hpcb : ∀ p, p ≠ child → k'.pcb p = k.pcb p := fun p hp => by rw [hk]; simp [forked, hp]
  have halloc : k'.allocated = Function.update k.allocated child true := by rw [hk]; rfl
  have hsame : ∀ c, c ≠ child → SameChild k k' c := fun c hc =>
    ⟨by rw [Kernel.receipt, hpcb c hc]; rfl, by rw [halloc, Function.update_of_ne hc], by rw [hpcb c hc]⟩
  have hold : ∀ p c, c ∈ f p → SameChild k k' c := fun p c hc => hsame c fun e => hno p (e ▸ hc)
  have hstate : (k'.pcb child).state = .processReady := by rw [hk]; simp [forked]
  have hreceipt : (k'.receipt child).1 = hw.newPid k.pidCalls := by
    rw [hk]
    simp [Kernel.receipt, forked, createPcb]
  have hne := ne_of_free hfresh (h.family.allocated_current hmode)
  have hnil : f child = [] := List.eq_nil_iff_forall_not_mem.2 fun c hc => by
    have hlive := (h.family.living child c hc).2.1
    rw [hfresh] at hlive
    cases hlive
  have hchild : k'.handed child = [] := handed_nil fun n hw => by
    obtain ⟨status_ptr, hcontext⟩ := hw
    rw [hk] at hcontext
    simp [forked] at hcontext
  refine ⟨hinv, hcells, fun p hp c hc hz => ?_, fun p c hc hz => ?_, fun p c hc => ?_, fun p hp => ?_⟩
  · rcases mem_update_append.1 hc with hc | ⟨-, rfl⟩
    · exact h.quiet p (by simpa using hp) c hc ((hold p c hc).zombie.1 hz)
    · rw [hstate] at hz
      cases hz
  · rcases mem_update_append.1 hc with hc | ⟨-, rfl⟩
    · exact (hold p c hc).allocated.trans (h.freed p c hc ((hold p c hc).zombie.1 hz))
    · rw [halloc, Function.update_self]
  · rcases mem_update_append.1 hc with hc | ⟨-, rfl⟩
    · rw [(hold p c hc).receipt]
      exact h.pids p c hc
    · rw [hreceipt]
      exact hpid _
  · rw [account_snoc hstep, Account.update]
    simp only [halloc, Function.update_self, hfresh, Bool.true_eq_false, ↓reduceIte]
    by_cases e : child = p
    · subst e
      rw [if_pos rfl]
      have hf : Function.update f k.current_process (f k.current_process ++ [child]) child = [] := by
        rw [Function.update_of_ne hne, hnil]
      exact ⟨by simp [hf, Account.new], by simp [hf, Account.new], [], by simp [Account.new], by simp [hf, hchild]⟩
    · have hpne : p ≠ child := fun e' => e e'.symm
      have hlives : k.Lives p := ⟨(hsame p hpne).allocated ▸ hp.1, fun hz => hp.2 ((hsame p hpne).zombie.2 hz)⟩
      have hhanded : k'.handed p = k.handed p := by
        refine h.handed_eq hinv.steady.coherent hmode (by rw [hk]; simp [forked, createPcb, hmode]) (.of_eq (hpcb p hpne))
          (by rw [hk]; rfl) ?_
        simp [hpne]
      rw [if_neg e]
      split
      · rename_i hcur
        subst hcur
        refine (h.accounts _ hlives).bears (by simp) rfl ?_ (hold _) hhanded
        rw [gone, halloc, Function.update_self, hstate]
        rfl
      · rename_i hcur
        exact (h.accounts p hlives).keeps (by rw [Function.update_of_ne fun e' => hcur e'.symm]) (hold p) hhanded

/-- The caller is delayed or blocked. -/
theorem suspends (h : ReapInv hw t k s f) {u : UserContext} {c : Syscall} {l : QueueId}
    (hl : l ≠ .ready) (hmode : k.mode = .user) (hmode' : ∃ caller, k'.mode = .atSchedule caller)
    (hothers : ∀ n, n ≠ k.current_process → k'.pcb n = k.pcb n) (halloc : k'.allocated = k.allocated)
    (hstatus : k'.kstatus = k.kstatus)
    (hreceipt : k'.receipt k.current_process = k.receipt k.current_process)
    (hstate : (k'.pcb k.current_process).state ≠ .processZombie)
    (hquiet : l = .blocked → ∀ c ∈ f k.current_process, (k.pcb c).state ≠ .processZombie)
    (hinv : FamilyInv k' (Function.update s l (s l ++ [k.current_process])) f)
    (hcells : CellInv k' (Function.update s l (s l ++ [k.current_process])))
    (hstep : (trapMachine hw).step k (.kernel u c) = some k')
    (hupdate : ∀ p A, Account.update p k k' (.kernel u c) A = A) :
    ReapInv hw (t ++ [(k, .kernel u c)]) k' (Function.update s l (s l ++ [k.current_process])) f := by
  obtain ⟨caller, hmode'⟩ := hmode'
  have hsame : ∀ c, SameChild k k' c := sameChild_of_others hothers halloc hreceipt
    (iff_of_false hstate (notZombie h.family hmode))
  have hhanded : ∀ p, k'.handed p = k.handed p := by
    intro p
    by_cases e : p = k.current_process
    · subst e
      rw [h.handed_current hmode]
      refine handed_nil fun _ _ hr => ?_
      rcases hr with hr | ⟨hr, -⟩
      · rw [hinv.steady.coherent.queue_eq, Function.update_of_ne hl.symm] at hr
        exact h.cells.ready hr
      · rw [hmode'] at hr
        cases hr
    · exact h.handed_eq hinv.steady.coherent hmode (by simp [hmode']) (.of_eq (hothers p e)) hstatus
        (by rw [Function.update_of_ne hl.symm])
  refine ⟨hinv, hcells, fun p hp c hc hz => ?_, fun p c hc hz => ?_, fun p c hc => ?_, fun p hp => ?_⟩
  · have hz := (hsame c).zombie.1 hz
    rcases mem_update_append.1 hp with hp | ⟨e, rfl⟩
    · exact h.quiet p hp c hc hz
    · exact hquiet e.symm c hc hz
  · exact (hsame c).allocated.trans (h.freed p c hc ((hsame c).zombie.1 hz))
  · rw [(hsame c).receipt]
    exact h.pids p c hc
  · have hlives : k.Lives p := ⟨(hsame p).allocated ▸ hp.1, fun hz => hp.2 ((hsame p).zombie.2 hz)⟩
    rw [account_snoc hstep, hupdate]
    exact (h.accounts p hlives).keeps rfl (fun c _ => hsame c) (hhanded p)

theorem reaps (h : ReapInv hw t k s f) {u : UserContext} {kstatus_ptr : Int} {z : PcbPtr}
    {q : Heap QueueId PcbPtr} (hmode : k.mode = .user) (hz : z ∈ f k.current_process)
    (hzombie : z ∈ s .zombie) (hk : k' = reaped { k with uctxt := u } z q)
    (hinv : FamilyInv k' (Function.update s .zombie ((s .zombie).erase z)) f)
    (hcells : CellInv k' (Function.update s .zombie ((s .zombie).erase z)))
    (hstep : (trapMachine hw).step k (.kernel u (.wait kstatus_ptr)) = some k') :
    ReapInv hw (t ++ [(k, .kernel u (.wait kstatus_ptr))]) k'
      (Function.update s .zombie ((s .zombie).erase z)) f := by
  have hc := h.family.steady.coherent
  have hstate : (k.pcb z).state = .processZombie := hc.listed _ _ hzombie
  have hpcb : ∀ p, p ≠ z → k'.pcb p = k.pcb p := fun p hp => by rw [hk]; simp [reaped, hp]
  have halloc : k'.allocated = Function.update k.allocated z false := by rw [hk]; rfl
  have hsame : ∀ c, c ≠ z → SameChild k k' c := fun c hc =>
    ⟨by rw [Kernel.receipt, hpcb c hc]; rfl, by rw [halloc, Function.update_of_ne hc], by rw [hpcb c hc]⟩
  have hreceipt : k'.receipt z = k.receipt z := by rw [hk]; simp [Kernel.receipt, reaped]
  have hstate' : (k'.pcb z).state = .processDefault := by rw [hk]; simp [reaped]
  have hkept : ∀ p, (k.pcb p).Kept (k'.pcb p) := kept_of_others hpcb (by
    rw [hk]
    constructor <;> simp [reaped])
  have hhanded : ∀ p, k'.handed p = k.handed p := fun p =>
    h.handed_eq hinv.steady.coherent hmode (by rw [hk]; simp [reaped, hmode]) (hkept p) (by rw [hk]; rfl)
      (by simp)
  have hold : ∀ c, (k'.pcb c).state = .processZombie → c ≠ z ∧ (k.pcb c).state = .processZombie := by
    intro c hcz
    have hne : c ≠ z := by
      rintro rfl
      rw [hstate'] at hcz
      cases hcz
    exact ⟨hne, (hsame c hne).zombie.1 hcz⟩
  refine ⟨hinv, hcells, fun p hp c hc hcz => ?_, fun p c hc hcz => ?_, fun p c hc => ?_, fun p hp => ?_⟩
  · exact h.quiet p (by simpa using hp) c hc (hold c hcz).2
  · obtain ⟨hne, hcz⟩ := hold c hcz
    exact (hsame c hne).allocated.trans (h.freed p c hc hcz)
  · by_cases e : c = z
    · subst e
      rw [hreceipt]
      exact h.pids p c hc
    · rw [(hsame c e).receipt]
      exact h.pids p c hc
  · have hpz : p ≠ z := by
      rintro rfl
      have hthere := hp.1
      simp [halloc] at hthere
    have hlives : k.Lives p := ⟨(hsame p hpz).allocated ▸ hp.1, fun hn => hp.2 ((hsame p hpz).zombie.2 hn)⟩
    rw [account_snoc hstep, Account.update]
    have hregs : k'.uctxt.regs 0 = (k.receipt z).1 := by rw [hk]; simp [reaped, Kernel.receipt]
    have hmode' : k'.mode = .user := by rw [hk]; exact hmode
    have hpid := h.pids _ z hz
    simp only [hregs, hmode', ne_eq, hpid, not_false_eq_true, and_true]
    split
    · rename_i e
      subst e
      refine (h.accounts _ hlives).collects (h.family.family.nodup _) rfl hz (h.freed _ z hz hstate) ?_ ?_
        hreceipt (fun x _ hx => hsame x hx) (h.handed_current hmode) ?_ ⟨?_, fun hsp => ?_⟩
      · simp [gone, hstate]
      · simp [halloc]
      · rw [hhanded, h.handed_current hmode]
      · rw [hregs, hreceipt]
      · have hsp : u.regs 0 ≠ 0 := hsp
        rw [hreceipt, hk]
        simp [reaped, hsp, Kernel.receipt]
    · rename_i e
      have hother : ∀ c ∈ f p, c ≠ z := by
        rintro c hc rfl
        exact e (h.family.family.disjoint hz hc)
      exact (h.accounts p hlives).keeps rfl (fun c hc => hsame c (hother c hc)) (hhanded p)

/-- The caller exits: only the account of its parent changes. -/
theorem exits (h : ReapInv hw t k s f) {u : UserContext} (hmode : k.mode = .user) (hgives : GivesUp k f k₁)
    (hothers : ∀ c, c ≠ k.current_process → k'.receipt c = k.receipt c ∧
      ((k'.pcb c).state = .processZombie ↔ (k.pcb c).state = .processZombie))
    (halloc : ∀ c, c ≠ k.current_process → k'.allocated c = k₁.allocated c)
    (hpid : (k'.receipt k.current_process).1 = (k.receipt k.current_process).1)
    (hblocked : ∀ p ∈ s' .blocked, p ∈ s .blocked ∧ (k.pcb k.current_process).parent ≠ some p)
    (hdead : ¬ k'.Lives k.current_process)
    (hfreed : (k'.pcb k.current_process).state = .processZombie → k'.allocated k.current_process = true)
    (hhanded : ∀ p, p ≠ k.current_process → (k.pcb k.current_process).parent ≠ some p →
      k'.handed p = k.handed p)
    (hparent : ∀ p A, (k.pcb k.current_process).parent = some p → k.current_process ∈ f p →
      (∀ c ∈ f p, c ≠ k.current_process → SameChild k k' c) → AccountInv A k f p →
      AccountInv { A with exits := A.exits ++ [((k.pcb k.current_process).pid, u.regs 0)] } k'
        (Function.update f k.current_process []) p)
    (hinv : FamilyInv k' s' (Function.update f k.current_process [])) (hcells : CellInv k' s')
    (hstep : (trapMachine hw).step k (.kernel u .exit) = some k') :
    ReapInv hw (t ++ [(k, .kernel u .exit)]) k' s' (Function.update f k.current_process []) := by
  have hlive := h.family.allocated_current hmode
  -- a child of another process is not touched
  have hsame : ∀ p c, p ≠ k.current_process → c ∈ f p → c ≠ k.current_process → SameChild k k' c := by
    intro p c hp hc hne
    have hnot : c ∉ f k.current_process := fun hn => hp (h.family.family.disjoint hc hn)
    refine ⟨(hothers c hne).1, ?_, (hothers c hne).2⟩
    rw [halloc c hne, Bool.eq_iff_iff, hgives.allocated c]
    exact ⟨fun hn => hn.1, fun hn => ⟨hn, fun hno => hnot hno.1⟩⟩
  have hmem : ∀ p c, c ∈ Function.update f k.current_process [] p → p ≠ k.current_process ∧ c ∈ f p := by
    intro p c hc
    rw [Function.update_apply] at hc
    split at hc
    · cases hc
    · rename_i hne
      exact ⟨hne, hc⟩
  refine ⟨hinv, hcells, fun p hp c hc hz => ?_, fun p c hc hz => ?_, fun p c hc => ?_, fun p hp => ?_⟩
  · obtain ⟨hne, hc⟩ := hmem p c hc
    obtain ⟨hp, hpar⟩ := hblocked p hp
    have hcur : c ≠ k.current_process := by
      rintro rfl
      exact hpar ((h.family.kin _ p hlive).2 hc)
    exact h.quiet p hp c hc ((hothers c hcur).2.1 hz)
  · obtain ⟨hne, hc⟩ := hmem p c hc
    by_cases e : c = k.current_process
    · subst e
      exact hfreed hz
    · exact (hsame p c hne hc e).allocated.trans (h.freed p c hc ((hothers c e).2.1 hz))
  · obtain ⟨hne, hc⟩ := hmem p c hc
    by_cases e : c = k.current_process
    · subst e
      rw [hpid]
      exact h.pids p _ hc
    · rw [(hothers c e).1]
      exact h.pids p c hc
  · have hne : p ≠ k.current_process := by
      rintro rfl
      exact hdead hp
    have hlives : k.Lives p := by
      have hthere := hp.1
      rw [halloc p hne] at hthere
      exact ⟨((hgives.allocated p).1 hthere).1, fun hz => hp.2 ((hothers p hne).2.2 hz)⟩
    rw [account_snoc hstep, Account.update]
    split
    · rename_i hpar
      exact hparent p _ hpar ((h.family.kin _ p hlive).1 hpar) (fun c hc => hsame p c hne hc)
        (h.accounts p hlives)
    · rename_i hpar
      refine (h.accounts p hlives).keeps (by rw [Function.update_of_ne hne]) (fun c hc => ?_) (hhanded p hne hpar)
      refine hsame p c hne hc fun e => ?_
      subst e
      exact hpar ((h.family.kin _ p hlive).2 hc)

/-- What `releaseProcess` does to the others. -/
theorem released_others {u : UserContext} (hrel : Released hw { k with uctxt := u } (u.regs 0) k₁)
    (hne : c ≠ k.current_process) : k₁.receipt c = k.receipt c ∧ (k₁.pcb c).state = (k.pcb c).state := by
  rcases hrel.other c hne with hpcb | hpcb
  · rw [Kernel.receipt, hpcb]
    exact ⟨rfl, rfl⟩
  · rw [Kernel.receipt, hpcb]
    exact ⟨rfl, rfl⟩

theorem released_current {u : UserContext} (hrel : Released hw { k with uctxt := u } (u.regs 0) k₁) :
    k₁.receipt k.current_process = ((k.pcb k.current_process).pid, u.regs 0) ∧
      (k₁.pcb k.current_process).state = .processDefault := by
  obtain ⟨parent, -, hpcb⟩ := hrel.current
  have hpcb : k₁.pcb k.current_process = _ := hpcb
  rw [Kernel.receipt, hpcb]
  exact ⟨rfl, rfl⟩

theorem dies (h : ReapInv hw t k s f) {u : UserContext} {q : Heap QueueId PcbPtr} (hmode : k.mode = .user)
    (hrel : Released hw { k with uctxt := u } (u.regs 0) k₁) (hgives : GivesUp k f k₁)
    (hparent : ∀ parent, (k.pcb k.current_process).parent = some parent →
      (k.pcb parent).waiting_for_children = 0)
    (hk : k' = ({ k₁.setState k.current_process .processZombie with queues := q } : Kernel).callSchedule
      .sysExit)
    (hinv : FamilyInv k' (Function.update s .zombie (s .zombie ++ [k.current_process]))
      (Function.update f k.current_process []))
    (hcells : CellInv k' (Function.update s .zombie (s .zombie ++ [k.current_process])))
    (hstep : (trapMachine hw).step k (.kernel u .exit) = some k') :
    ReapInv hw (t ++ [(k, .kernel u .exit)]) k'
      (Function.update s .zombie (s .zombie ++ [k.current_process]))
      (Function.update f k.current_process []) := by
  have hpcb : ∀ p, p ≠ k.current_process → k'.pcb p = k₁.pcb p := fun p hp => by
    rw [hk]
    simp [Kernel.callSchedule, Kernel.setState, Kernel.modifyPcb, hp]
  have hreceipt : k'.receipt k.current_process = ((k.pcb k.current_process).pid, u.regs 0) := by
    rw [← (released_current hrel).1, hk]
    simp [Kernel.receipt, Kernel.callSchedule, Kernel.setState, Kernel.modifyPcb]
  have hstate : (k'.pcb k.current_process).state = .processZombie := by
    rw [hk]
    simp [Kernel.callSchedule, Kernel.setState, Kernel.modifyPcb]
  have halloc : k'.allocated = k₁.allocated := by rw [hk]; rfl
  have hthere : k₁.allocated k.current_process = true :=
    (hgives.allocated _).2 ⟨h.family.allocated_current hmode, fun hn => h.family.self_notMem hn.1⟩
  have hhanded : ∀ p, p ≠ k.current_process → k'.handed p = k.handed p := by
    intro p hp
    refine h.handed_eq hinv.steady.coherent hmode (by rw [hk]; simp [Kernel.callSchedule]) ?_
      (by rw [hk]; show k₁.kstatus = k.kstatus; rw [hrel.frame]) (by simp)
    exact (hrel.kept p).trans (.of_eq (hpcb p hp))
  refine h.exits hmode hgives (fun c hc => ?_) (fun c _ => by rw [halloc]) (by rw [hreceipt]; rfl)
    (fun p hp => ⟨by simpa using hp, fun hpar => ?_⟩) (fun hn => hn.2 hstate) (fun _ => by rw [halloc, hthere])
    (fun p hp _ => hhanded p hp) (fun p A hpar hc hsame hA => ?_) hinv hcells hstep
  · obtain ⟨hr, hst⟩ := released_others hrel hc
    exact ⟨by rw [← hr, Kernel.receipt, hpcb c hc]; rfl, by rw [hpcb c hc, hst]⟩
  · exact (h.cells.blocked p (by simpa using hp)).1 (hparent p hpar)
  · have hne : p ≠ k.current_process := fun e => (h.family.living p _ hc).1 e
    rw [← hreceipt]
    refine hA.loses (h.family.family.nodup p) (by rw [Function.update_of_ne hne]) hc ?_ ?_ ?_ ?_ hsame
      (hhanded p hne)
    · simp [gone, h.family.allocated_current hmode, notZombie h.family hmode]
    · simp [gone, hstate]
    · rw [halloc, hthere, h.family.allocated_current hmode]
    · rw [hreceipt]
      rfl

theorem notifies (h : ReapInv hw t k s f) {u : UserContext} {q : Heap QueueId PcbPtr} {parent : PcbPtr}
    (hmode : k.mode = .user) (hrel : Released hw { k with uctxt := u } (u.regs 0) k₁)
    (hgives : GivesUp k f k₁) (hne : parent ≠ k.current_process)
    (hparent : (k.pcb k.current_process).parent = some parent) (hblocked : parent ∈ s .blocked)
    (hk : k' = (notified k₁ k.current_process parent (u.regs 0) .processReady q).callSchedule .sysExit)
    (hs : s' = Function.update (Function.update s .blocked ((s .blocked).erase parent)) .ready
      (s .ready ++ [parent]))
    (hinv : FamilyInv k' s' (Function.update f k.current_process [])) (hcells : CellInv k' s')
    (hstep : (trapMachine hw).step k (.kernel u .exit) = some k') :
    ReapInv hw (t ++ [(k, .kernel u .exit)]) k' s' (Function.update f k.current_process []) := by
  have hc := h.family.steady.coherent
  have hpcb : ∀ p, p ≠ parent → k'.pcb p = k₁.pcb p := fun p hp => by
    rw [hk]
    simp [Kernel.callSchedule, notified, hp]
  have halloc : k'.allocated = Function.update k₁.allocated k.current_process false := by rw [hk]; rfl
  have hgone : k'.allocated k.current_process = false := by rw [halloc, Function.update_self]
  have hreceipt : k'.receipt k.current_process = ((k.pcb k.current_process).pid, u.regs 0) := by
    rw [Kernel.receipt, hpcb _ hne.symm]
    exact (released_current hrel).1
  have hpid : (k₁.pcb k.current_process).pid = (k.pcb k.current_process).pid := (hrel.kept _).pid
  have hready : s' .ready = s .ready ++ [parent] := by rw [hs]; simp
  -- the parent waits with a cell of its own, whose address is in its saved context
  obtain ⟨-, n, hn, hcase⟩ := h.cells.blocked parent hblocked
  obtain ⟨-, hwaits, hregs⟩ := hcase.resolve_left fun hno => hne hno.1
  have hregs₁ : (k₁.pcb parent).user_context.regs 0 = n := by
    rw [(hrel.kept parent).saved]
    exact hregs
  have hstatus : k'.kstatus = Function.update k.kstatus n (u.regs 0) := by
    rw [hk]
    show (if (k₁.pcb parent).user_context.regs 0 ≠ 0 then
      Function.update k₁.kstatus ((k₁.pcb parent).user_context.regs 0) (u.regs 0) else k₁.kstatus) = _
    rw [hregs₁, if_pos hn, hrel.frame]
  have hwaits' : WaitsWith k' parent n := by
    obtain ⟨status_ptr, hcontext⟩ := hwaits
    refine ⟨status_ptr, ?_⟩
    rw [hk]
    simpa [Kernel.callSchedule, notified] using ((hrel.kept parent).context).trans hcontext
  have hnil : k.handed parent = [] := handed_nil fun _ _ hr => by
    rcases hr with hr | ⟨hr, -⟩
    · rw [h.queue_eq] at hr
      cases hc.unique hr hblocked
    · rw [hmode] at hr
      cases hr
  have hhanded : k'.handed parent = [k'.receipt k.current_process] := by
    rw [handed_of_returning hwaits' (Or.inl (by rw [hinv.steady.coherent.queue_eq, hready]; simp)), hreceipt,
      hstatus, Function.update_self, hk]
    simp [Kernel.saved, Kernel.callSchedule, notified, hpid]
  have hothers : ∀ p, p ≠ k.current_process → p ≠ parent → k'.handed p = k.handed p := by
    intro p hp hpp
    refine handed_congr ((hrel.kept p).trans (.of_eq (hpcb p hpp))) (fun m hw hr => ?_) fun _ _ => ?_
    · -- its cell is another one
      have hpr : p ∈ s .ready := by
        rcases hr with hr | ⟨hr, -⟩
        · rwa [h.queue_eq] at hr
        · rw [hmode] at hr
          cases hr
      rw [hstatus, Function.update_of_ne]
      rintro rfl
      exact hpp (h.cells.distinct p parent m (.waits hw hp (Or.inr hpr)) (.waits hwaits hne (Or.inl hblocked)))
    · refine returning_iff (by simp [hmode]) (by rw [hk]; simp [Kernel.callSchedule]) ?_
      rw [h.queue_eq, hinv.steady.coherent.queue_eq, hready, List.mem_append, List.mem_singleton]
      simp [hpp]
  refine h.exits hmode hgives (fun c hc' => ?_) (fun c hc' => by rw [halloc, Function.update_of_ne hc'])
    (by rw [hreceipt]; rfl) (fun p hp => ?_) (fun hno => ?_) (fun hz => ?_) (fun p hp hpar => ?_)
    (fun p A hpar hc hsame hA => ?_) hinv hcells hstep
  · obtain ⟨hr, hst⟩ := released_others hrel hc'
    by_cases e : c = parent
    · subst e
      have hblock : (k.pcb c).state = .processBlocked := hc.listed _ _ hblocked
      have hst' : (k'.pcb c).state = .processReady := by rw [hk]; simp [Kernel.callSchedule, notified]
      rw [← hr, hst', hblock, hk]
      exact ⟨by simp [Kernel.receipt, Kernel.callSchedule, notified], by simp⟩
    · exact ⟨by rw [← hr, Kernel.receipt, hpcb c e]; rfl, by rw [hpcb c e, hst]⟩
  · have hp : p ∈ (s .blocked).erase parent := by
      rw [hs] at hp
      simpa using hp
    obtain ⟨hpp, hp⟩ := (hc.rep.nodup .blocked).mem_erase_iff.1 hp
    refine ⟨hp, fun hpar => hpp ?_⟩
    exact (Option.some.inj (hparent.symm.trans hpar)).symm
  · have hthere := hno.1
    rw [hgone] at hthere
    cases hthere
  · rw [hpcb _ hne.symm, (released_current hrel).2] at hz
    cases hz
  · exact hothers p hp fun e => hpar (e ▸ hparent)
  · obtain rfl := Option.some.inj (hparent.symm.trans hpar)
    rw [← hreceipt]
    refine hA.hands (h.family.family.nodup _) (by rw [Function.update_of_ne hne]) hc ?_ hgone ?_ hsame hnil
      hhanded
    · simp [gone, h.family.allocated_current hmode, notZombie h.family hmode]
    · rw [hreceipt]
      rfl

theorem clock (h : ReapInv hw t k s f) {u : UserContext} (hmode : k.mode = .user)
    (hcase : ClockCase { k with uctxt := u } s k') (hinv : FamilyInv k' (tickedLists k s (s .delay) []) f)
    (hcells : CellInv k' (tickedLists k s (s .delay) []))
    (hstep : (trapMachine hw).step k (.clock u) = some k') :
    ReapInv hw (t ++ [(k, .clock u)]) k' (tickedLists k s (s .delay) []) f := by
  have hc := h.family.steady.coherent
  have hframe := hcase.frame
  have hkept : ∀ p, (k.pcb p).Kept (k'.pcb p) := by
    intro p
    obtain ⟨ticks, st, time, hpcb⟩ := hcase.pcb p
    rw [hpcb]
    exact ⟨rfl, rfl, rfl, rfl⟩
  have hmode' : k'.mode ≠ .resumed := by
    cases hcase with
    | goesOn heq =>
      rw [heq]
      show k.mode ≠ .resumed
      simp [hmode]
    | preempts heq => simp [heq, Kernel.callSchedule]
  have hzombie : ∀ c, (k'.pcb c).state = .processZombie ↔ (k.pcb c).state = .processZombie := by
    intro c
    have hlist : c ∈ tickedLists k s (s .delay) [] .zombie ↔ c ∈ s .zombie := by simp [tickedLists]
    constructor
    · exact fun hz => hc.listed .zombie c
        (hlist.1 (hinv.steady.coherent.mem_of_state (Or.inr (Or.inr rfl)) hz))
    · exact fun hz => hinv.steady.coherent.listed .zombie c
        (hlist.2 (hc.mem_of_state (Or.inr (Or.inr rfl)) hz))
  refine h.keeps hinv hcells hstep (fun p hp => by simpa [tickedLists] using hp) (fun c => ?_) (fun p => ?_)
    fun _ _ => rfl
  · refine ⟨?_, by rw [hframe], hzombie c⟩
    obtain ⟨ticks, st, time, hpcb⟩ := hcase.pcb c
    rw [Kernel.receipt, hpcb]
    rfl
  · refine handed_congr (hkept p) (fun _ _ _ => by rw [hframe]) fun n hw => ?_
    refine returning_iff (by simp [hmode]) hmode' ?_
    rw [h.queue_eq, hinv.steady.coherent.queue_eq]
    simp only [tickedLists, Function.update_self, List.mem_append]
    refine or_iff_left fun hp => ?_
    -- a delayed process is not in `SysWait`
    have hp := List.mem_of_mem_filter hp
    exact h.cells.delay p hp (fun e => h.family.off hmode _ (e ▸ hp)) n hw

theorem schedule (h : ReapInv hw t k s f) {caller : ScheduleCaller} {next : PcbPtr}
    {q : Heap QueueId PcbPtr} (hmode : k.mode = .atSchedule caller) (hnext : Next k s next s')
    (hk : k' = switched hw k caller next q) (hinv : FamilyInv k' s' f) (hcells : CellInv k' s')
    (hstep : (trapMachine hw).step k .schedule = some k') :
    ReapInv hw (t ++ [(k, .schedule)]) k' s' f := by
  have hcurrent : k'.current_process = next := by rw [hk]; rfl
  have hidle : k'.idle_process = k.idle_process := by rw [hk]; rfl
  have hmode' : k'.mode = .resumed := by rw [hk]; rfl
  -- who goes on is either a ready process or the idle process
  have hready : ∀ p, p ≠ k.idle_process → (p ∈ s' .ready ∨ next = p ↔ p ∈ s .ready) := by
    intro p hp
    cases hnext with
    | idle => exact or_iff_left fun e => hp e.symm
    | ready hs =>
      rw [hs, Function.update_self, List.mem_cons, or_comm, eq_comm]
  have hreturning : ∀ p, p ≠ k.idle_process → (Returning k' p ↔ Returning k p) := by
    intro p hp
    unfold Returning
    rw [hinv.steady.coherent.queue_eq, h.queue_eq, hmode', hcurrent, hmode]
    simpa using hready p hp
  have hblocked : ∀ p ∈ s' .blocked, p ∈ s .blocked := by
    intro p hp
    cases hnext with
    | idle => exact hp
    | ready => simpa using hp
  refine h.keeps hinv hcells hstep hblocked (fun c => ⟨?_, by rw [hk]; rfl, ?_⟩) (fun p => ?_) fun _ _ => rfl
  · rw [hk]
    simp [Kernel.receipt, switched, switchedPcb]
  · rw [hk]
    show (if c = next then ProcessState.processRunning else (k.pcb c).state) = _ ↔ _
    split
    · rename_i e
      refine iff_of_false (by simp) fun hz => ?_
      subst e
      have hzombie := h.family.steady.coherent.mem_of_state (Or.inr (Or.inr rfl)) hz
      cases hnext with
      | idle => exact h.family.steady.coherent.idle _ hzombie
      | ready hs => cases h.family.steady.coherent.unique hzombie (by rw [hs]; exact List.mem_cons_self)
    · exact Iff.rfl
  · by_cases hp : p = k.idle_process
    · subst hp
      rw [handed_nil fun n hw => absurd hw (h.cells.idle n),
        handed_nil fun n hw => absurd (hidle ▸ hw) (hcells.idle n)]
    · by_cases e : p = k.current_process
      · subst e
        have hno : ¬ Returning k k.current_process := by
          rintro (hr | ⟨hr, -⟩)
          · rw [h.queue_eq] at hr
            exact h.cells.ready hr
          · rw [hmode] at hr
            cases hr
        rw [handed_nil fun _ _ => hno, handed_nil fun _ _ hr => hno ((hreturning _ hp).1 hr)]
      · refine handed_congr ?_ (fun _ _ _ => by rw [hk]; rfl) fun _ _ => hreturning p hp
        rw [hk]
        constructor <;> simp [switched, switchedPcb, e]

theorem resume (h : ReapInv hw t k s f) (hmode : k.mode = .resumed)
    (hresume : Yalnix.resume k = some k')
    (heq : k' = { k with
      mem := { k.mem with ptbr1 := k'.mem.ptbr1 }
      uctxt := k'.uctxt
      kbufFreed := k'.kbufFreed
      userStores := k'.userStores
      kstatusAllocated := k'.kstatusAllocated
      mode := .user }) (hinv : FamilyInv k' s f) (hcells : CellInv k' s)
    (hstep : (trapMachine hw).step k .resume = some k') : ReapInv hw (t ++ [(k, .resume)]) k' s f := by
  have hpcb : k'.pcb = k.pcb := by rw [heq]
  have halloc : k'.allocated = k.allocated := by rw [heq]
  have hmode' : k'.mode = .user := by rw [heq]
  have hsame : ∀ c, SameChild k k' c := fun c =>
    ⟨by rw [Kernel.receipt, hpcb]; rfl, by rw [halloc], by rw [hpcb]⟩
  have hother : ∀ p, p ≠ k.current_process → k'.handed p = k.handed p := by
    intro p hp
    refine handed_congr (.of_eq (by rw [hpcb])) (fun _ _ _ => by rw [heq]) fun _ _ => ?_
    unfold Returning
    rw [h.queue_eq, hinv.steady.coherent.queue_eq, hmode', hmode]
    simp [hp.symm]
  have hnil : k'.handed k.current_process = [] := by
    refine handed_nil fun _ _ hr => ?_
    rcases hr with hr | ⟨hr, -⟩
    · rw [hinv.steady.coherent.queue_eq] at hr
      exact h.cells.ready hr
    · rw [hmode'] at hr
      cases hr
  by_cases hctx : ∃ n, WaitsWith k k.current_process n
  · obtain ⟨n, status_ptr, hcontext⟩ := hctx
    obtain ⟨hsp, hk⟩ := resume_wait hcontext hresume
    refine ⟨hinv, hcells, fun p hp c hc hz => h.quiet p hp c hc ((hsame c).zombie.1 hz),
      fun p c hc hz => (hsame c).allocated.trans (h.freed p c hc ((hsame c).zombie.1 hz)),
      fun p c hc => by rw [(hsame c).receipt]; exact h.pids p c hc, fun p hp => ?_⟩
    have hlives : k.Lives p := ⟨(hsame p).allocated ▸ hp.1, fun hz => hp.2 ((hsame p).zombie.2 hz)⟩
    rw [account_snoc hstep, Account.update]
    simp only [hcontext]
    split
    · rename_i e
      subst e
      have hhanded := handed_of_returning ⟨status_ptr, hcontext⟩
        (Or.inr ⟨hmode, rfl⟩ : Returning k k.current_process)
      refine (h.accounts _ hlives).returned rfl (fun c _ => hsame c) hhanded hnil ⟨?_, fun _ => ?_⟩
      · show k'.uctxt.regs 0 = (k.saved k.current_process).regs 0
        rw [← h.cells.resumed hmode _ hcontext, hk]
      · show k'.userStores.drop k.userStores.length = _
        rw [hk]
        simp
    · rename_i e
      exact (h.accounts p hlives).keeps rfl (fun c _ => hsame c) (hother p fun hp => e hp.symm)
  · refine h.keeps hinv hcells hstep (fun p => id) hsame (fun p => ?_) fun p A => ?_
    · by_cases e : p = k.current_process
      · subst e
        rw [hnil, handed_nil fun n hw _ => hctx ⟨n, hw⟩]
      · exact hother p e
    · rw [Account.update]
      split
      · rename_i status_ptr n hcontext
        exact absurd ⟨n, status_ptr, hcontext⟩ hctx
      · rfl

/-- A step of the cases keeps the accounts. -/
theorem step (h : ReapInv hw t k s f) (hpid : ∀ n, hw.newPid n ≠ ERROR)
    (hcase : FamilyCase hw k s f e k' s' f') (hinv : FamilyInv k' s' f') (hcells : CellInv k' s')
    (hstep : (trapMachine hw).step k e = some k') : ReapInv hw (t ++ [(k, e)]) k' s' f' := by
  cases hcase with
  | again hmode => exact h.again hmode rfl hinv hcells hstep
  | born hmode hfresh hoff hno => exact h.born hpid hmode hfresh hno rfl hinv hcells hstep
  | quick hmode v =>
    exact h.keeps hinv hcells hstep (fun p => id) (fun c => ⟨rfl, rfl, Iff.rfl⟩)
      (fun p => h.handed_eq hinv.steady.coherent hmode (by simp [Kernel.returnValue, hmode]) (.of_eq rfl) rfl
        Iff.rfl) fun _ _ => rfl
  | @delays u q hmode =>
    exact h.suspends (by simp) hmode ⟨_, rfl⟩ (fun n hn => by simp [delaying, hn]) rfl rfl
      (by simp [Kernel.receipt, delaying]) (by simp [delaying]) (by simp) hinv hcells hstep fun _ _ => rfl
  | refused hmode hnone =>
    refine h.keeps hinv hcells hstep (fun p => id) (fun c => ⟨rfl, rfl, Iff.rfl⟩)
      (fun p => h.handed_eq hinv.steady.coherent hmode (by simp [Kernel.returnValue, hmode]) (.of_eq rfl) rfl
        Iff.rfl) fun p A => ?_
    rw [Account.update]
    simp [Kernel.returnValue]
  | @waits u kstatus_ptr q hmode hnidle hfresh hsome hnone =>
    refine h.suspends (by simp) hmode ⟨_, rfl⟩ (fun n hn => by simp [waitingForChild, hn]) rfl rfl
      (by simp [Kernel.receipt, waitingForChild]) (by simp [waitingForChild]) (fun _ => hnone) hinv hcells hstep
      fun p A => ?_
    rw [Account.update]
    simp [waitingForChild]
  | reaps hmode hz hzombie => exact h.reaps hmode hz hzombie rfl hinv hcells hstep
  | dies hmode hrel hgives hparent => exact h.dies hmode hrel hgives hparent rfl hinv hcells hstep
  | notifies hmode hrel hgives hne hparent hwaiting hblocked =>
    exact h.notifies hmode hrel hgives hne hparent hblocked rfl rfl hinv hcells hstep
  | clock hmode hcase => exact h.clock hmode hcase hinv hcells hstep
  | schedule hmode hnext => exact h.schedule hmode hnext rfl hinv hcells hstep
  | resume hmode hresume heq => exact h.resume hmode hresume heq hinv hcells hstep

end ReapInv

theorem reapRun (hpid : ∀ n, hw.newPid n ≠ ERROR) (h₀ : ReapStart k₀)
    (hrun : Run (trapMachine hw) (fun k e => FamilyEvent e ∧ WaitsWell k e) k₀ t k) :
    ∃ s f, ReapInv hw t k s f := by
  refine hrun.traceInvariant (I := fun t k => ∃ s f, ReapInv hw t k s f) ⟨_, ReapInv.start h₀⟩ ?_
  rintro t k e k' ⟨s, f, hinv⟩ hen ⟨hevent, hok, hwait⟩ hstep
  obtain ⟨s', f', hcase, hsteady⟩ := hinv.family.cases hen hevent hok hstep
  have hfamily : FamilyInv k' s' f' := hinv.family.step hcase hsteady fun u c he => by
    subst he
    exact hen.2.1
  have hcells := hinv.cells.step hinv.family hcase hsteady fun u n he => (hwait u n he).1
  exact ⟨s', f', hinv.step hpid hcase hfamily hcells hstep⟩

/-! ## The theorem -/

namespace ReapInv

theorem once (h : ReapInv hw t k s f) (hp : k.Lives p) :
    ∃ told, List.Forall₂ (WaitReturn.Tells p) (account hw p t).returns told ∧
      (account hw p t).exits.Perm (told ++ (k.unreaped p ++ k.handed p)) := by
  have hA := h.accounts p hp
  obtain ⟨told, htold, hperm⟩ := hA.returns
  -- who has exited is either still allocated, or has been told of
  have hsplit : ((f p).filter (gone k)).Perm ((f p).filter (!k.allocated ·) ++
      (f p).filter fun c => k.allocated c ∧ (k.pcb c).state = .processZombie) := by
    have hboth := List.filter_append_perm (!k.allocated ·) ((f p).filter (gone k))
    rw [List.filter_filter, List.filter_filter] at hboth
    refine hboth.symm.trans (.of_eq ?_)
    congr 1
    · refine List.filter_congr fun c _ => ?_
      cases hc : k.allocated c <;> simp [gone, hc]
    · refine List.filter_congr fun c _ => ?_
      cases hc : k.allocated c <;> simp [gone, hc]
  have hunreaped : ((f p).filter fun c => k.allocated c ∧ (k.pcb c).state = .processZombie).map k.receipt =
      k.unreaped p := by
    rw [Kernel.unreaped, h.family.children_eq]
  refine ⟨told, htold, hA.exits.trans ((hsplit.map _).trans ?_)⟩
  rw [List.map_append, hunreaped]
  calc List.Perm _ ((told ++ k.handed p) ++ k.unreaped p) := hperm.append_right _
    List.Perm _ (told ++ (k.unreaped p ++ k.handed p)) := by
        rw [List.append_assoc]
        exact List.perm_append_comm.append_left told

/-- When every child has been told of, none is allocated. -/
theorem settled (h : ReapInv hw t k s f) (hp : k.Lives p)
    (hall : (account hw p t).births.Perm ((account hw p t).returns.map WaitReturn.pid)) :
    ∀ c ∈ f p, k.allocated c = false := by
  have hA := h.accounts p hp
  obtain ⟨told, htold, hperm⟩ := hA.returns
  have hbirths := hall.length_eq
  rw [hA.births, List.length_map, List.length_map, htold.length_eq] at hbirths
  have hfreed := hperm.length_eq
  rw [List.length_map, List.length_append] at hfreed
  have hle := List.length_filter_le (!k.allocated ·) (f p)
  have heq : ((f p).filter (!k.allocated ·)).length = (f p).length := by omega
  intro c hc
  simpa using List.length_filter_eq_length_iff.1 heq c hc

theorem refuses (h : ReapInv hw t k s f) {u : UserContext} {kstatus_ptr : Int}
    (hen : (trapMachine hw).enabled k (.kernel u (.wait kstatus_ptr)))
    (hok : WaitsWell k (.kernel u (.wait kstatus_ptr)))
    (hstep : (trapMachine hw).step k (.kernel u (.wait kstatus_ptr)) = some k') :
    k'.mode = .user ∧ k'.uctxt.regs 0 = ERROR ↔ (account hw k.current_process t).births.Perm
      ((account hw k.current_process t).returns.map WaitReturn.pid) := by
  have hlives : k.Lives k.current_process := ⟨h.family.allocated_current hen.1, notZombie h.family hen.1⟩
  obtain ⟨s', f', hcase, -⟩ := h.family.waitCase hen hstep
  cases hcase with
  | refused hmode hnone =>
    refine iff_of_true ⟨hmode, by simp [Kernel.returnValue]⟩ ?_
    have hA := h.accounts _ hlives
    obtain ⟨told, htold, hperm⟩ := hA.returns
    rw [hnone, List.filter_nil, List.map_nil] at hperm
    obtain ⟨rfl, -⟩ := List.append_eq_nil_iff.1 hperm.symm.eq_nil
    rw [hA.births, hnone, List.forall₂_nil_right_iff.1 htold]
    exact .refl _
  | waits hmode hnidle hfresh hsome hnone =>
    refine iff_of_false (fun hno => by cases hno.1) fun hall => ?_
    rcases (hok.2 _ _ rfl).2 with hnil | ⟨c, hc, hthere⟩
    · rw [h.family.children_eq] at hnil
      exact hsome hnil
    · rw [h.family.children_eq] at hc
      rw [h.settled hlives hall c hc] at hthere
      cases hthere
  | @reaps u kstatus_ptr z q hmode hz hzombie =>
    refine iff_of_false (fun hno => h.pids _ z hz ?_) fun hall => ?_
    · simpa [reaped, Kernel.receipt] using hno.2
    · have hthere := h.freed _ z hz (h.family.steady.coherent.listed _ _ hzombie)
      rw [h.settled hlives hall z hz] at hthere
      cases hthere

theorem outside (h : ReapInv hw t k s f) {u : UserContext} (hen : (trapMachine hw).enabled k (.kernel u .exit))
    (hok : Orderly k (.kernel u .exit)) (hstep : (trapMachine hw).step k (.kernel u .exit) = some k')
    (hsaved : k'.saved p ≠ k.saved p) :
    k.BlockedInWait p ∧ (k.pcb k.current_process).parent = some p := by
  obtain ⟨s', f', hcase, -⟩ := h.family.exitCase hen hok hstep
  cases hcase with
  | @dies u k₁ q hmode hrel =>
    refine absurd ?_ hsaved
    refine Eq.trans ?_ (hrel.kept p).saved
    by_cases e : p = k.current_process
    · subst e
      simp [Kernel.saved, Kernel.callSchedule, Kernel.setState, Kernel.modifyPcb]
    · simp [Kernel.saved, Kernel.callSchedule, Kernel.setState, Kernel.modifyPcb, e]
  | @notifies u k₁ q parent hmode hrel hgives hne hparent hwaiting hblocked =>
    by_cases e : p = parent
    · subst e
      obtain ⟨-, n, -, hcase⟩ := h.cells.blocked p hblocked
      obtain ⟨-, ⟨status_ptr, hcontext⟩, -⟩ := hcase.resolve_left fun hno => hne hno.1
      exact ⟨⟨h.family.steady.coherent.onList_iff.2 hblocked, status_ptr, n, hcontext⟩, hparent⟩
    · refine absurd (Eq.trans ?_ (hrel.kept p).saved) hsaved
      simp [Kernel.saved, Kernel.callSchedule, notified, e]

end ReapInv

/-- In every run of families whose steps meet the condition, every child is reaped exactly once. `hpid` is
what is known of the pids. -/
theorem children_reaped_once (hpid : ∀ n, hw.newPid n ≠ ERROR) (h₀ : ReapStart k₀)
    (hrun : Run (trapMachine hw) (fun k e => FamilyEvent e ∧ WaitsWell k e) k₀ t k) : ReapedOnce hw t k := by
  obtain ⟨s, f, hinv⟩ := reapRun hpid h₀ hrun
  refine ⟨fun p hp => hinv.once hp, fun p hp hblocked => ?_, ?_, ?_⟩
  · have hmem := hinv.family.steady.coherent.onList_iff.1 hblocked.1
    rw [Kernel.unreaped, hinv.family.children_eq, List.map_eq_nil_iff, List.filter_eq_nil_iff]
    intro c hc
    simp [hinv.quiet p hmem c hc]
  · rintro t₁ k₁ u kstatus_ptr t₂ k₂ rfl hstep
    obtain ⟨-, hbefore, hen, ⟨-, hok⟩, -⟩ := hrun.split
    obtain ⟨s, f, hinv⟩ := reapRun hpid h₀ hbefore
    exact hinv.refuses hen hok hstep
  · intro k₁ u k₂ p hx hstep hsaved
    obtain ⟨t₁, t₂, rfl⟩ := List.append_of_mem hx
    obtain ⟨-, hbefore, hen, ⟨-, hok, -⟩, -⟩ := hrun.split
    obtain ⟨s, f, hinv⟩ := reapRun hpid h₀ hbefore
    exact hinv.outside hen hok hstep hsaved

/-! ## The start -/

/-- The kernel is booted into such a state. -/
theorem Booted.reapStart {b : Boot hw} (h : Booted b k) : ReapStart k where
  family := h.familyStart
  childless p := (congrFun h.family.eq_toList p).symm
  noneBlocked := by
    have hqueue : [] = k.queue .blocked := congrFun h.queues.eq_toList .blocked
    exact hqueue.symm
  noWait p := by
    intro status_ptr kstatus_ptr hcontext
    by_cases e : p = b.init_pcb
    · rw [e, h.context_init] at hcontext
      cases hcontext
    · rw [h.context_other p e] at hcontext
      cases hcontext

theorem waitsWell_of {k : Kernel} (h : waitsWell k e = true) : WaitsWell k e := by
  cases e with
  | kernel u c =>
    cases c with
    | fork child => cases h
    | exit =>
      refine ⟨fun parent hpar hwait => ?_, fun _ _ hno => by cases hno⟩
      simp only [waitsWell, hpar, decide_eq_true_eq] at h
      exact h.resolve_left hwait
    | wait n =>
      obtain ⟨hn, hany⟩ := of_decide_eq_true h
      obtain ⟨c, hc, hthere⟩ := List.any_eq_true.1 hany
      refine ⟨trivial, fun _ _ he => ?_⟩
      obtain ⟨-, hcall⟩ := TrapEvent.kernel.inj he
      obtain rfl := Syscall.wait.inj hcall
      exact ⟨hn, Or.inr ⟨c, hc, hthere⟩⟩
    | _ => exact ⟨trivial, fun _ _ hno => by cases hno⟩
  | _ => exact ⟨trivial, fun _ _ hno => by cases hno⟩

/-- The child of the init process exits while its parent waits for it, and the parent goes on. -/
def reapEvents : List TrapEvent :=
  let u := Boot.small.uctxt
  [.kernel (u.setReg0 8) (.wait 500), .schedule, .resume, .kernel (u.setReg0 7) .exit, .schedule, .resume]

def reapedKernel : Kernel := ((trapMachine .small).exec forkedKernel reapEvents).get (by decide +kernel)

theorem reapedKernel_run : Run (trapMachine .small) (fun k e => FamilyEvent e ∧ WaitsWell k e)
    Boot.smallKernel ((trapMachine .small).trace Boot.smallKernel dispatchEvents ++
      [(initKernel, .kernel Boot.small.uctxt (.fork 102))] ++
      (trapMachine .small).trace forkedKernel reapEvents) reapedKernel := by
  have hdispatch : ∀ k, ∀ e ∈ dispatchEvents, FamilyEvent e ∧ FreesNobody k e := by
    simp [dispatchEvents, FamilyEvent, FreesNobody]
  have hdispatch' : ∀ k, ∀ e ∈ dispatchEvents, FamilyEvent e ∧ WaitsWell k e := by
    simp [dispatchEvents, FamilyEvent, WaitsWell, Orderly]
  have hen : (trapMachine .small).enabled initKernel (.kernel Boot.small.uctxt (.fork 102)) := by
    decide +kernel
  -- nothing has been freed yet, so the address for the fork is linked nowhere
  obtain ⟨s, f, hwhole⟩ := wholeRun Boot.smallKernel_booted.familyStart (initKernel_run hdispatch)
  have hfork : WaitsWell initKernel (.kernel Boot.small.uctxt (.fork 102)) :=
    ⟨hwhole.orderly hen trivial, fun _ _ hno => by cases hno⟩
  have hstep : (trapMachine .small).step initKernel (.kernel Boot.small.uctxt (.fork 102)) =
      some forkedKernel := (Option.some_get _).symm
  have hforked := (initKernel_run hdispatch').snoc hen ⟨trivial, hfork⟩ hstep
  refine hforked.trans (Run.ofExec (Option.some_get _).symm fun x hx => ?_)
  have hall : ∀ x ∈ (trapMachine .small).trace forkedKernel reapEvents,
      (trapMachine .small).enabled x.1 x.2 ∧ waitsWell x.1 x.2 = true := by
    decide +kernel
  have hevents : ∀ e ∈ reapEvents, FamilyEvent e := by simp [reapEvents, FamilyEvent]
  exact ⟨(hall x hx).1, hevents x.2 (System.mem_trace hx), waitsWell_of (hall x hx).2⟩

theorem small_pids (n : Nat) : Hardware.small.newPid n ≠ ERROR := by
  show (n : Int) + 1 ≠ -1
  omega

theorem children_reaped_once_small : ReapedOnce .small ((trapMachine .small).trace Boot.smallKernel
      dispatchEvents ++ [(initKernel, .kernel Boot.small.uctxt (.fork 102))] ++
      (trapMachine .small).trace forkedKernel reapEvents) reapedKernel ∧
    reapedKernel.current_process = 101 ∧ reapedKernel.uctxt.regs 0 = (forkedKernel.pcb 102).pid ∧
    reapedKernel.userStores = [.word 101 8 7] := by
  refine ⟨children_reaped_once small_pids Boot.smallKernel_booted.reapStart reapedKernel_run, ?_⟩
  decide +kernel

/-- The init process waits again. -/
def waitEvent : TrapEvent := .kernel (Boot.small.uctxt.setReg0 8) (.wait 501)

def stuckKernel : Kernel := ((trapMachine .small).step reapedKernel waitEvent).get (by decide +kernel)

/-- After its only child has been reaped, `SysWait` blocks. -/
theorem children_reaped_once_fails : ∃ t, Run (trapMachine .small) (fun _ e => FamilyEvent e)
    Boot.smallKernel t stuckKernel ∧ ¬ ReapedOnce .small t stuckKernel := by
  have hen : (trapMachine .small).enabled reapedKernel waitEvent := by decide +kernel
  have hstep : (trapMachine .small).step reapedKernel waitEvent = some stuckKernel :=
    (Option.some_get _).symm
  have hrun := (reapedKernel_run.mono fun _ _ h => h.1).snoc hen trivial hstep
  refine ⟨_, hrun, fun hlaw => ?_⟩
  have hall : (account .small reapedKernel.current_process ((trapMachine .small).trace Boot.smallKernel
        dispatchEvents ++ [(initKernel, .kernel Boot.small.uctxt (.fork 102))] ++
        (trapMachine .small).trace forkedKernel reapEvents)).births.Perm
      ((account .small reapedKernel.current_process ((trapMachine .small).trace Boot.smallKernel
        dispatchEvents ++ [(initKernel, .kernel Boot.small.uctxt (.fork 102))] ++
        (trapMachine .small).trace forkedKernel reapEvents)).returns.map WaitReturn.pid) := by
    decide +kernel
  have hblocks : stuckKernel.mode ≠ .user := by decide +kernel
  exact hblocks ((hlaw.refuses _ reapedKernel _ _ [] stuckKernel rfl hstep).2 hall).1

end Yalnix
