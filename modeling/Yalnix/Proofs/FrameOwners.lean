import Yalnix.Paging.Proofs.Ownership
import Yalnix.Proofs.FrameTakes
import Yalnix.Proofs.ReapRun

/-!
# Every frame has one owner

The frames that are marked are those that are reserved and those that the tables of live processes map, each once.
A step of the trap machine keeps this when `allocate_frame` finds a frame, and a program is loaded over all pages
of the old one.
-/

namespace Yalnix

open Intrusive Paging Transition

variable {hw : Hardware} {b : Boot hw} {k k' k₀ k₁ : Kernel} {s s' : QueueId → List PcbPtr}
  {g g' : PcbPtr → List PcbPtr} {t : List (Kernel × TrapEvent)} {apart : Nat → Prop} {e : TrapEvent}
  {u : UserContext} {m : Memory} {proc : Pcb} {pt stack : Nat → Pte} {x : TableEntry} {p child : PcbPtr}
  {f i n lo : Nat}

/-! ## What is mapped -/

theorem Kernel.mapped_eq_some : k.mapped hw x = some f ↔
    (k.Lives x.process ∧ x.InTable hw) ∧ (k.entry x).valid = true ∧ (k.entry x).pfn = f := by
  unfold Kernel.mapped Pte.frame
  split
  · rename_i hin
    split
    · rename_i hv
      simp [hin, hv]
    · rename_i hv
      simp [hv]
  · rename_i hin
    simp [hin]

/-- An entry that is not valid maps nothing. -/
theorem Kernel.mapped_invalid (hv : (k.entry x).valid = false) : k.mapped hw x = none := by
  unfold Kernel.mapped Pte.frame
  simp [hv]

theorem Kernel.mapped_outside (h : ¬ (k.Lives x.process ∧ x.InTable hw)) : k.mapped hw x = none := if_neg h

/-- Of the entries, only those of the `region1_pt` of the process `p` are different. -/
structure OnlyTable (k k' : Kernel) (p : PcbPtr) : Prop where
  lives : k'.Lives p ↔ k.Lives p
  kernel_stack : (k'.pcb p).kernel_stack = (k.pcb p).kernel_stack
  others : ∀ q, q ≠ p → SameSpace k k' q

namespace OnlyTable

/-- A new PCB with the state and the kernel stack of the old one. -/
theorem update (proc : Pcb) (hpcb : k'.pcb = Function.update k.pcb p proc)
    (halloc : k'.allocated = k.allocated) (hstate : proc.state = (k.pcb p).state)
    (hks : proc.kernel_stack = (k.pcb p).kernel_stack) : OnlyTable k k' p := by
  refine ⟨?_, ?_, fun q hq => ⟨?_, ?_, ?_⟩⟩
  · unfold Kernel.Lives
    rw [halloc, hpcb, Function.update_self, hstate]
  · rw [hpcb, Function.update_self, hks]
  · unfold Kernel.Lives
    rw [halloc, hpcb, Function.update_of_ne hq]
  · rw [hpcb, Function.update_of_ne hq]
  · rw [hpcb, Function.update_of_ne hq]

theorem mapped (h : OnlyTable k k' p) (hx : ∀ i, x ≠ .page p i) : k'.mapped hw x = k.mapped hw x := by
  by_cases e : x.process = p
  · cases x with
    | page q i => exact absurd (congrArg (TableEntry.page · i) e) (hx i)
    | stack q i =>
      obtain rfl : q = p := e
      exact mapped_congr h.lives (congrFun h.kernel_stack i)
  · exact (h.others _ e).mapped

theorem stacksValid (h : OnlyTable k k' p)
    (hstacks : ∀ q, k.Lives q → ∀ i < hw.kernelStackPages, ((k.pcb q).kernel_stack i).valid = true) :
    ∀ q, k'.Lives q → ∀ i < hw.kernelStackPages, ((k'.pcb q).kernel_stack i).valid = true := by
  intro q hq i hi
  by_cases e : q = p
  · subst e
    rw [h.kernel_stack]
    exact hstacks q (h.lives.1 hq) i hi
  · rw [(h.others q e).kernel_stack]
    exact hstacks q ((h.others q e).lives.1 hq) i hi

end OnlyTable

/-! ## The invariant -/

/-- The frames that are not set `apart` are owned by the entries of live processes, whose kernel stacks are
mapped. -/
structure OwnersInv (hw : Hardware) (apart : Nat → Prop) (k : Kernel) : Prop where
  owned : Owned apart (fun f => k.mem.frame_bitMap f = true) (k.mapped hw)
  bounded : ∀ x f, k.mapped hw x = some f → f < hw.NUM_VPN
  kernelStacks : ∀ p, k.Lives p → ∀ i < hw.kernelStackPages, ((k.pcb p).kernel_stack i).valid = true

namespace OwnersInv

/-- The same processes live, and map the same frames. -/
theorem congr (h : OwnersInv hw apart k) (hbits : SameBits k.mem k'.mem) (hlives : ∀ p, k'.Lives p ↔ k.Lives p)
    (hpt : ∀ p, (k'.pcb p).region1_pt = (k.pcb p).region1_pt)
    (hstack : ∀ p, k.Lives p → ∀ i < hw.kernelStackPages,
      ((k'.pcb p).kernel_stack i).frame = ((k.pcb p).kernel_stack i).frame) : OwnersInv hw apart k' := by
  have hmapped : ∀ x, k'.mapped hw x = k.mapped hw x := by
    intro x
    unfold Kernel.mapped
    by_cases hin : k.Lives x.process ∧ x.InTable hw
    · rw [if_pos hin, if_pos ⟨(hlives _).2 hin.1, hin.2⟩]
      cases x with
      | page p i => exact congrArg Pte.frame (congrFun (hpt p) i)
      | stack p i => exact hstack p hin.1 i hin.2
    · rw [if_neg hin, if_neg fun hin' => hin ⟨(hlives _).1 hin'.1, hin'.2⟩]
  refine ⟨h.owned.congr (fun f => by rw [hbits.bits]) hmapped, fun x f hx => h.bounded x f (hmapped x ▸ hx),
    fun p hp i hi => ?_⟩
  have hlive := (hlives p).1 hp
  have hframe := hstack p hlive i hi
  unfold Pte.frame at hframe
  rw [if_pos (h.kernelStacks p hlive i hi)] at hframe
  by_contra hv
  rw [if_neg hv] at hframe
  cases hframe

theorem same (h : OwnersInv hw apart k) (hbits : SameBits k.mem k'.mem) (hsame : ∀ p, SameSpace k k' p) :
    OwnersInv hw apart k' :=
  h.congr hbits (fun p => (hsame p).lives) (fun p => (hsame p).region1_pt) fun p _ i _ => by
    rw [(hsame p).kernel_stack]

/-- The entries `xs`, which have mapped nothing, get the frames that are taken. -/
theorem gains (h : OwnersInv hw apart k) (xs : List TableEntry)
    (htakes : Takes hw k.mem k'.mem (xs.map fun x => (k'.entry x).pfn)) (hnone : ∀ x ∈ xs, k.mapped hw x = none)
    (hnew : ∀ x ∈ xs, (k'.Lives x.process ∧ x.InTable hw) ∧ (k'.entry x).valid = true)
    (hkeep : ∀ x, x ∉ xs → k'.mapped hw x = k.mapped hw x)
    (hstacks : ∀ p, k'.Lives p → ∀ i < hw.kernelStackPages, ((k'.pcb p).kernel_stack i).valid = true) :
    OwnersInv hw apart k' := by
  have hfree : ∀ x ∈ xs, (k'.entry x).pfn < hw.NUM_VPN ∧ k.mem.frame_bitMap (k'.entry x).pfn = false :=
    fun x hx => mem_freeFrames.1 (htakes.free _ (List.mem_map_of_mem hx))
  have hmaps : ∀ x ∈ xs, k'.mapped hw x = some (k'.entry x).pfn := fun x hx =>
    Kernel.mapped_eq_some.2 ⟨(hnew x hx).1, (hnew x hx).2, rfl⟩
  refine ⟨h.owned.gain hnone htakes.nodup (fun x hx hmarked => ?_) htakes.bits hmaps hkeep, fun x f hx => ?_, hstacks⟩
  · rw [(hfree x hx).2] at hmarked
    cases hmarked
  · by_cases hmem : x ∈ xs
    · obtain rfl := Option.some.inj ((hmaps x hmem).symm.trans hx)
      exact (hfree x hmem).1
    · exact h.bounded x f ((hkeep x hmem).symm.trans hx)

/-- The entries in `S` are given up, and their frames are freed. -/
theorem releases (h : OwnersInv hw apart k) {S : TableEntry → Prop}
    (hbits : ∀ f, k'.mem.frame_bitMap f = true ↔
      k.mem.frame_bitMap f = true ∧ ¬ (f < hw.NUM_VPN ∧ ∃ x, S x ∧ k.mapped hw x = some f))
    (hgone : ∀ x, S x → k'.mapped hw x = none) (hkeep : ∀ x, ¬ S x → k'.mapped hw x = k.mapped hw x)
    (hstacks : ∀ p, k'.Lives p → ∀ i < hw.kernelStackPages, ((k'.pcb p).kernel_stack i).valid = true) :
    OwnersInv hw apart k' := by
  refine ⟨h.owned.release (S := S) (fun f => ?_) hgone hkeep, fun x f hx => ?_, hstacks⟩
  · rw [hbits]
    refine and_congr_right fun _ => not_congr ⟨And.right, ?_⟩
    rintro ⟨x, hS, hx⟩
    exact ⟨h.bounded x f hx, x, hS, hx⟩
  · by_cases hS : S x
    · rw [hgone x hS] at hx
      cases hx
    · exact h.bounded x f ((hkeep x hS).symm.trans hx)

/-! ## The steps -/

/-- A new process gets frames for its pages and for its kernel stack. -/
theorem bears (h : OwnersInv hw apart k) (hdead : ¬ k.Lives child) (hlives : k'.Lives child)
    (hother : ∀ q, q ≠ child → SameSpace k k' q) (pages : List Nat)
    (htakes : Takes hw k.mem k'.mem (pages.map (fun i => ((k'.pcb child).region1_pt i).pfn) ++
      (List.range hw.kernelStackPages).map fun i => ((k'.pcb child).kernel_stack i).pfn))
    (hinside : ∀ i ∈ pages, i < hw.MAX_PT_LEN)
    (hpages : ∀ i < hw.MAX_PT_LEN, ((k'.pcb child).region1_pt i).valid = true ↔ i ∈ pages)
    (hstack : ∀ i < hw.kernelStackPages, ((k'.pcb child).kernel_stack i).valid = true) : OwnersInv hw apart k' := by
  have hcases : ∀ x ∈ pages.map (TableEntry.page child) ++ (List.range hw.kernelStackPages).map (.stack child),
      (∃ i ∈ pages, x = .page child i) ∨ ∃ i < hw.kernelStackPages, x = .stack child i := by
    intro x hx
    rcases List.mem_append.1 hx with hx | hx
    · obtain ⟨i, hi, rfl⟩ := List.mem_map.1 hx
      exact Or.inl ⟨i, hi, rfl⟩
    · obtain ⟨i, hi, rfl⟩ := List.mem_map.1 hx
      exact Or.inr ⟨i, List.mem_range.1 hi, rfl⟩
  refine h.gains (pages.map (.page child) ++ (List.range hw.kernelStackPages).map (.stack child)) ?_
    (fun x hx => ?_) (fun x hx => ?_) (fun x hx => ?_) fun q hq i hi => ?_
  · rw [List.map_append, List.map_map, List.map_map]
    exact htakes
  · refine Kernel.mapped_outside fun hin => hdead ?_
    rcases hcases x hx with ⟨i, -, rfl⟩ | ⟨i, -, rfl⟩
    · exact hin.1
    · exact hin.1
  · rcases hcases x hx with ⟨i, hi, rfl⟩ | ⟨i, hi, rfl⟩
    · exact ⟨⟨hlives, hinside i hi⟩, (hpages i (hinside i hi)).2 hi⟩
    · exact ⟨⟨hlives, hi⟩, hstack i hi⟩
  · by_cases e : x.process = child
    · -- an entry that gets no frame is invalid, or is not in the table
      have hnone : k.mapped hw x = none := Kernel.mapped_outside fun hin => hdead (e ▸ hin.1)
      rw [hnone]
      rw [List.mem_append, not_or] at hx
      cases x with
      | page q i =>
        obtain rfl : q = child := e
        by_cases hlt : i < hw.MAX_PT_LEN
        · refine Kernel.mapped_invalid ?_
          have hv : ¬ ((k'.pcb q).region1_pt i).valid = true := fun hv =>
            hx.1 (List.mem_map_of_mem ((hpages i hlt).1 hv))
          simpa [Kernel.entry] using hv
        · exact Kernel.mapped_outside fun hin => hlt hin.2
      | stack q i =>
        obtain rfl : q = child := e
        exact Kernel.mapped_outside fun hin => hx.2 (List.mem_map_of_mem (List.mem_range.2 hin.2))
    · exact (hother _ e).mapped
  · by_cases e : q = child
    · subst e
      exact hstack i hi
    · rw [(hother q e).kernel_stack]
      exact h.kernelStacks q ((hother q e).lives.1 hq) i hi

theorem forks (h : OwnersInv hw apart k) (hpfn : hw.NUM_VPN ≤ 2 ^ 24) (hvm : k.mem.vm_enabled = true)
    (hfresh : k.allocated child = false) (hmem : ForkMemory hw k m pt stack) (hroom : m.exhausted = false)
    {family : Heap PcbPtr PcbPtr} {q : Heap QueueId PcbPtr} :
    OwnersInv hw apart (forked hw { k with uctxt := u } child m pt stack family q) := by
  obtain ⟨hgets, hvalid, hstack⟩ := forkMemory_gets hpfn hvm hmem
  generalize hk' : forked hw { k with uctxt := u } child m pt stack family q = k'
  have hmem' : k'.mem = m := by rw [← hk']; rfl
  have hpt : (k'.pcb child).region1_pt = pt := by simp [← hk', forked]
  have hks : (k'.pcb child).kernel_stack = stack := by simp [← hk', forked]
  have hlives : k'.Lives child := by simp [← hk', forked, createPcb, Kernel.Lives]
  have hdead : ¬ k.Lives child := fun hlives => by
    rw [hlives.1] at hfresh
    cases hfresh
  refine h.bears hdead hlives (fun q hq => ?_) (validPages hw (k.pcb k.current_process).region1_pt) ?_
    (fun i hi => ?_) (fun i hi => ?_) ?_
  · constructor <;> simp [← hk', forked, createPcb, Kernel.Lives, hq]
  · rw [hmem', hpt, hks]
    exact (hgets.takes hroom).2
  · exact List.mem_range.1 (List.mem_of_mem_filter hi)
  · rw [hpt, hvalid i hi]
    simp [validPages, hi]
  · rw [hks]
    exact hstack

/-- The pages `pages` of the caller, which have mapped nothing, get the frames that are taken. -/
theorem gainsPages (h : OwnersInv hw apart k) (honly : OnlyTable k k' p) (hlives : k'.Lives p) (pages : List Nat)
    (htakes : Takes hw k.mem k'.mem (pages.map fun i => ((k'.pcb p).region1_pt i).pfn))
    (hinside : ∀ i ∈ pages, i < hw.MAX_PT_LEN ∧ ((k'.pcb p).region1_pt i).valid = true)
    (hnone : ∀ i ∈ pages, ((k.pcb p).region1_pt i).valid = false)
    (hrest : ∀ i < hw.MAX_PT_LEN, i ∉ pages → (k'.pcb p).region1_pt i = (k.pcb p).region1_pt i ∨
      ((k'.pcb p).region1_pt i).valid = false ∧ ((k.pcb p).region1_pt i).valid = false) :
    OwnersInv hw apart k' := by
  refine h.gains (pages.map (.page p)) ?_ (fun x hx => ?_) (fun x hx => ?_) (fun x hx => ?_)
    (honly.stacksValid h.kernelStacks)
  · rw [List.map_map]
    exact htakes
  · obtain ⟨i, hi, rfl⟩ := List.mem_map.1 hx
    exact Kernel.mapped_invalid (hnone i hi)
  · obtain ⟨i, hi, rfl⟩ := List.mem_map.1 hx
    exact ⟨⟨hlives, (hinside i hi).1⟩, (hinside i hi).2⟩
  · by_cases hpage : ∃ i, x = .page p i
    · obtain ⟨i, rfl⟩ := hpage
      by_cases hlt : i < hw.MAX_PT_LEN
      · rcases hrest i hlt fun hi => hx (List.mem_map_of_mem hi) with heq | ⟨hv', hv⟩
        · exact mapped_congr honly.lives heq
        · exact (Kernel.mapped_invalid (x := .page p i) hv').trans (Kernel.mapped_invalid (x := .page p i) hv).symm
      · have hout : ¬ (TableEntry.page p i).InTable hw := hlt
        rw [Kernel.mapped_outside fun hin => hout hin.2, Kernel.mapped_outside fun hin => hout hin.2]
    · exact honly.mapped fun i hi => hpage ⟨i, hi⟩

/-- A program is loaded over all pages of the old one. -/
theorem loads (h : OwnersInv hw apart k) (hpfn : hw.NUM_VPN ≤ 2 ^ 24) (hlives : k.Lives p) {req : LoadRequest}
    {rc : LoadResult} (hover : LoadsOver hw req (k.pcb p).region1_pt)
    (hload : loadProgram hw k.mem (k.pcb p) req = some (rc, m, proc)) (hroom : m.exhausted = false)
    (hmem : k'.mem = m) (hpt : (k'.pcb p).region1_pt = proc.region1_pt) (honly : OnlyTable k k' p) :
    OwnersInv hw apart k' := by
  subst hmem
  rcases loadProgram_loads hpfn hover hload hroom with ⟨hsame, hsame'⟩ | ⟨pages, hloaded⟩
  · refine h.same (hsame ▸ .refl _) fun q => ?_
    by_cases e : q = p
    · subst e
      exact ⟨honly.lives, hpt.trans hsame', honly.kernel_stack⟩
    · exact honly.others q e
  -- first all frames of the old program are given back
  generalize hk₁ : ({ k with
    pcb := Function.update k.pcb p { k.pcb p with region1_pt := fun _ => .zero }
    mem := freeUserspace hw k.mem (k.pcb p).region1_pt } : Kernel) = k₁
  have hzero : ∀ i, ((k₁.pcb p).region1_pt i).valid = false := fun i => by
    rw [← hk₁]
    simp [Pte.zero]
  have honly₁ : OnlyTable k k₁ p :=
    .update { k.pcb p with region1_pt := fun _ => .zero } (by rw [← hk₁]) (by rw [← hk₁]) rfl rfl
  have h₁ : OwnersInv hw apart k₁ := by
    refine h.releases (S := fun x => ∃ i, x = .page p i) (fun f => ?_) (fun x hS => ?_) (fun x hS => ?_)
      (honly₁.stacksValid h.kernelStacks)
    · rw [show k₁.mem = freeUserspace hw k.mem (k.pcb p).region1_pt by rw [← hk₁], freeUserspace_bits]
      refine and_congr_right fun _ => not_congr (and_congr_right fun _ => ?_)
      constructor
      · rintro ⟨i, hi, hv⟩
        exact ⟨_, ⟨i, rfl⟩, Kernel.mapped_eq_some.2 ⟨⟨hlives, hi⟩, hv⟩⟩
      · rintro ⟨x, ⟨i, rfl⟩, hx⟩
        obtain ⟨hin, hv⟩ := Kernel.mapped_eq_some.1 hx
        exact ⟨i, hin.2, hv⟩
    · obtain ⟨i, rfl⟩ := hS
      exact Kernel.mapped_invalid (hzero i)
    · exact honly₁.mapped fun i hi => hS ⟨i, hi⟩
  have honly' : OnlyTable k₁ k' p := by
    refine ⟨honly.lives.trans honly₁.lives.symm, honly.kernel_stack.trans honly₁.kernel_stack.symm, fun q hq => ?_⟩
    have hq' := honly.others q hq
    have hq₁ := honly₁.others q hq
    exact ⟨hq'.lives.trans hq₁.lives.symm, hq'.region1_pt.trans hq₁.region1_pt.symm,
      hq'.kernel_stack.trans hq₁.kernel_stack.symm⟩
  refine h₁.gainsPages honly' (honly.lives.2 hlives) pages ?_ ?_ (fun i _ => hzero i)
    fun i hi hnot => ?_
  · rw [hpt, show k₁.mem = freeUserspace hw k.mem (k.pcb p).region1_pt by rw [← hk₁]]
    exact hloaded.takes
  · rw [hpt]
    exact hloaded.inside
  · rw [hpt]
    exact Or.inr ⟨(hloaded.rest i hi hnot).1, hzero i⟩

/-- The heap of the caller grows. -/
theorem grows (h : OwnersInv hw apart k) (hpfn : hw.NUM_VPN ≤ 2 ^ 24) (hlives : k.Lives p) {ok : Bool}
    (hgrow : growUserHeap hw k.mem (k.pcb p).region1_pt lo n = some (ok, m, pt)) (hroom : m.exhausted = false)
    (hmem : k'.mem = m) (hpt : (k'.pcb p).region1_pt = pt) (honly : OnlyTable k k' p) :
    OwnersInv hw apart k' := by
  subst hmem hpt
  obtain ⟨hgets, hvalid, hkept⟩ := growUserHeap_gets hpfn hgrow
  refine h.gainsPages honly (honly.lives.2 hlives) _ (hgets.takes hroom).2 (hvalid hroom) (fun i hi => ?_)
    fun i _ hi => Or.inl (hkept i hi)
  -- only invalid pages are needed
  have hlt := (hvalid hroom i hi).1
  simpa [hlt] using (List.mem_filter.1 hi).2

/-- The caller exits. -/
theorem exits (h : OwnersInv hw apart k) (hlives : k.Lives p)
    (hmem : k'.mem = freeProcessMemory hw k.mem (k.pcb p)) (hgone : ¬ k'.Lives p)
    (hsame : ∀ q, q ≠ p → SameSpace k k' q) : OwnersInv hw apart k' := by
  refine h.releases (S := fun x => x.process = p) (fun f => ?_) (fun x hS => ?_) (fun x hS => (hsame _ hS).mapped)
    fun q hq i hi => ?_
  · rw [hmem, freeProcessMemory_bits]
    refine and_congr_right fun _ => not_congr (and_congr_right fun _ => ?_)
    constructor
    · rintro (⟨i, hi, hv⟩ | ⟨i, hi, hpfn⟩)
      · exact ⟨.page p i, rfl, Kernel.mapped_eq_some.2 ⟨⟨hlives, hi⟩, hv⟩⟩
      · exact ⟨.stack p i, rfl, Kernel.mapped_eq_some.2 ⟨⟨hlives, hi⟩, h.kernelStacks p hlives i hi, hpfn⟩⟩
    · rintro ⟨x, rfl, hx⟩
      obtain ⟨hin, hv⟩ := Kernel.mapped_eq_some.1 hx
      cases x with
      | page q i => exact Or.inl ⟨i, hin.2, hv⟩
      | stack q i => exact Or.inr ⟨i, hin.2, hv.2⟩
  · exact Kernel.mapped_outside fun hin => hgone (hS ▸ hin.1)
  · have hne : q ≠ p := by
      rintro rfl
      exact hgone hq
    rw [(hsame q hne).kernel_stack]
    exact h.kernelStacks q ((hsame q hne).lives.1 hq) i hi

end OwnersInv

/-! ## Every step -/

theorem FamilyInv.lives_current (h : FamilyInv k s g) (hmode : k.mode = .user) : k.Lives k.current_process :=
  h.steady.coherent.lives_iff.2 ⟨h.allocated_current hmode, h.off hmode .zombie⟩

theorem onlyTable_execed {req : LoadRequest} {rc : LoadResult}
    (hload : loadProgram hw k.mem (k.pcb k.current_process) req = some (rc, m, proc)) :
    OnlyTable k (execed { k with uctxt := u } m proc) k.current_process := by
  obtain ⟨pt, brk, uc, rfl⟩ := loadProgram_frame hload
  exact .update _ rfl rfl rfl rfl

theorem onlyTable_grown {v : Int} :
    OnlyTable k ((grown { k with uctxt := u } m pt).returnValue v) k.current_process := by
  exact .update _ rfl rfl rfl rfl

/-- A step leaves virtual memory on, and a failure of `allocate_frame` recorded. -/
theorem SpaceCase.flags (h : SpaceCase hw k e k') (hpfn : hw.NUM_VPN ≤ 2 ^ 24) (hvm : k.mem.vm_enabled = true) :
    k'.mem.vm_enabled = true ∧ (k'.mem.exhausted = false → k.mem.exhausted = false) := by
  cases h with
  | same hbits => exact ⟨hbits.vm.trans hvm, fun hroom => hbits.exhausted.symm.trans hroom⟩
  | forks _ _ hmem =>
    obtain ⟨hgets, -⟩ := forkMemory_gets hpfn hvm hmem
    exact ⟨hgets.vm.trans hvm, fun hroom => (hgets.takes hroom).1⟩
  | loads _ hload =>
    obtain ⟨hvm', hroom⟩ := loadProgram_flags hload
    exact ⟨hvm'.trans hvm, hroom⟩
  | grows _ hgrow =>
    obtain ⟨hgets, -⟩ := growUserHeap_gets hpfn hgrow
    exact ⟨hgets.vm.trans hvm, fun hroom => (hgets.takes hroom).1⟩
  | exits _ hmem =>
    rw [hmem, freeProcessMemory_frame]
    exact ⟨hvm, id⟩

/-- A step that finds the frames that it asks for keeps the frames owned, if it loads programs over all pages of
the old ones only. -/
theorem OwnersInv.step (h : OwnersInv hw apart k) (hinv : FamilyInv k s g) (hpfn : hw.NUM_VPN ≤ 2 ^ 24)
    (hvm : k.mem.vm_enabled = true) (hcase : SpaceCase hw k e k') (hok : KeepsOwners hw k e)
    (hroom : k'.mem.exhausted = false) : OwnersInv hw apart k' := by
  cases hcase with
  | same hbits hsame => exact h.same hbits hsame
  | forks _ hfresh hmem => exact h.forks hpfn hvm hfresh hmem hroom
  | loads hmode hload =>
    exact h.loads hpfn (hinv.lives_current hmode) (hok.2 _ _ rfl) hload hroom rfl
      (congrArg Pcb.region1_pt (Function.update_self _ _ _)) (onlyTable_execed hload)
  | grows hmode hgrow =>
    exact h.grows hpfn (hinv.lives_current hmode) hgrow hroom rfl grown_table onlyTable_grown
  | exits hmode hmem hgone hsame => exact h.exits (hinv.lives_current hmode) hmem hgone hsame

/-- What holds in every state of a run. -/
structure SpaceInv (hw : Hardware) (apart : Nat → Prop) (k : Kernel) : Prop where
  family : ∃ s g, FamilyInv k s g
  vm : k.mem.vm_enabled = true
  owners : k.mem.exhausted = false → OwnersInv hw apart k

theorem SpaceInv.step (h : SpaceInv hw apart k) (hpfn : hw.NUM_VPN ≤ 2 ^ 24)
    (hen : (trapMachine hw).enabled k e) (hevent : SpaceEvent e) (hok : KeepsOwners hw k e)
    (hstep : (trapMachine hw).step k e = some k') : SpaceInv hw apart k' := by
  obtain ⟨s, g, hinv⟩ := h.family
  obtain ⟨s', g', hinv', hcase⟩ := hinv.spaceStep hen hevent hok.1 hstep
  obtain ⟨hvm, hflags⟩ := hcase.flags hpfn h.vm
  exact ⟨⟨s', g', hinv'⟩, hvm, fun hroom => (h.owners (hflags hroom)).step hinv hpfn h.vm hcase hok hroom⟩

end Yalnix
