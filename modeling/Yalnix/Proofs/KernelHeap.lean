import Yalnix.KernelHeap
import Yalnix.Proofs.Frames

/-!
# The kernel heap and the kernel image

A call whose pages are no pages of kernel text or data takes frames that are free and gives back
frames of heap pages, and neither is a frame of the image.
-/

namespace Yalnix

open Transition

variable {hw : Hardware} {b : Boot hw} {m m' : Memory}

/-- The image is in place, and no heap page has a frame of the image. -/
structure HeapInv (b : Boot hw) (m : Memory) : Prop where
  image : ImageKept b m
  heap : ∀ i < hw.KSTACK_START_PAGE, ¬ b.ImagePage i → (m.region0_pt i).valid = true →
    ¬ b.ImagePage (m.region0_pt i).pfn
  brk : 0 ≤ m.kernel_brk ∧ hw.page m.kernel_brk < hw.KSTACK_START_PAGE

/-- Nothing but the table and the bits of image frames matters. -/
theorem HeapInv.congr (h : HeapInv b m) (ht : m'.region0_pt = m.region0_pt)
    (hb : ∀ i, b.ImagePage i → m'.frame_bitMap i = m.frame_bitMap i)
    (hk : 0 ≤ m'.kernel_brk ∧ hw.page m'.kernel_brk < hw.KSTACK_START_PAGE) : HeapInv b m' where
  image i hi := by
    rw [ht, hb i hi]
    exact h.image i hi
  heap := by
    rw [ht]
    exact h.heap
  brk := hk

/-- A heap page gets an entry that is invalid or has a frame of its own. -/
theorem HeapInv.setEntry (h : HeapInv b m) {i : Nat} {e : Pte} (hi : ¬ b.ImagePage i)
    (he : e.valid = true → ¬ b.ImagePage e.pfn) :
    HeapInv b { m with region0_pt := Function.update m.region0_pt i e } where
  image j hj := by
    have hne : j ≠ i := fun e => hi (e ▸ hj)
    exact ⟨(Function.update_of_ne hne _ _).trans (h.image j hj).1, (h.image j hj).2⟩
  heap j hj hnj := by
    show (Function.update m.region0_pt i e j).valid = true → _
    by_cases hji : j = i
    · subst hji
      simpa using he
    · simpa [hji] using h.heap j hj hnj
  brk := h.brk

theorem HeapInv.grow {rc : Int} {i n : Nat} (h : HeapInv b m)
    (hpages : ∀ j, i ≤ j → j < i + n → ¬ b.ImagePage j)
    (hrun : growKernelHeap hw m i n = (rc, m')) :
    HeapInv b m' ∧ m'.kernel_brk = m.kernel_brk ∧ m'.vm_enabled = m.vm_enabled := by
  induction n generalizing m i with
  | zero =>
    obtain ⟨-, rfl⟩ := Prod.mk.inj hrun
    exact ⟨h, rfl, rfl⟩
  | succ n ih =>
    unfold growKernelHeap at hrun
    split at hrun
    · obtain ⟨-, rfl⟩ := Prod.mk.inj hrun
      exact ⟨h, rfl, rfl⟩
    · generalize halloc : allocateFrame hw m = r at hrun
      obtain ⟨pfn, m₁⟩ := r
      simp only at hrun
      rcases allocateFrame_cases halloc with ⟨f, rfl, hf, hfree, rfl⟩ | ⟨rfl, -, rfl⟩
      · rw [if_neg (by unfold ERROR; omega)] at hrun
        -- the frame was free, so it is no frame of the image
        have hnf : ¬ b.ImagePage f := fun hi => by
          rw [(h.image f hi).2] at hfree
          cases hfree
        have hpfn : Pte.pfnOfInt f = f := Pte.pfnOfInt_natCast (by have := b.pfn_fits; omega)
        have h₁ : HeapInv b { m with
            frame_bitMap := Function.update (Function.update m.frame_bitMap f true) f true
            region0_pt := Function.update m.region0_pt i ⟨true, .readWrite, Pte.pfnOfInt f⟩ } :=
          (h.setEntry (hpages i (by omega) (by omega)) fun _ => by rwa [hpfn]).congr rfl
            (fun j hj => by
              have hne : j ≠ f := fun e => hnf (e ▸ hj)
              simp [hne]) h.brk
        obtain ⟨hinv, hbrk, hvm⟩ := ih h₁ (fun j hj hj' => hpages j (by omega) (by omega)) hrun
        exact ⟨hinv, hbrk, hvm⟩
      · rw [if_pos rfl] at hrun
        obtain ⟨-, rfl⟩ := Prod.mk.inj hrun
        exact ⟨h.congr rfl (fun _ _ => rfl) h.brk, rfl, rfl⟩

theorem HeapInv.shrink {i n : Nat} (h : HeapInv b m)
    (hpages : ∀ j, i ≤ j → j < i + n → j < hw.KSTACK_START_PAGE ∧ ¬ b.ImagePage j) :
    HeapInv b (shrinkKernelHeap hw m i n) ∧
      (shrinkKernelHeap hw m i n).kernel_brk = m.kernel_brk ∧
      (shrinkKernelHeap hw m i n).vm_enabled = m.vm_enabled := by
  induction n generalizing m i with
  | zero => exact ⟨h, rfl, rfl⟩
  | succ n ih =>
    have hrest : ∀ j, i + 1 ≤ j → j < i + 1 + n → j < hw.KSTACK_START_PAGE ∧ ¬ b.ImagePage j :=
      fun j hj hj' => hpages j (by omega) (by omega)
    obtain ⟨hk, hi⟩ := hpages i (by omega) (by omega)
    unfold shrinkKernelHeap
    split
    · rename_i hvalid
      have hnf := h.heap i hk hi hvalid
      have hfr := freeFrame_frame hw m (m.region0_pt i).pfn
      have h₁ : HeapInv b { freeFrame hw m (m.region0_pt i).pfn with
          frame_bitMap := Function.update (freeFrame hw m (m.region0_pt i).pfn).frame_bitMap
            (m.region0_pt i).pfn false
          region0_pt := Function.update (freeFrame hw m (m.region0_pt i).pfn).region0_pt i .zero } := by
        rw [hfr]
        refine (h.setEntry (e := .zero) hi fun hv => ?_).congr rfl (fun j hj => ?_) h.brk
        · cases hv
        · have hne : j ≠ (m.region0_pt i).pfn := fun e => hnf (e ▸ hj)
          simp [hne, freeFrame_bitMap_ne hne]
      obtain ⟨hinv, hbrk, hvm⟩ := ih h₁ hrest
      exact ⟨hinv, by rw [hbrk, hfr], by rw [hvm, hfr]⟩
    · exact ih h hrest

theorem HeapInv.step (h : HeapInv b m) {e : BrkEvent} (hen : (brkMachine b).enabled m e)
    (hcall : HeapCall b m e) (hstep : (brkMachine b).step m e = some m') : HeapInv b m' := by
  cases e with
  | enableVirtualMemory =>
    obtain rfl := Option.some.inj hstep
    exact h.congr rfl (fun _ _ => rfl) h.brk
  | setKernelBrk addr =>
    obtain ⟨hpos, -⟩ : 0 ≤ addr ∧ addr < 2 ^ 32 := hen
    have hnew := hw.page_nonneg hpos
    have hcur := hw.page_nonneg h.brk.1
    have hbound := h.brk.2
    obtain rfl := Option.some.inj hstep
    show HeapInv b (setKernelBrk hw b.kernel_data_start m addr).2
    unfold setKernelBrk
    simp only
    split
    · exact h
    · rename_i hlow
      have hdata : 0 ≤ hw.page b.kernel_data_start := hw.page_nonneg (by omega)
      split
      · split
        · exact h
        · split
          · exact h
          · have hbrk : 0 ≤ addr ∧ hw.page addr < hw.KSTACK_START_PAGE := ⟨hpos, by omega⟩
            exact h.congr rfl (fun _ _ => rfl) hbrk
      · rename_i hvm
        split
        · exact h
        · rename_i hhigh
          have hmoves : ∀ i, BrkMoves hw m addr i → ¬ b.ImagePage i := fun i hi hpage =>
            hcall (by simpa using hvm) (by omega) (by omega) i hpage.2 hpage.1 hi
          have hbrk : 0 ≤ addr ∧ hw.page addr < hw.KSTACK_START_PAGE := ⟨hpos, by omega⟩
          split
          · rename_i hless
            obtain ⟨hinv, -, -⟩ := h.shrink (i := (hw.page addr).toNat)
              (n := (hw.page m.kernel_brk).toNat - (hw.page addr).toNat) fun j hj hj' =>
                ⟨by omega, hmoves j ⟨by omega, by omega⟩⟩
            exact hinv.congr rfl (fun _ _ => rfl) hbrk
          · rename_i hless
            generalize hgrow : growKernelHeap hw m _ _ = r
            obtain ⟨rc, m₁⟩ := r
            obtain ⟨hinv, -, -⟩ := h.grow (fun j hj hj' => hmoves j ⟨by omega, by omega⟩) hgrow
            simp only
            split
            · exact hinv
            · exact hinv.congr rfl (fun _ _ => rfl) hbrk

/-! ## The table that init_region0_pageTable builds -/

theorem mapRegion0_eq {i : Nat} {prot : Prot} (hi : i < 2 ^ 24) : mapRegion0 m i i prot =
    { m with
      frame_bitMap := Function.update m.frame_bitMap i true
      region0_pt := Function.update m.region0_pt i ⟨true, prot, i⟩ } := by
  unfold mapRegion0 mapPage
  simp [Pte.pfnOfInt_natCast hi]

/-- A loop that writes `e i`, and then goes on with `n` more entries. -/
theorem ite_range_update {α : Type} (g e : Nat → α) (i n : Nat) :
    (fun j => if i + 1 ≤ j ∧ j < i + 1 + n then e j else Function.update g i (e i) j) =
      fun j => if i ≤ j ∧ j < i + (n + 1) then e j else g j := by
  funext j
  by_cases hj : j = i
  · subst hj
    rw [if_neg (by omega), if_pos (by omega), Function.update_self]
  · rw [Function.update_of_ne hj]
    exact if_congr (by omega) rfl rfl

theorem ite_range_zero {α : Type} (g e : Nat → α) (i : Nat) :
    (fun j => if i ≤ j ∧ j < i + 0 then e j else g j) = g := by
  funext j
  rw [if_neg (by omega)]

/-- The pages `i` up to `i + n` get the frames of their own numbers. -/
theorem mapKernelImage_eq (i n : Nat) (hfit : i + n ≤ hw.MAX_PT_LEN) (b : Boot hw) (m : Memory) :
    mapKernelImage hw b.kernel_data_start (b.pmem_size / hw.PAGESIZE) m i n =
    { m with
      frame_bitMap := fun j => if i ≤ j ∧ j < i + n then true else m.frame_bitMap j
      region0_pt := fun j => if i ≤ j ∧ j < i + n then b.imageEntry j else m.region0_pt j } := by
  have hframes := b.frames_fit
  have hpfn := b.pfn_fits
  have hbelow := b.frames_below
  induction n generalizing i m with
  | zero =>
    rw [mapKernelImage, ite_range_zero, ite_range_zero]
  | succ n ih =>
    have hentry : (⟨true, if (i : Int) < b.kernel_data_start then Prot.readExec else Prot.readWrite, i⟩ : Pte) =
        b.imageEntry i := by simp [Boot.imageEntry]
    rw [mapKernelImage, if_neg (by omega), if_neg (by omega)]
    simp only
    rw [mapRegion0_eq (by omega), ih (i + 1) (by omega), hentry]
    simp only
    rw [ite_range_update _ b.imageEntry, ite_range_update _ fun _ => true]

/-- So do the pages of the kernel stack. -/
theorem mapBootStack_eq (i n : Nat) (hfit : i + n ≤ hw.MAX_PT_LEN) (b : Boot hw) (m : Memory) :
    mapBootStack hw (b.pmem_size / hw.PAGESIZE) m i n =
    { m with
      frame_bitMap := fun j => if i ≤ j ∧ j < i + n then true else m.frame_bitMap j
      region0_pt := fun j => if i ≤ j ∧ j < i + n then ⟨true, .readWrite, j⟩ else m.region0_pt j } := by
  have hframes := b.frames_fit
  have hpfn := b.pfn_fits
  have hbelow := b.frames_below
  induction n generalizing i m with
  | zero =>
    rw [mapBootStack, ite_range_zero, ite_range_zero]
  | succ n ih =>
    have hbits := ite_range_update m.frame_bitMap (fun _ => true) i n
    have htable := ite_range_update m.region0_pt (fun j => (⟨true, .readWrite, j⟩ : Pte)) i n
    rw [mapBootStack, if_neg (by omega), if_neg (by omega), mapRegion0_eq (by omega),
      ih (i + 1) (by omega), ← hbits, ← htable]

theorem HeapInv.mapBootStack (h : HeapInv b m) : HeapInv b (Yalnix.mapBootStack hw
    (b.pmem_size / hw.PAGESIZE) m hw.KSTACK_START_PAGE hw.kernelStackPages) := by
  have himage := b.image_fits
  have hfits := hw.stack_fits
  rw [mapBootStack_eq _ _ (by unfold Hardware.KSTACK_START_PAGE; omega)]
  constructor
  · intro j hj
    -- the stack is above the image and above the heap
    have hno : ¬ (hw.KSTACK_START_PAGE ≤ j ∧ j < hw.KSTACK_START_PAGE + hw.kernelStackPages) := by
      have hlt := hj.2
      unfold Hardware.tempMappingPage at himage
      omega
    simpa only [if_neg hno] using h.image j hj
  · intro j hj hnj
    have hno : ¬ (hw.KSTACK_START_PAGE ≤ j ∧ j < hw.KSTACK_START_PAGE + hw.kernelStackPages) := by omega
    simpa only [if_neg hno] using h.heap j hj hnj
  · exact h.brk

theorem Boot.region0_heapInv (b : Boot hw) : HeapInv b b.region0 := by
  have himage := b.image_fits
  have hstack := hw.stack_fits
  unfold Boot.region0 initRegion0PageTable
  simp only
  refine HeapInv.mapBootStack ?_
  -- what the heap is before anything is mapped
  have hbrk : 0 ≤ (0 : Int) ∧ hw.page 0 < hw.KSTACK_START_PAGE := by
    unfold Hardware.page Hardware.KSTACK_START_PAGE
    rw [Int.zero_ediv]
    omega
  by_cases hle : b.kernel_text_start ≤ b.kernel_brk_start
  · have hfit : b.kernel_text_start + (b.kernel_brk_start - b.kernel_text_start) ≤ hw.MAX_PT_LEN := by
      unfold Hardware.tempMappingPage Hardware.KSTACK_START_PAGE at himage
      omega
    have hpage : ∀ j, b.ImagePage j ↔ b.kernel_text_start ≤ j ∧
        j < b.kernel_text_start + (b.kernel_brk_start - b.kernel_text_start) := fun j => by
      unfold Boot.ImagePage
      omega
    rw [mapKernelImage_eq _ _ hfit]
    refine ⟨fun j hj => ⟨if_pos ((hpage j).1 hj), if_pos ((hpage j).1 hj)⟩, fun j _ hnj hv => ?_, hbrk⟩
    rw [hpage] at hnj
    have hv : (if _ then b.imageEntry j else Pte.zero).valid = true := hv
    rw [if_neg hnj] at hv
    cases hv
  · have hnone : ∀ j, ¬ b.ImagePage j := fun j hj => by
      have h₁ := hj.1
      have h₂ := hj.2
      omega
    rw [Nat.sub_eq_zero_of_le (by omega)]
    exact ⟨fun j hj => absurd hj (hnone j), fun j _ _ _ => hnone _, hbrk⟩

/-! ## Runs -/

/-- Kernel text and data stay in place in every run whose calls move the break over none of it. -/
theorem kernel_image_kept (b : Boot hw) {t : List (Memory × BrkEvent)}
    (hrun : Run (brkMachine b) (HeapCall b) b.region0 t m) : ImageKept b m :=
  (hrun.invariant b.region0_heapInv fun _ _ _ h hen hcall hstep => h.step hen hcall hstep).image

/-- The break is tracked up to the end of the image, and the heap grows and shrinks above it. -/
def heapEvents : List BrkEvent :=
  [.setKernelBrk 64, .enableVirtualMemory, .setKernelBrk 80, .setKernelBrk 64]

def heapEventsMemory : Memory :=
  ((brkMachine Boot.small).exec Boot.small.region0 heapEvents).get (by decide)

theorem kernel_image_kept_small : heapEventsMemory.region0_pt 1 = ⟨true, .readExec, 1⟩ ∧
    heapEventsMemory.frame_bitMap 1 = true :=
  kernel_image_kept Boot.small (Run.ofExec (Option.some_get _).symm (by decide +kernel)) 1
    ⟨by decide, by decide⟩

/-- With the break still at `NULL`, the first call after virtual memory is enabled maps fresh frames
from page 0 on, over the kernel text. -/
theorem kernel_image_lost : ∃ t m,
    Run (brkMachine Boot.small) (fun _ _ => True) Boot.small.region0 t m ∧ ¬ ImageKept Boot.small m := by
  refine ⟨_, ((brkMachine Boot.small).exec Boot.small.region0
    [.enableVirtualMemory, .setKernelBrk 64]).get (by decide), Run.ofExec (Option.some_get _).symm
    (by decide +kernel), fun h => ?_⟩
  exact absurd (h 1 ⟨by decide, by decide⟩) (by decide +kernel)

end Yalnix
