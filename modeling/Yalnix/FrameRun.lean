import Yalnix.Memory
import Yalnix.Transition.System

/-!
# Runs of the frame allocator

Calls of `allocate_frame`, `free_frame`, `map_page` and `unmap_page`, in any order and on any page tables.
Whether a frame is in use is told from the calls that were made, and not from `frame_bitMap`.
-/

namespace Yalnix

open Transition

variable (hw : Hardware)

/-- The frames, and the page tables by address. -/
structure FrameState where
  mem : Memory
  table : Nat → Nat → Pte

inductive FrameEvent where
  | allocateFrame
  | freeFrame (pfn : Int)
  | mapPage (page_table_base vpn : Nat) (pfn : Int) (prot : Prot)
  | unmapPage (page_table_base vpn : Nat)

/-- A frame that is mapped is one that the allocator looks at. -/
def frameMachine : System FrameState FrameEvent where
  enabled _ e := match e with
    | .mapPage _ _ pfn _ => Pte.pfnOfInt pfn < hw.NUM_VPN
    | _ => True
  step s e := match e with
    | .allocateFrame => some { s with mem := (allocateFrame hw s.mem).2 }
    | .freeFrame pfn => some { s with mem := freeFrame hw s.mem pfn }
    | .mapPage base vpn pfn prot =>
      let (m, pt) := mapPage s.mem (s.table base) vpn pfn prot
      some ⟨m, Function.update s.table base pt⟩
    | .unmapPage base vpn =>
      let (m, pt) := unmapPage hw s.mem (s.table base) vpn
      some ⟨m, Function.update s.table base pt⟩

instance (s : FrameState) : (e : FrameEvent) → Decidable ((frameMachine hw).enabled s e)
  | .mapPage _ _ pfn _ => inferInstanceAs (Decidable (Pte.pfnOfInt pfn < hw.NUM_VPN))
  | .allocateFrame | .freeFrame _ | .unmapPage _ _ => inferInstanceAs (Decidable True)

/-! ## Frames in use -/

/-- The call gives the frame out, or maps a page to it. -/
def Claims (f : Nat) : FrameState × FrameEvent → Prop
  | (s, .allocateFrame) => (allocateFrame hw s.mem).1 = f
  | (_, .mapPage _ _ pfn _) => Pte.pfnOfInt pfn = f
  | _ => False

/-- The call frees the frame, or takes its page from a table. -/
def GivesBack (f : Nat) : FrameState × FrameEvent → Prop
  | (_, .freeFrame pfn) => pfn = f
  | (s, .unmapPage base vpn) => (s.table base vpn).pfn = f
  | _ => False

/-- After the calls `t`, the frame is in use: it was in use at the start or a call has claimed it, and it has
not been given back since. -/
def InUse (s₀ : FrameState) (t : List (FrameState × FrameEvent)) (f : Nat) : Prop :=
  (s₀.mem.frame_bitMap f = true ∧ ∀ y ∈ t, ¬ GivesBack f y) ∨
    Since (Claims hw f) (GivesBack f) t

/-- What is to be said of the next call, after the calls `t` from `s₀` to `s`. -/
structure HandsOutFreeFrames (s₀ : FrameState) (t : List (FrameState × FrameEvent)) (s : FrameState) :
    Prop where
  fresh : ∀ f : Nat, (allocateFrame hw s.mem).1 = f → f < hw.NUM_VPN ∧ ¬ InUse hw s₀ t f
  full : (allocateFrame hw s.mem).1 = ERROR ↔ ∀ f < hw.NUM_VPN, InUse hw s₀ t f
  answers : (allocateFrame hw s.mem).1 = ERROR ∨ ∃ f : Nat, (allocateFrame hw s.mem).1 = f
  /-- The frame that is given out is the only one whose bit changes. -/
  only : ∀ f : Nat, (allocateFrame hw s.mem).2.frame_bitMap f =
    (s.mem.frame_bitMap f || decide ((allocateFrame hw s.mem).1 = f))
  rejects : ∀ pfn : Int, pfn < 0 ∨ hw.NUM_VPN ≤ pfn ∨ s.mem.frame_bitMap pfn.toNat = false →
    freeFrame hw s.mem pfn = s.mem

/-! ## Frames that exist -/

/-- `num_physical_frames` of `init_region0_pageTable`: the length of `frame_bitMap`. -/
def numPhysicalFrames (pmem_size : Nat) : Nat := ((pmem_size : Int) / hw.PAGESIZE).toNat

/-- The indices of `frame_bitMap` that the loop of `allocate_frame` reads and writes, from `i` on. -/
def loopAccesses (bits : Nat → Bool) (i : Nat) : Nat → List Nat
  | 0 => []
  | n + 1 => i :: if bits i = false then [i] else loopAccesses bits (i + 1) n

/-- The indices that `free_frame` reads and writes. -/
def freeAccesses (bits : Nat → Bool) (pfn : Int) : List Nat :=
  if pfn < 0 ∨ pfn ≥ hw.NUM_VPN then []
  else if bits pfn.toNat = false then [pfn.toNat]
  else [pfn.toNat, pfn.toNat]

/-- The indices of `frame_bitMap` that a call reads and writes. -/
def bitMapAccesses : FrameState × FrameEvent → List Nat
  | (s, .allocateFrame) => loopAccesses s.mem.frame_bitMap 0 hw.NUM_VPN
  | (s, .freeFrame pfn) => freeAccesses hw s.mem.frame_bitMap pfn
  | (_, .mapPage _ _ pfn _) => [Pte.pfnOfInt pfn]
  | (s, .unmapPage base vpn) => freeAccesses hw s.mem.frame_bitMap (s.table base vpn).pfn

/-- A call of `allocate_frame` or `free_frame`. -/
def FrameEvent.InAllocator : FrameEvent → Prop
  | .allocateFrame => True
  | .freeFrame _ => True
  | _ => False

/-- With a bitmap for `frames` frames, the call stays within it, and gives out none but these. -/
structure WithinFrames (frames : Nat) (x : FrameState × FrameEvent) : Prop where
  bounds : ∀ i ∈ bitMapAccesses hw x, i < frames
  answer : x.2 = .allocateFrame → ∀ f : Nat, (allocateFrame hw x.1.mem).1 = f → f < frames

/-- There are as many frames as the allocator looks at, or the call need not look further: one of them is
free, and the number that is given back is one of them or none that the allocator knows. -/
def FramesSuffice (frames : Nat) : FrameState × FrameEvent → Prop
  | (s, .allocateFrame) => hw.NUM_VPN ≤ frames ∨ ∃ i < frames, s.mem.frame_bitMap i = false
  | (_, .freeFrame pfn) => pfn < 0 ∨ hw.NUM_VPN ≤ pfn ∨ pfn < frames
  | _ => True

instance (frames : Nat) : (x : FrameState × FrameEvent) → Decidable (FramesSuffice hw frames x)
  | (s, .allocateFrame) =>
    inferInstanceAs (Decidable (hw.NUM_VPN ≤ frames ∨ ∃ i < frames, s.mem.frame_bitMap i = false))
  | (_, .freeFrame pfn) => inferInstanceAs (Decidable (pfn < 0 ∨ hw.NUM_VPN ≤ pfn ∨ pfn < frames))
  | (_, .mapPage _ _ _ _) | (_, .unmapPage _ _) => inferInstanceAs (Decidable True)

instance : (e : FrameEvent) → Decidable e.InAllocator
  | .allocateFrame | .freeFrame _ => inferInstanceAs (Decidable True)
  | .mapPage _ _ _ _ | .unmapPage _ _ => inferInstanceAs (Decidable False)

/-- The calls from `s` that meet `P` stay within `frames` frames. -/
def AllWithin (frames : Nat) (P : FrameEvent → Prop) (s₀ : FrameState) : Prop :=
  ∀ t s, Run (frameMachine hw) (fun _ e => P e) s₀ t s → ∀ x ∈ t, WithinFrames hw frames x

end Yalnix
