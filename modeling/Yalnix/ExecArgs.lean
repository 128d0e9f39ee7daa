import Yalnix.ForkMemory
import Yalnix.Paging.Strings

/-!
# The arguments of a new program

How `LoadProgram` carries the bytes of the arguments over: from the old address space to `argbuf`, and from
there to the top of the new stack, with the pointers to them below.
-/

namespace Yalnix

open Paging

variable (hw : Hardware)

/-- What the framework promises of its constants: addresses are 32-bit words, the bits of a page table entry
hold every frame number, and the space that is left free on a new stack is not negative and not huge. -/
structure Hardware.UserStack : Prop where
  shift : 0 < hw.PAGESHIFT
  frames : hw.NUM_VPN ≤ 2 ^ 24
  limit : hw.VMEM_1_LIMIT < 2 ^ 32
  post : 0 ≤ hw.POST_ARGV_NULL_SPACE
  frame : 0 ≤ hw.INITIAL_STACK_FRAME_SIZE
  small : hw.INITIAL_STACK_FRAME_SIZE + hw.PAGESIZE + 8 ≤ 2 ^ 31

/-- The address after the last byte of region 1. -/
def Hardware.limitAddr : Nat := hw.VMEM_1_LIMIT.toNat

/-- The stores to the new stack: the contents of the frames, and the addresses written so far. -/
structure StackState where
  frames : Frames UInt8
  written : List Nat

/-- The bytes `bs` from `addr` on, through the table `t`. -/
def StackState.put (t : Table) (addr : Nat) (bs : List UInt8) (st : StackState) : Option StackState := do
  let frames ← storeList hw.pageBytes t addr bs st.frames
  return ⟨frames, st.written ++ List.range' addr bs.length⟩

/-- What a program reads through the table `t`. -/
def StackState.read (t : Table) (st : StackState) : Reader := load hw.pageBytes t st.frames

/-- The loop that saves the arguments in `argbuf`, from the pointer at `args` on. The vector has less than `n`
words. -/
def saveArgs (read : Reader) (args cp2 : Nat) (argbuf : Buffer) : Nat → Option Buffer
  | 0 => none
  | n + 1 => do
    let arg ← readWord read args
    if arg = 0 then return argbuf
    else
      let s ← readString read arg (hw.limitAddr - arg)
      let argbuf ← argbuf.write cp2 (terminated s)
      let saved ← readString argbuf.read cp2 (argbuf.size - cp2)
      saveArgs read (args + 4) (cp2 + (saved.length + 1)) argbuf n

/-- The loop that copies the arguments to the new stack and sets the pointers to them, with `n` turns to go. -/
def copyArgs (t : Table) (argbuf : Buffer) (cp cpp cp2 : Nat) (st : StackState) :
    Nat → Option (Nat × StackState)
  | 0 => some (cpp, st)
  | n + 1 => do
    let st ← st.put hw t cpp (word cp)
    let arg ← readString argbuf.read cp2 (argbuf.size - cp2)
    let st ← st.put hw t cp (terminated arg)
    let copied ← readString (st.read hw t) cp (hw.limitAddr - cp)
    copyArgs t argbuf (cp + (copied.length + 1)) (cpp + 4) (cp2 + (arg.length + 1)) st n

namespace LoadRequest

variable (req : LoadRequest)

/-- The address of the argument pointers. -/
def cppAddr : Nat := (req.cpp hw).toNat

/-- The address of the first argument on the new stack. -/
def cpAddr : Nat := ((hw.VMEM_1_LIMIT - req.size) % 2 ^ 32).toNat

end LoadRequest

/-- The argument list on the new stack, from the `memset` on. -/
def buildArgs (t : Table) (req : LoadRequest) (argbuf : Buffer) (st : StackState) : Option StackState := do
  let cpp := req.cppAddr hw
  let st ← st.put hw t cpp (List.replicate (hw.limitAddr - cpp) 0)
  let st ← st.put hw t cpp (word req.args.length)
  let (cpp, st) ← copyArgs hw t argbuf (req.cpAddr hw) (cpp + 4) 0 st req.args.length
  let st ← st.put hw t cpp (word 0)
  st.put hw t (cpp + 4) (word 0)

/-- `LoadProgram` for the running process, with the bytes of the arguments. Their vector is at `args`; `heap` is
what `malloc` leaves in `argbuf`, and `image` what the frames hold once the text and the data have been read
and the uninitialized data is zeroed. -/
def loadProgramBytes (m : Memory) (proc : Pcb) (req : LoadRequest) (args : Nat) (heap : Nat → UInt8)
    (frames image : Frames UInt8) : Option (LoadResult × Memory × Pcb × StackState) := do
  let (rc, m', proc') ← loadProgram hw m proc req
  if rc = .success then
    let old := load hw.pageBytes (m.space hw proc.region1_pt) frames
    let argbuf ← saveArgs hw old args 0 ⟨req.size.toNat, heap⟩ hw.limitAddr
    let st ← buildArgs hw (m'.space hw proc'.region1_pt) req argbuf ⟨image, []⟩
    return (rc, m', proc', st)
  else return (rc, m', proc', ⟨image, []⟩)

/-- The arguments are the strings of the vector at `args` in the address space of the caller. -/
def ReadsArgs (m : Memory) (proc : Pcb) (req : LoadRequest) (args : Nat) (frames : Frames UInt8) : Prop :=
  readVector (load hw.pageBytes (m.space hw proc.region1_pt) frames) hw.limitAddr args hw.limitAddr =
    some req.args

/-- The bytes of the strings with their terminators, and those of the pointer area. -/
def LoadRequest.argBytes (req : LoadRequest) : Int :=
  (packed req.args).length + (req.args.length + 3 + hw.POST_ARGV_NULL_SPACE) * 4

/-- The new program finds its arguments: `argc` at `cpp`, the vector of the strings with its null pointer, and
a null pointer for an empty environment. The pointers lie below the strings, and each string ends where the
next one starts, the last one at the end of region 1. Nothing was written but above the first stack frame, in
pages of the stack. -/
structure ArgsSurvive (req : LoadRequest) (m : Memory) (proc : Pcb) (st : StackState) : Prop where
  argc : readWord (st.read hw (m.space hw proc.region1_pt)) (req.cppAddr hw) = some req.args.length
  argv : readVector (st.read hw (m.space hw proc.region1_pt)) hw.limitAddr (req.cppAddr hw + 4) hw.limitAddr =
    some req.args
  envp : readWord (st.read hw (m.space hw proc.region1_pt))
    (req.cppAddr hw + 4 * (req.args.length + 2)) = some 0
  pointers : ∀ i < req.args.length, readWord (st.read hw (m.space hw proc.region1_pt))
    (req.cppAddr hw + 4 + 4 * i) = some (hw.limitAddr - (packed (req.args.drop i)).length)
  apart : req.cppAddr hw + (req.args.length + 3 + hw.POST_ARGV_NULL_SPACE) * 4 ≤
    hw.limitAddr - ((packed req.args).length : Int)
  aligned : req.cppAddr hw % 8 = 0
  sp : proc.user_context.sp + hw.INITIAL_STACK_FRAME_SIZE = req.cppAddr hw
  written : ∀ a ∈ st.written, proc.user_context.sp + hw.INITIAL_STACK_FRAME_SIZE ≤ a ∧
    ∃ i < hw.MAX_PT_LEN, a / hw.pageBytes = hw.MAX_PT_LEN + i ∧ hw.MAX_PT_LEN - req.stack_npg hw ≤ i ∧
      (proc.region1_pt i).valid = true ∧ (proc.region1_pt i).prot = .readWrite

end Yalnix
