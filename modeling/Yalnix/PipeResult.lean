import Yalnix.Blocking
import Yalnix.TrapRun

/-!
# The results of the pipe calls

`sync.c` stores the count of a pipe call in the saved context of the process. `SysPipeRead` and
`SysPipeWrite` go back to the process at once, with `regs[0]` of the trap frame as it came in: the id.
-/

namespace Yalnix

variable (hw : Hardware)

/-- The process `p` traps with the user context `u`. -/
def Kernel.trapped (k : Kernel) (p : PcbPtr) (u : UserContext) : Kernel :=
  { k with current_process := p, uctxt := u, mode := .user }

/-- `memcpy(kbuf, buf, len)` into a new buffer, of the bytes `data` that user memory holds from `buf` on. -/
def Kernel.copyFromUser (k : Kernel) (kbuf : BufPtr) (data : Nat → UInt8) (len : Int) : Kernel :=
  { k.mallocBuffer kbuf with kbuf := Function.update k.kbuf kbuf fun i =>
      if (i : Int) < len then data i else k.kbuf kbuf i }

/-- The system calls that move bytes, with what the outside answers to each. -/
inductive PipeSyscall where
  | read (kbuf : BufPtr)
  | write (kbuf : BufPtr) (data : Nat → UInt8)

namespace PipeSyscall

def syscall : PipeSyscall → Syscall
  | read kbuf => .pipeRead kbuf
  | write kbuf data => .pipeWrite kbuf data

/-- The call of `SyncReadPipe` or `SyncWritePipe` that the handler makes. -/
def sync (k : Kernel) : PipeSyscall → Option (Int × Kernel)
  | read kbuf => syncReadPipe hw (k.mallocBuffer kbuf) (k.uctxt.regs 0) kbuf (k.uctxt.regs 2)
  | write kbuf data =>
    syncWritePipe hw (k.copyFromUser kbuf data (k.uctxt.regs 2)) (k.uctxt.regs 0) kbuf (k.uctxt.regs 2)

end PipeSyscall

/-- The bytes that went between the process `p` and the pipe in slot `i`. -/
def movedBytes (i : Nat) (p : PcbPtr) (h : List PipeEvent) : List UInt8 :=
  h.flatMap fun e => match e with
    | .accepted j q bytes => if j = i ∧ q = p then bytes else []
    | .delivered j q bytes => if j = i ∧ q = p then bytes else []
    | _ => []

/-- Control is back with the process that made the call `c` in `k`, and `regs[0]` is `ERROR` if `sync.c`
refused the call. Otherwise the process waits for nothing more, and `regs[0]` is the number of bytes that
the call has moved. -/
structure TrueResult (k : Kernel) (c : PipeSyscall) (k' : Kernel) : Prop where
  back : k'.mode = .user ∧ k'.current_process = k.current_process
  error : ∀ k₁, c.sync hw k = some (ERROR, k₁) → k'.uctxt.regs 0 = ERROR
  count : ∀ rc k₁, c.sync hw k = some (rc, k₁) → rc ≠ ERROR →
    (∀ v, k.current_process ∉ k'.queue (.wait v)) ∧
    ∃ h, k'.pipeHistory = k.pipeHistory ++ h ∧
      k'.uctxt.regs 0 = (movedBytes (k.uctxt.regs 0).toNat k.current_process h).length

/-- The id of a read is its result: `ERROR`, which is no id, or the number of bytes that an open pipe
with bytes has for it. -/
def ReadInId (k : Kernel) (id len : Int) : Prop :=
  id = ERROR ∨ readable k id = true ∧ 0 ≤ len ∧
    ∃ pipe ∈ k.pipe id.toNat, pipe.bytes_in_buffer ≠ 0 ∧ id = min len pipe.bytes_in_buffer

/-- A write is done at once: it fits, or the drain loops finish it. -/
def WriteAtOnce (k : Kernel) (id : Int) (buf : BufPtr) (len : Int) : Prop :=
  (∃ pipe ∈ k.pipe id.toNat, len ≤ (hw.PIPE_BUFFER_LEN - pipe.bytes_in_buffer).toNat) ∨
    WriteDrains hw k (.writePipe id buf len)

/-- The id of a write is its result: `ERROR`, or the length of a write to an open pipe that is done at
once. -/
def WriteInId (k : Kernel) (id : Int) (buf : BufPtr) (len : Int) : Prop :=
  0 ≤ len ∧ (id = ERROR ∨ writable k id = true ∧ id = len ∧ WriteAtOnce hw k id buf len)

/-- What comes in as the id in `regs[0]` is what should come out. -/
def ResultInId (k : Kernel) : PipeSyscall → Prop
  | .read _ => ReadInId k (k.uctxt.regs 0) (k.uctxt.regs 2)
  | .write kbuf _ => WriteInId hw k (k.uctxt.regs 0) kbuf (k.uctxt.regs 2)

end Yalnix
