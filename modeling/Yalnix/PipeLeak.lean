import Yalnix.PipeResult

/-!
# What a read lets a process see

`SysPipeRead` copies the whole kernel buffer to the user, however many bytes `SyncReadPipe` has put into
it. Two calls that differ in what `malloc` has left in that buffer should not be told apart by the process.
-/

namespace Yalnix

variable (hw : Hardware)

/-- The bytes of user memory, by process and address. -/
abbrev UserMemory := PcbPtr → Int → UInt8

/-- `mem` with the bytes `data` from `addr` on. -/
def writeBytes (mem : Int → UInt8) (addr : Int) (data : List UInt8) : Int → UInt8 := fun a =>
  if addr ≤ a ∧ a < addr + data.length then data.getD (a - addr).toNat 0 else mem a

/-- The four bytes of an `int`, lowest first. -/
def wordBytes (v : Int) : List UInt8 :=
  (List.range 4).map fun i => UInt8.ofNat ((v % 2 ^ 32).toNat / 256 ^ i)

def UserStore.apply (mem : UserMemory) : UserStore → UserMemory
  | word p addr v => Function.update mem p (writeBytes (mem p) addr (wordBytes v))
  | bytes p addr data => Function.update mem p (writeBytes (mem p) addr data)

namespace Kernel

/-- What user memory holds after the stores of the kernel, if it held `mem` before them. -/
def userMemory (k : Kernel) (mem : UserMemory) : UserMemory := k.userStores.foldl UserStore.apply mem

/-- `malloc` has left `contents` in the buffer. -/
def withBuffer (k : Kernel) (kbuf : BufPtr) (contents : Nat → UInt8) : Kernel :=
  { k with kbuf := Function.update k.kbuf kbuf contents }

end Kernel

/-- Whatever was in the buffer `kbuf` when the current process reads a pipe, the memory of users is the same
afterwards, and only the bytes that were read from the pipe have been written to it. -/
structure ReadsPrivately (k : Kernel) (kbuf : BufPtr) : Prop where
  same : ∀ c₁ c₂ k₁ k₂, sysPipeRead hw (k.withBuffer kbuf c₁) kbuf = some k₁ →
    sysPipeRead hw (k.withBuffer kbuf c₂) kbuf = some k₂ → ∀ mem, k₁.userMemory mem = k₂.userMemory mem
  only : ∀ c k', sysPipeRead hw (k.withBuffer kbuf c) kbuf = some k' →
    ∃ h, k'.pipeHistory = k.pipeHistory ++ h ∧ ∀ mem, k'.userMemory mem =
      Function.update (k.userMemory mem) k.current_process
        (writeBytes (k.userMemory mem k.current_process) (k.uctxt.regs 1)
          (movedBytes (k.uctxt.regs 0).toNat k.current_process h))

/-- The read is refused, or the pipe has all the bytes that it asks for. -/
def ReadIsFull (k : Kernel) : Prop :=
  readable k (k.uctxt.regs 0) = true →
    ∀ pipe ∈ k.pipe (k.uctxt.regs 0).toNat, k.uctxt.regs 2 ≤ pipe.bytes_in_buffer

end Yalnix
