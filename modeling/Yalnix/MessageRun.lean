import Yalnix.MemoryRun
import Yalnix.Paging.Message
import Yalnix.PipeRun

/-!
# Processes and pipes

What the machine with the contents of its frames is to those who use it: processes with memories of their own,
which send each other bytes through pipes. The kernel buffers, the rings and the frames are not seen.
-/

namespace Yalnix

open Paging Transition

variable (hw : Hardware)

/-- The bytes in the pipe in slot `i`. -/
def Kernel.channel (k : Kernel) (i : Nat) : List UInt8 := (k.pipe i).elim [] (Pipe.contents hw)

/-- The memories of the processes, and the pipes. -/
def network (s : Kernel × Frames UInt8) : Network PcbPtr Nat UInt8 := (memories hw s, s.1.channel hw)

/-- What an event that has led from `s` to `s'` is to processes and pipes. -/
def TrapEvent.toMessage (s s' : Kernel × Frames UInt8) : TrapEvent → Option (MessageEvent PcbPtr Nat UInt8)
  | .kernel u (.pipeWrite _ _) =>
    if writable s.1 (u.regs 0) then
      some (.send s.1.current_process (u.regs 0).toNat (addressOf (u.regs 1)) (u.regs 2).toNat)
    else none
  | .kernel u (.pipeRead _) =>
    if readable s.1 (u.regs 0) then
      some (.receive s.1.current_process (u.regs 0).toNat (addressOf (u.regs 1)) (u.regs 2).toNat
        (((s.1.userWrites s'.1).flatMap Prod.snd).drop (s.1.channel hw (u.regs 0).toNat).length))
    else none
  | e => (e.toPrivate hw s s').map .own

def MemoryEvent.toMessage (s : Kernel × Frames UInt8) : MemoryEvent → Option (MessageEvent PcbPtr Nat UInt8)
  | .store addr b => some (.own (.store s.1.current_process [(addr, [b])]))
  | .trap e o => ((memoryMachine hw).step s (.trap e o)).bind fun s' => e.toMessage hw s s'

/-! ## What the callers have in their memories -/

/-- What the caller has where it asks `SysPipeWrite` to take the bytes for the pipe in slot `i`. -/
def sentTo (i : Nat) : (Kernel × Frames UInt8) × MemoryEvent → List UInt8
  | (s, .trap (.kernel u (.pipeWrite _ _)) _) =>
    if u.regs 0 = i ∧ writable s.1 i then
      (fetch (memories hw s s.1.current_process) (addressOf (u.regs 1)) (u.regs 2).toNat).getD []
    else []
  | _ => []

/-- What the caller of `SysPipeRead` has, after the call, where it asked for bytes of the pipe in slot `i`: as
many as it asked for, or as there were. -/
def receivedFrom (i : Nat) : (Kernel × Frames UInt8) × MemoryEvent → List UInt8
  | (s, .trap (.kernel u (.pipeRead kbuf)) o) =>
    if u.regs 0 = i ∧ readable s.1 i then
      (((memoryMachine hw).step s (.trap (.kernel u (.pipeRead kbuf)) o)).bind fun s' =>
        fetch (memories hw s' s.1.current_process) (addressOf (u.regs 1))
          (min (u.regs 2).toNat (s.1.channel hw i).length)).getD []
    else []
  | _ => []

end Yalnix
