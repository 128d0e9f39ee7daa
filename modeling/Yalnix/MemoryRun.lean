import Yalnix.Dispatch
import Yalnix.ExecArgs
import Yalnix.FrameOwners
import Yalnix.Paging.Private
import Yalnix.PipeLeak

/-!
# The memory of processes

The machine with the contents of its frames. Programs store bytes at virtual addresses, the kernel stores for
them what its calls hand over, a fork copies and a new program is read in. Every address goes through the tables
as they are at that moment; one outside region 1 leaves no result, as the kernel would there overwrite itself.
-/

namespace Yalnix

open Paging Transition

variable (hw : Hardware)

/-- Region 1 through the table `region1_pt`. -/
def userTable (region1_pt : Nat → Pte) : Table := fun vpn =>
  if hw.MAX_PT_LEN ≤ vpn ∧ vpn < 2 * hw.MAX_PT_LEN then (region1_pt (vpn - hw.MAX_PT_LEN)).frame else none

/-- Its pages that may be written. -/
def writableTable (region1_pt : Nat → Pte) : Table := fun vpn =>
  if (region1_pt (vpn - hw.MAX_PT_LEN)).prot.write then userTable hw region1_pt vpn else none

/-- A word as an address. -/
def addressOf (n : Int) : Nat := (n % 2 ^ 32).toNat

def UserStore.data : UserStore → Nat × List UInt8
  | word _ addr v => (addressOf addr, wordBytes v)
  | bytes _ addr data => (addressOf addr, data)

/-- The stores into user memory between `k` and `k'`. -/
def Kernel.userWrites (k k' : Kernel) : Stores UInt8 := (k'.userStores.drop k.userStores.length).map UserStore.data

/-! ## LoadProgram -/

/-- What the outside has for `LoadProgram`: the bytes that the two reads deliver, the bounds of the uninitialized
data, and what `malloc` leaves in `argbuf`. -/
structure ProgramBytes where
  text : List UInt8
  data : List UInt8
  id_end : Int
  ud_end : Int
  heap : Nat → UInt8

/-- The stores of the reads and of `bzero`, as far as `LoadProgram` gets. -/
def ProgramBytes.stores (o : ProgramBytes) (req : LoadRequest) (li : LoadInfo) : Stores UInt8 :=
  (addressOf li.t_vaddr, o.text) ::
    if req.textRead then
      (addressOf li.id_vaddr, o.data) ::
        if req.dataRead then [(addressOf o.id_end, List.replicate ((o.ud_end - o.id_end) % 2 ^ 32).toNat 0)] else []
    else []

/-- The frames after `LoadProgram` for the running process, in a call of `SysExec`. -/
def loadBytes (k : Kernel) (req : LoadRequest) (o : ProgramBytes) (frames : Frames UInt8) :
    Option (Frames UInt8) := do
  let proc := k.pcb k.current_process
  let (rc, _, proc') ← loadProgram hw k.mem proc req
  if rc = .error then return frames
  else
    let li ← req.li
    let old := load hw.pageBytes (userTable hw proc.region1_pt) frames
    let argbuf ← saveArgs hw old (addressOf (k.uctxt.regs 1)) 0 ⟨req.size.toNat, o.heap⟩ hw.limitAddr
    let frames ← storeAll hw.pageBytes (userTable hw proc'.region1_pt) (o.stores req li) frames
    if rc = .kill then return frames
    else
      let st ← buildArgs hw (userTable hw proc'.region1_pt) req argbuf ⟨frames, []⟩
      return st.frames

/-! ## The machine -/

/-- A program stores a byte, or there is a trap, a switch or a return. -/
inductive MemoryEvent where
  | store (addr : Nat) (b : UInt8)
  | trap (e : TrapEvent) (o : ProgramBytes)

/-- What the kernel reads in the memory of its caller: the arguments of a program, and the bytes for a pipe. -/
def Syscall.Reads (k : Kernel) (frames : Frames UInt8) : Syscall → Prop
  | .exec req => ∀ li ∈ req.li, ¬ li.entry % 2 ^ 32 < hw.VMEM_1_BASE →
    readVector (load hw.pageBytes (userTable hw k.liveTable) frames) hw.limitAddr (addressOf (k.uctxt.regs 1))
      hw.limitAddr = some req.args
  | .pipeWrite _ data => ∀ i < (k.uctxt.regs 2).toNat,
    load hw.pageBytes (userTable hw k.liveTable) frames (addressOf (k.uctxt.regs 1) + i) = some (data i)
  | _ => True

def TrapEvent.Reads (k : Kernel) (frames : Frames UInt8) : TrapEvent → Prop
  | .kernel u c => c.Reads hw { k with uctxt := u } frames
  | _ => True

/-- The frames after an event that has led from `k` to `k'`. -/
def trapBytes (k : Kernel) (e : TrapEvent) (o : ProgramBytes) (k' : Kernel) (frames : Frames UInt8) :
    Option (Frames UInt8) :=
  match e with
  | .kernel u (.fork child_pcb) =>
    if (k.pcb k.current_process).should_fork then
      (forkMemoryBytes hw (createPcb hw { k with uctxt := u } child_pcb) k.current_process child_pcb frames).map
        Prod.snd
    else some frames
  | .kernel u (.exec req) => loadBytes hw { k with uctxt := u } req o frames
  | _ => storeAll hw.pageBytes (writableTable hw k'.liveTable) (k.userWrites k') frames

/-- The trap machine with the contents of its frames. -/
def memoryMachine : System (Kernel × Frames UInt8) MemoryEvent where
  enabled s e := match e with
    | .store _ _ => s.1.mode = .user ∧ s.1.current_process ≠ s.1.idle_process
    | .trap e _ => (trapMachine hw).enabled s.1 e ∧ e.Reads hw s.1 s.2
  step s e := match e with
    | .store addr b =>
      (storeAll hw.pageBytes (writableTable hw s.1.liveTable) [(addr, [b])] s.2).map fun frames => (s.1, frames)
    | .trap e o => do
      let k' ← (trapMachine hw).step s.1 e
      let frames ← trapBytes hw s.1 e o k' s.2
      return (k', frames)

/-- No call has to wait, and frames that are given up are given back. -/
def KeepsMemories (s : Kernel × Frames UInt8) : MemoryEvent → Prop
  | .store _ _ => True
  | .trap e _ => NeverWaits hw s.1 e ∧ KeepsOwners hw s.1 e

/-! ## What processes see of it -/

/-- The table through which a process finds its memory, as long as it lives. -/
def Kernel.spaceOf (k : Kernel) (p : PcbPtr) : Table :=
  if k.Lives p then userTable hw (k.pcb p).region1_pt else fun _ => none

/-- The memory of each process. -/
def memories (s : Kernel × Frames UInt8) : PcbPtr → Private UInt8 := view hw.pageBytes (s.1.spaceOf hw) s.2

/-- What an event that has led from `s` to `s'` is to the memories. -/
def TrapEvent.toPrivate (s s' : Kernel × Frames UInt8) : TrapEvent → Option (PrivateEvent PcbPtr UInt8)
  | .kernel _ (.fork child_pcb) =>
    if (s.1.pcb s.1.current_process).should_fork then some (.copy s.1.current_process child_pcb) else none
  | .kernel _ (.exec _) => some (.replace s.1.current_process (memories hw s' s.1.current_process))
  | .kernel _ .brk => some (.extend s.1.current_process (memories hw s' s.1.current_process))
  | .kernel _ .exit => some (.drop s.1.current_process)
  | .schedule => none
  | _ => some (.store s.1.current_process (s.1.userWrites s'.1))

def MemoryEvent.toPrivate (s : Kernel × Frames UInt8) : MemoryEvent → Option (PrivateEvent PcbPtr UInt8)
  | .store addr b => some (.store s.1.current_process [(addr, [b])])
  | .trap e o => ((memoryMachine hw).step s (.trap e o)).bind fun s' => e.toPrivate hw s s'

instance (k : Kernel) (frames : Frames UInt8) : (c : Syscall) → Decidable (c.Reads hw k frames)
  | .exec req => inferInstanceAs (Decidable (∀ li ∈ req.li, ¬ li.entry % 2 ^ 32 < hw.VMEM_1_BASE →
    readVector (load hw.pageBytes (userTable hw k.liveTable) frames) hw.limitAddr (addressOf (k.uctxt.regs 1))
      hw.limitAddr = some req.args))
  | .pipeWrite _ data => inferInstanceAs (Decidable (∀ i < (k.uctxt.regs 2).toNat,
    load hw.pageBytes (userTable hw k.liveTable) frames (addressOf (k.uctxt.regs 1) + i) = some (data i)))
  | .fork _ | .exit | .wait _ | .getPid | .brk | .delay | .pipeInit _ _ | .pipeRead _ | .lockInit _
  | .lockAcquire | .lockRelease | .cvarInit _ | .signal | .broadcast _ | .cvarWait | .unimplemented =>
    inferInstanceAs (Decidable True)

instance (k : Kernel) (frames : Frames UInt8) : (e : TrapEvent) → Decidable (e.Reads hw k frames)
  | .kernel u c => inferInstanceAs (Decidable (c.Reads hw { k with uctxt := u } frames))
  | .clock _ | .schedule | .resume => inferInstanceAs (Decidable True)

instance (s : Kernel × Frames UInt8) : (e : MemoryEvent) → Decidable ((memoryMachine hw).enabled s e)
  | .store _ _ => inferInstanceAs (Decidable (s.1.mode = .user ∧ s.1.current_process ≠ s.1.idle_process))
  | .trap e _ => inferInstanceAs (Decidable ((trapMachine hw).enabled s.1 e ∧ e.Reads hw s.1 s.2))

end Yalnix
