import Yalnix.IdChecks
import Yalnix.Vectors

/-!
# What a handler may change

A handler runs for one process and is made of few kinds of actions. A relation between states that allows
each of these actions allows every handler, so that what no handler ever does is proved once for all of
them.
-/

namespace Yalnix

/-- The process in whose memory a store lands. -/
def UserStore.process : UserStore → PcbPtr
  | word p _ _ => p
  | bytes p _ _ => p

/-- What of a PCB only its own process changes, while it runs. Register 0 of the saved context takes the
results that others hand over. -/
structure SamePrivate (a b : Pcb) : Prop where
  region1_pt : b.region1_pt = a.region1_pt
  brk : b.brk = a.brk
  kernel_context : b.kernel_context = a.kernel_context
  exit_code : b.exit_code = a.exit_code
  waiting_for_children : b.waiting_for_children = a.waiting_for_children
  should_fork : b.should_fork = a.should_fork
  user_context : ∀ v, b.user_context.setReg0 v = a.user_context.setReg0 v

/-- A change of a PCB by a handler: `own` if it is that of the process that runs, `new` if `malloc` has
just given out its address. -/
structure PcbChange (new own : Prop) (a b : Pcb) : Prop where
  pid : b.pid = a.pid
  time_slice : b.time_slice = a.time_slice
  kernel_stack : ¬ new → b.kernel_stack = a.kernel_stack
  others : ¬ new → ¬ own → SamePrivate a b

/-- The mappings of the kernel are the same, but for the page for temporary mappings, and that is no more
valid than it was. -/
structure SameKernelMap (hw : Hardware) (m m' : Memory) : Prop where
  entry : ∀ i, i ≠ hw.tempMappingPage → m'.region0_pt i = m.region0_pt i
  temp : (m'.region0_pt hw.tempMappingPage).valid = true → (m.region0_pt hw.tempMappingPage).valid = true
  kernel_brk : m'.kernel_brk = m.kernel_brk
  vm_enabled : m'.vm_enabled = m.vm_enabled
  ptbr1 : m'.ptbr1 = m.ptbr1

/-- The type of the object in slot `i` of the table. -/
def Kernel.slotType (k : Kernel) (i : Nat) : Option SyncType := (k.sync_table i).map (·.object.type)

/-- `R` allows every action that handlers are made of; `new` are the addresses that `malloc` gives out
meanwhile, and `gone` the ids that are reclaimed. -/
structure Allows (hw : Hardware) (new : PcbPtr → Prop) (gone : Int → Prop) (R : Kernel → Kernel → Prop) :
    Prop where
  refl : ∀ k, R k k
  trans : ∀ {k k₁ k'}, R k k₁ → R k₁ k' → R k k'
  current : ∀ {k k'}, R k k' → k'.current_process = k.current_process
  /-- Lists, buffers, status cells, the trap frame and the mode. -/
  links : ∀ {k k' : Kernel}, k' = { k with
    queues := k'.queues
    family := k'.family
    kbuf := k'.kbuf
    kbufFreed := k'.kbufFreed
    kstatus := k'.kstatus
    kstatusAllocated := k'.kstatusAllocated
    uctxt := k'.uctxt
    mode := k'.mode
    pipeHistory := k'.pipeHistory } → R k k'
  /-- A store into the memory of the process that runs. -/
  store : ∀ {k : Kernel} {s : UserStore}, s.process = k.current_process → R k (k.storeUser s)
  pcb : ∀ {k : Kernel} {p : PcbPtr} {f : Pcb → Pcb},
    PcbChange (new p) (p = k.current_process) (k.pcb p) (f (k.pcb p)) → R k (k.modifyPcb p f)
  free : ∀ {k : Kernel} {p : PcbPtr}, R k (k.free p)
  memory : ∀ {k : Kernel} {m : Memory}, SameKernelMap hw k.mem m → R k { k with mem := m }
  /-- A process resumes, and the machine walks its table. -/
  walk : ∀ {k : Kernel}, R k { k with mem := { k.mem with ptbr1 := some k.current_process } }
  object : ∀ {k : Kernel} {i : Nat} (o : SyncObject), k.slotType i = some o.type → R k (k.setObject i o)
  init : ∀ {k k' : Kernel} {o : SyncObject} {allocated : Bool} {rc : Int},
    initSyncObject k o allocated = some (rc, k') → R k k'
  reclaim : ∀ {k k' : Kernel} {id rc : Int}, gone id → syncReclaim k id = some (rc, k') → R k k'

/-- The address that `malloc` gives to a fork. -/
def VectorEvent.Gives : VectorEvent → PcbPtr → Prop
  | .trap _ a, p => p = a.child_pcb
  | _, _ => False

instance (p : PcbPtr) : (e : VectorEvent) → Decidable (e.Gives p)
  | .trap _ a => inferInstanceAs (Decidable (p = a.child_pcb))
  | .schedule => inferInstanceAs (Decidable False)
  | .resume => inferInstanceAs (Decidable False)

/-- The id that a trap asks to reclaim. -/
def VectorEvent.Reclaims (h : Header) : VectorEvent → Int → Prop
  | .trap u _, id => findTrap h u = some .kernelHandler ∧ findSyscall h u = some .sysReclaim ∧ id = u.regs 0
  | _, _ => False

instance (h : Header) (id : Int) : (e : VectorEvent) → Decidable (e.Reclaims h id)
  | .trap u _ => inferInstanceAs (Decidable
      (findTrap h u = some .kernelHandler ∧ findSyscall h u = some .sysReclaim ∧ id = u.regs 0))
  | .schedule => inferInstanceAs (Decidable False)
  | .resume => inferInstanceAs (Decidable False)

end Yalnix
