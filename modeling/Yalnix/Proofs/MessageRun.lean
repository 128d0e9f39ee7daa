import Yalnix.Paging.Proofs.Message
import Yalnix.Proofs.MemoryRun
import Yalnix.Proofs.PipeChannels

/-!
# Processes that send each other bytes

The machine does to the memories of processes and to the pipes what a machine does in which processes have private
memories and pipes are queues of bytes. So what readers find in their memories is what writers had in theirs.
-/

namespace Yalnix

open Intrusive Paging Transition

variable {hw : Hardware} {b : Boot hw} {k k' k₀ : Kernel} {frames frames' : Frames UInt8} {p : PcbPtr}
  {apart : Nat → Prop} {s s' : Kernel × Frames UInt8} {e : MemoryEvent} {d : TrapEvent} {o : ProgramBytes} {i : Nat}
  {t t₁ t₂ : List ((Kernel × Frames UInt8) × MemoryEvent)}

/-! ## The invariant -/

/-- What holds in every state of a run in which no call has to wait. -/
structure MessageInv (hw : Hardware) (apart : Nat → Prop) (k : Kernel) : Prop where
  memory : MemoryInv hw apart k
  valid : PipesValid hw k

/-- The pipes stay valid: what is taken is there, and what is put has room. -/
theorem MessageInv.trapValid (h : MessageInv hw apart k) (hen : (trapMachine hw).enabled k d)
    (hok : NeverWaits hw k d) (hstep : (trapMachine hw).step k d = some k') : PipesValid hw k' := by
  by_cases hpipe : d.OnPipe
  · cases d with
    | kernel u c =>
      obtain ⟨hmode, hidle, -⟩ := hen
      have hu : Calm hw { k with uctxt := u } k.queue := h.memory.calm.congr rfl
      have hvalid : PipesValid hw { k with uctxt := u } := h.valid
      cases c with
      | pipeRead kbuf =>
        cases hu.readParts hmode hidle hok hstep with
        | refused hno hpipes => exact (PipesStay.of_table hpipes).valid hvalid
        | takes hid hopen hp hne hlen hself hother =>
          have hv := hvalid _ _ hp
          have hnonneg := hv.nonneg
          exact hvalid.set hp (hv.drop (by omega)) hself hother
      | pipeWrite kbuf data =>
        cases (hu.writeParts hmode hidle hvalid hok hstep).1 with
        | refused hno hpipes => exact (PipesStay.of_table hpipes).valid hvalid
        | puts hid hopen hp hroom hself hother =>
          have hv := hvalid _ _ hp
          refine hvalid.set hp (hv.putAll _ ?_).1 hself hother
          rw [List.length_map, List.length_range]
          omega
      | _ => exact hpipe.elim
    | _ => exact hpipe.elim
  · exact (h.memory.calm.step_pipes hen hok hstep hpipe).valid h.valid

theorem MessageInv.messageStep (h : MessageInv hw apart s.1) (hpfn : hw.NUM_VPN ≤ 2 ^ 24)
    (hen : (memoryMachine hw).enabled s e) (hok : KeepsMemories hw s e)
    (hstep : (memoryMachine hw).step s e = some s') :
    MessageInv hw apart s'.1 ∧ (s'.1.mem.exhausted = false → s.1.mem.exhausted = false) := by
  obtain ⟨hmemory, hroom⟩ := h.memory.memoryStep hpfn hen hok hstep
  refine ⟨⟨hmemory, ?_⟩, hroom⟩
  rcases memory_step_kernel hstep with ⟨addr, b, rfl, hk⟩ | ⟨d, o, rfl, hk, -⟩
  · rw [hk]
    exact h.valid
  · exact h.trapValid hen.1 hok.1 hk

/-! ## Every step -/

/-- Processes and pipes go from `n` to `n'` by `d`, or stay if there is no event. -/
def Carries (hw : Hardware) (n n' : Network PcbPtr Nat UInt8) : Option (MessageEvent PcbPtr Nat UInt8) → Prop
  | some d => (messageMachine hw.PIPE_BUFFER_LEN).enabled n d ∧ (messageMachine hw.PIPE_BUFFER_LEN).step n d = some n'
  | none => n' = n

/-- What leaves the pipes alone is about the own memory. -/
theorem carries_own {x : Option (PrivateEvent PcbPtr UInt8)} (h : Matches (memories hw s) (memories hw s') x)
    (hpipes : s'.1.channel hw = s.1.channel hw) : Carries hw (network hw s) (network hw s') (x.map .own) := by
  unfold network
  rw [hpipes]
  cases x with
  | none =>
    have hsame : memories hw s' = memories hw s := h
    show (_, _) = (_, _)
    rw [hsame]
  | some d =>
    refine ⟨h.1, ?_⟩
    show (privateMachine.step (memories hw s) d).map _ = _
    rw [h.2]
    rfl

/-- To store nothing changes no memory. -/
theorem memories_of_nothing (h : Matches (memories hw s) (memories hw s') (some (.store p []))) :
    memories hw s' = memories hw s := by
  have hstep : some (Function.update (memories hw s) p (memories hw s p)) = some (memories hw s') := h.2
  rw [Function.update_eq_self] at hstep
  exact (Option.some.inj hstep).symm

/-- The one store that a step has added. -/
theorem userWrites_append {xs : List UserStore} (h : k'.userStores = k.userStores ++ xs) :
    k.userWrites k' = xs.map UserStore.data := by
  unfold Kernel.userWrites
  rw [h, List.drop_left]

theorem read_carries {u : UserContext} {kbuf : BufPtr} (hread : CalmRead hw { s.1 with uctxt := u } s'.1)
    (hvalid : PipesValid hw s.1)
    (hmatch : Matches (memories hw s) (memories hw s')
      (some (.store s.1.current_process (s.1.userWrites s'.1)))) :
    Carries hw (network hw s) (network hw s') (TrapEvent.toMessage hw s s' (.kernel u (.pipeRead kbuf))) := by
  cases hread with
  | refused hno hpipes hstores =>
    have hno : readable s.1 (u.regs 0) = false := hno
    have hstores : s'.1.userStores = s.1.userStores := hstores
    rw [userWrites_nil hstores] at hmatch
    simp only [TrapEvent.toMessage, hno]
    show (_, _) = (_, _)
    rw [memories_of_nothing hmatch, (PipesStay.of_table hpipes).channel]
    rfl
  | @takes i pipe rest hid hopen hp hne hlen hself hother hrest hstores =>
    have hid : u.regs 0 = i := hid
    have hopen : readable s.1 i = true := hopen
    have hp : s.1.pipe i = some pipe := hp
    have hlen : 0 ≤ u.regs 2 := hlen
    have hv := hvalid i pipe hp
    obtain ⟨htaken, hleft⟩ := taken_eq hv hlen
    have hnonneg := hv.nonneg
    have hcount : (s.1.channel hw i).length = pipe.bytes_in_buffer.toNat := length_channel hp
    have hwrites : s.1.userWrites s'.1 = [(addressOf (u.regs 1), pipe.taken hw (u.regs 2) ++ rest)] :=
      userWrites_append hstores
    rw [hwrites] at hmatch
    have hrest : rest.length = (u.regs 2).toNat - (pipe.taken hw (u.regs 2)).length := hrest
    -- what is stored behind the bytes of the pipe
    have hbehind : ((s.1.userWrites s'.1).flatMap Prod.snd).drop (s.1.channel hw i).length = rest := by
      rw [hwrites, List.flatMap_singleton, hcount]
      rw [pipe.length_taken] at hrest
      by_cases hshort : pipe.bytes_in_buffer ≤ u.regs 2
      · apply List.drop_left'
        rw [pipe.length_taken]
        omega
      · obtain rfl := List.length_eq_zero_iff.1 (by omega : rest.length = 0)
        apply List.drop_of_length_le
        rw [List.append_nil, pipe.length_taken]
        omega
    simp only [TrapEvent.toMessage, hid, Int.toNat_natCast, if_pos hopen, hbehind]
    refine ⟨⟨?_, ?_⟩, ?_⟩
    · intro hempty
      have hzero : (s.1.channel hw i).length = 0 := List.length_eq_zero_iff.2 hempty
      omega
    · rw [pipe.length_taken] at hrest
      show rest.length = (u.regs 2).toNat - (s.1.channel hw i).length
      omega
    · show (privateMachine.step (memories hw s) (.store s.1.current_process
        [(addressOf (u.regs 1), (s.1.channel hw i).take (u.regs 2).toNat ++ rest)])).map _ = _
      rw [channel_eq hp, ← htaken, hmatch.2, Option.map_some]
      show some (memories hw s', Function.update (s.1.channel hw) i ((s.1.channel hw i).drop (u.regs 2).toNat)) =
        some (memories hw s', s'.1.channel hw)
      rw [channel_set hself hother, channel_eq hp, hleft]
      rfl

theorem write_carries {u : UserContext} {kbuf : BufPtr} {data : Nat → UInt8}
    (hwrite : CalmWrite hw { s.1 with uctxt := u } data s'.1) (hstores : s'.1.userStores = s.1.userStores)
    (hvalid : PipesValid hw s.1) (hlives : s.1.Lives s.1.current_process)
    (hwalks : s.1.mem.ptbr1 = some s.1.current_process)
    (hreads : Syscall.Reads hw { s.1 with uctxt := u } s.2 (.pipeWrite kbuf data))
    (hmatch : Matches (memories hw s) (memories hw s')
      (some (.store s.1.current_process (s.1.userWrites s'.1)))) :
    Carries hw (network hw s) (network hw s') (TrapEvent.toMessage hw s s' (.kernel u (.pipeWrite kbuf data))) := by
  rw [userWrites_nil hstores] at hmatch
  have hmemories := memories_of_nothing hmatch
  cases hwrite with
  | refused hno hpipes =>
    have hno : writable s.1 (u.regs 0) = false := hno
    simp only [TrapEvent.toMessage, hno]
    show (_, _) = (_, _)
    rw [hmemories, (PipesStay.of_table hpipes).channel]
    rfl
  | @puts i pipe hid hopen hp hroom hself hother =>
    have hid : u.regs 0 = i := hid
    have hopen : writable s.1 i = true := hopen
    have hp : s.1.pipe i = some pipe := hp
    have hroom : ((u.regs 2).toNat : Int) ≤ hw.PIPE_BUFFER_LEN - pipe.bytes_in_buffer := hroom
    have hv := hvalid i pipe hp
    have hnonneg := hv.nonneg
    have hcount : (s.1.channel hw i).length = pipe.bytes_in_buffer.toNat := length_channel hp
    obtain ⟨-, hcontents, -⟩ := hv.putAll ((List.range (u.regs 2).toNat).map data) (by
      rw [List.length_map, List.length_range]
      omega)
    -- the caller has the bytes in its memory
    have hfetch : fetch (memories hw s s.1.current_process) (addressOf (u.regs 1)) (u.regs 2).toNat =
        some ((List.range (u.regs 2).toNat).map data) := by
      apply fetch_of_load
      intro j hj
      have hbyte : load hw.pageBytes (userTable hw s.1.liveTable) s.2 (addressOf (u.regs 1) + j) = some (data j) :=
        hreads j hj
      show load hw.pageBytes (s.1.spaceOf hw s.1.current_process) s.2 _ = _
      rwa [spaceOf_lives hlives, ← liveTable_eq hwalks]
    simp only [TrapEvent.toMessage, hid, Int.toNat_natCast, if_pos hopen]
    refine ⟨?_, ?_⟩
    · show (s.1.channel hw i).length + (u.regs 2).toNat ≤ hw.PIPE_BUFFER_LEN
      omega
    · show (fetch (memories hw s s.1.current_process) (addressOf (u.regs 1)) (u.regs 2).toNat).map _ = _
      rw [hfetch, Option.map_some]
      show some (memories hw s, Function.update (s.1.channel hw) i (s.1.channel hw i ++ _)) =
        some (memories hw s', s'.1.channel hw)
      rw [channel_set hself hother, hcontents, channel_eq hp, hmemories]
      rfl

theorem toMessage_trap (hstep : (memoryMachine hw).step s (.trap d o) = some s') :
    MemoryEvent.toMessage hw s (.trap d o) = d.toMessage hw s s' := by
  show ((memoryMachine hw).step s (.trap d o)).bind (fun s' => d.toMessage hw s s') = _
  rw [hstep, Option.bind_some]

theorem toMessage_own (hpipe : ¬ d.OnPipe) : d.toMessage hw s s' = (d.toPrivate hw s s').map .own := by
  cases d with
  | kernel u c =>
    cases c with
    | pipeRead kbuf => exact absurd trivial hpipe
    | pipeWrite kbuf data => exact absurd trivial hpipe
    | _ => rfl
  | _ => rfl

theorem step_carries (h : MessageInv hw apart s.1) (hpfn : hw.NUM_VPN ≤ 2 ^ 24)
    (hen : (memoryMachine hw).enabled s e) (hok : KeepsMemories hw s e)
    (hstep : (memoryMachine hw).step s e = some s') (hroom : s'.1.mem.exhausted = false) :
    Carries hw (network hw s) (network hw s') (e.toMessage hw s) := by
  have hmatch := memory_matches h.memory hpfn hen hok hstep hroom
  rcases memory_step_kernel hstep with ⟨addr, b, rfl, hk⟩ | ⟨d, o, rfl, hk, -⟩
  · exact carries_own hmatch (by rw [hk])
  have hprivate : MemoryEvent.toPrivate hw s (.trap d o) = d.toPrivate hw s s' := by
    show ((memoryMachine hw).step s (.trap d o)).bind (fun s' => d.toPrivate hw s s') = _
    rw [hstep, Option.bind_some]
  rw [toMessage_trap hstep]
  rw [hprivate] at hmatch
  by_cases hpipe : d.OnPipe
  · cases d with
    | kernel u c =>
      obtain ⟨⟨hmode, hidle, -⟩, hreads⟩ := hen
      have hu : Calm hw { s.1 with uctxt := u } s.1.queue := h.memory.calm.congr rfl
      have hvalid : PipesValid hw { s.1 with uctxt := u } := h.valid
      obtain ⟨g, hinv⟩ := h.memory.family
      cases c with
      | pipeRead kbuf => exact read_carries (hu.readParts hmode hidle hok.1 hk) h.valid hmatch
      | pipeWrite kbuf data =>
        obtain ⟨hwrite, hstores⟩ := hu.writeParts hmode hidle hvalid hok.1 hk
        exact write_carries hwrite hstores h.valid (hinv.lives_current hmode) h.memory.walks hreads hmatch
      | _ => exact hpipe.elim
    | _ => exact hpipe.elim
  · rw [toMessage_own hpipe]
    exact carries_own hmatch (h.memory.calm.step_pipes hen.1 hok.1 hk hpipe).channel

/-! ## What the callers have -/

/-- An id that names a pipe is the number of a slot. -/
theorem id_of_writable {id : Int} (h : writable k id = true) : ∃ j : Nat, id = j := by
  unfold writable at h
  cases hcheck : getCheckSync k id with
  | none => simp [hcheck] at h
  | some o => exact ⟨_, (getCheckSync_eq_some hcheck).2.symm⟩

theorem id_of_readable {id : Int} (h : readable k id = true) : ∃ j : Nat, id = j := by
  unfold readable at h
  cases hcheck : getCheckSync k id with
  | none => simp [hcheck] at h
  | some o => exact ⟨_, (getCheckSync_eq_some hcheck).2.symm⟩

/-- Other steps neither send nor receive. -/
theorem nothing_own (hpipe : ¬ d.OnPipe) :
    sentTo hw i (s, .trap d o) = [] ∧ receivedFrom hw i (s, .trap d o) = [] := by
  cases d with
  | kernel u c =>
    cases c with
    | pipeRead kbuf => exact absurd trivial hpipe
    | pipeWrite kbuf data => exact absurd trivial hpipe
    | _ => exact ⟨rfl, rfl⟩
  | _ => exact ⟨rfl, rfl⟩

/-- A caller sends what it has in its memory. -/
theorem sentTo_eq (hstep : (memoryMachine hw).step s e = some s') :
    sentTo hw i (s, e) = (e.toMessage hw s).elim [] (MessageEvent.puts i (network hw s)) := by
  cases e with
  | store addr b => rfl
  | trap d o =>
    rw [toMessage_trap hstep]
    by_cases hpipe : d.OnPipe
    · cases d with
      | kernel u c =>
        cases c with
        | pipeRead kbuf =>
          simp only [TrapEvent.toMessage]
          split <;> rfl
        | pipeWrite kbuf data =>
          simp only [TrapEvent.toMessage, sentTo]
          by_cases hopen : writable s.1 (u.regs 0) = true
          · obtain ⟨j, hj⟩ := id_of_writable hopen
            rw [hj] at hopen ⊢
            rw [if_pos hopen]
            by_cases hi : j = i
            · subst hi
              rw [if_pos ⟨rfl, hopen⟩]
              simp [MessageEvent.puts, network]
            · rw [if_neg fun h => hi (Int.ofNat.inj h.1)]
              simp [MessageEvent.puts, hi]
          · rw [if_neg hopen, if_neg]
            · rfl
            · rintro ⟨hid, hopen'⟩
              rw [hid] at hopen
              exact hopen hopen'
        | _ => exact hpipe.elim
      | _ => exact hpipe.elim
    · rw [toMessage_own hpipe, (nothing_own hpipe).1]
      cases d.toPrivate hw s s' <;> rfl

/-- A caller has received what it finds in its memory. -/
theorem receivedFrom_eq (hstep : (memoryMachine hw).step s e = some s')
    (hcarry : Carries hw (network hw s) (network hw s') (e.toMessage hw s)) :
    receivedFrom hw i (s, e) = (e.toMessage hw s).elim [] (MessageEvent.takes i (network hw s)) := by
  cases e with
  | store addr b => rfl
  | trap d o =>
    rw [toMessage_trap hstep] at hcarry ⊢
    by_cases hpipe : d.OnPipe
    · cases d with
      | kernel u c =>
        cases c with
        | pipeWrite kbuf data =>
          simp only [TrapEvent.toMessage]
          split <;> rfl
        | pipeRead kbuf =>
          simp only [TrapEvent.toMessage, receivedFrom] at hcarry ⊢
          by_cases hopen : readable s.1 (u.regs 0) = true
          · obtain ⟨j, hj⟩ := id_of_readable hopen
            rw [hj] at hopen hcarry ⊢
            rw [if_pos hopen] at hcarry ⊢
            by_cases hi : j = i
            · subst hi
              have hfetch := fetch_received hcarry.2
              rw [if_pos ⟨rfl, hopen⟩, hstep, Option.bind_some]
              simp only [network, Int.toNat_natCast] at hfetch
              simp [MessageEvent.takes, network, hfetch]
            · rw [if_neg fun h => hi (Int.ofNat.inj h.1)]
              simp [MessageEvent.takes, hi]
          · rw [if_neg hopen, if_neg]
            · rfl
            · rintro ⟨hid, hopen'⟩
              rw [hid] at hopen
              exact hopen hopen'
        | _ => exact hpipe.elim
      | _ => exact hpipe.elim
    · rw [toMessage_own hpipe, (nothing_own hpipe).2]
      cases d.toPrivate hw s s' <;> rfl

/-- What was in a pipe and what is sent to it is what is received from it and what stays. -/
theorem step_line (hstep : (memoryMachine hw).step s e = some s')
    (hcarry : Carries hw (network hw s) (network hw s') (e.toMessage hw s)) :
    s.1.channel hw i ++ sentTo hw i (s, e) = receivedFrom hw i (s, e) ++ s'.1.channel hw i := by
  rw [sentTo_eq hstep, receivedFrom_eq hstep hcarry]
  cases hmessage : e.toMessage hw s with
  | none =>
    rw [hmessage] at hcarry
    have hsame : s'.1.channel hw = s.1.channel hw := congrArg Prod.snd hcarry
    rw [hsame]
    exact List.append_nil _
  | some d =>
    rw [hmessage] at hcarry
    exact message_line hcarry.2

/-! ## Runs -/

theorem kernelStart_message (h₀ : kernelStart b = some k₀) (hboot : LoadsOver hw b.initProgram fun _ => .zero) :
    MessageInv hw b.Reserved k₀ ∧ k₀.channel hw = fun _ => [] := by
  have hnone : ∀ i, k₀.pipe i = none := by
    intro i
    unfold Kernel.pipe
    rw [(kernelStart_booted h₀).noObject i]
    rfl
  refine ⟨⟨kernelStart_memory h₀ hboot, fun i pipe hp => ?_⟩, funext fun i => ?_⟩
  · rw [hnone i] at hp
    cases hp
  · unfold Kernel.channel
    rw [hnone i]
    rfl

/-- In the runs in which frames are found whenever they are asked for. -/
theorem network_simulation (hpfn : hw.NUM_VPN ≤ 2 ^ 24) :
    Simulation (memoryMachine hw)
      (fun s e => KeepsMemories hw s e ∧ ∀ s', (memoryMachine hw).step s e = some s' → s'.1.mem.exhausted = false)
      (messageMachine hw.PIPE_BUFFER_LEN) (fun _ _ => True) (fun s e => e.toMessage hw s)
      fun s n => MessageInv hw apart s.1 ∧ n = network hw s where
  silent := by
    rintro s s' e _ ⟨h, rfl⟩ hen ⟨hok, hroom⟩ hstep hevent
    have hcarry := step_carries h hpfn hen hok hstep (hroom s' hstep)
    rw [hevent] at hcarry
    exact ⟨(h.messageStep hpfn hen hok hstep).1, hcarry.symm⟩
  matched := by
    rintro s s' e _ d ⟨h, rfl⟩ hen ⟨hok, hroom⟩ hstep hevent
    have hcarry := step_carries h hpfn hen hok hstep (hroom s' hstep)
    rw [hevent] at hcarry
    exact ⟨_, hcarry.1, trivial, hcarry.2, (h.messageStep hpfn hen hok hstep).1, rfl⟩

/-- A run is matched by one of processes with private memories and queues of bytes. -/
theorem network_run (h : MessageInv hw apart s.1) (hpfn : hw.NUM_VPN ≤ 2 ^ 24)
    (hrun : Run (memoryMachine hw) (KeepsMemories hw) s t s') (hroom : s'.1.mem.exhausted = false) :
    ∃ u, Run (messageMachine hw.PIPE_BUFFER_LEN) (fun _ _ => True) (network hw s) u (network hw s') ∧
      u.map Prod.snd = t.filterMap fun x => x.2.toMessage hw x.1 := by
  have hrun' := roomAlong h.memory hpfn hrun hroom
  obtain ⟨u, n, hnetwork, hevents, -, rfl⟩ := (network_simulation hpfn).run hrun' ⟨h, rfl⟩
  exact ⟨u, hnetwork, hevents⟩

/-- What was in a pipe and what has been sent to it is what has been received from it and what is left. -/
theorem channel_line (h : MessageInv hw apart s.1) (hpfn : hw.NUM_VPN ≤ 2 ^ 24)
    (hrun : Run (memoryMachine hw) (KeepsMemories hw) s t s') (hroom : s'.1.mem.exhausted = false) :
    s.1.channel hw i ++ t.flatMap (sentTo hw i) = t.flatMap (receivedFrom hw i) ++ s'.1.channel hw i := by
  refine (roomAlong h.memory hpfn hrun hroom).line (I := fun s => MessageInv hw apart s.1)
    (q := fun s => s.1.channel hw i) h ?_
  intro s e s' h hen hok hstep
  have hcarry := step_carries h hpfn hen hok.1 hstep (hok.2 s' hstep)
  exact ⟨(h.messageStep hpfn hen hok.1 hstep).1, step_line hstep hcarry⟩

/-! ## A byte for the child -/

/-- `KeepsMemories`, of steps that neither fork nor load a program. -/
def keepsMemories (hw : Hardware) (k : Kernel) : MemoryEvent → Bool
  | .store _ _ => true
  | .trap (.kernel _ (.exec _)) _ => false
  | .trap d _ => neverWaits hw k d

theorem keepsMemories_imp (h : keepsMemories hw s.1 e = true) : KeepsMemories hw s e := by
  cases e with
  | store addr b => trivial
  | trap d o =>
    have hplain : neverWaits hw s.1 d = true ∧ ∀ u req, d ≠ .kernel u (.exec req) := by
      cases d with
      | kernel u c =>
        cases c with
        | exec req => cases h
        | _ => exact ⟨h, by simp⟩
      | _ => exact ⟨h, by simp⟩
    refine ⟨neverWaits_imp hplain.1, ?_, fun u req he => absurd he (hplain.2 u req)⟩
    cases d with
    | kernel u c =>
      cases c with
      | fork child => cases hplain.1
      | _ => trivial
    | _ => trivial

/-- The registers of a call. -/
def callRegs (a b c : Int) : UserContext :=
  { Boot.small.uctxt with regs := fun r => if r = 0 then a else if r = 1 then b else if r = 2 then c else 0 }

/-- The parent makes a pipe, stores a byte and writes it to the pipe; then it sleeps, and the child reads. -/
def sendEvents : List MemoryEvent :=
  [.trap (.kernel (callRegs 148 0 0) (.pipeInit true fun _ => 0)) noProgram, .store 150 9,
    .trap (.kernel (callRegs 0 150 1) (.pipeWrite 0 fun _ => 9)) noProgram,
    .trap (.kernel (callRegs 1 0 0) .delay) noProgram, .trap .schedule noProgram, .trap .resume noProgram,
    .trap (.kernel (callRegs 0 151 1) (.pipeRead 0)) noProgram]

def sendTrace : List ((Kernel × Frames UInt8) × MemoryEvent) :=
  (memoryMachine .small).trace (forkedKernel, apartFrames) sendEvents

def sentState : Kernel × Frames UInt8 :=
  ((memoryMachine .small).exec (forkedKernel, apartFrames) sendEvents).get (by decide +kernel)

theorem sendTrace_run : Run (memoryMachine .small) (KeepsMemories .small) (forkedKernel, apartFrames) sendTrace
    sentState := by
  have hok : ∀ x ∈ sendTrace, (memoryMachine .small).enabled x.1 x.2 ∧ keepsMemories .small x.1.1 x.2 = true := by
    decide +kernel
  exact Run.ofExec (Option.some_get _).symm fun x hx => (hok x hx).imp_right keepsMemories_imp

theorem sentState_run : ∃ t, Run (memoryMachine .small) (KeepsMemories .small) (Boot.smallKernel, bootFrames)
    (t ++ sendTrace) sentState := by
  obtain ⟨t, hrun⟩ := childFrames_run
  exact ⟨_, (hrun.trans apartFrames_run).trans sendTrace_run⟩

/-! ## The theorems -/

/-- In every run from boot in which no call has to wait, frames are found whenever they are asked for, and every
program is loaded over all pages of the old one, what the machine does with its tables, frames, kernel buffers and
rings is what a machine does in which processes have private memories and send each other bytes through queues with
room for `PIPE_BUFFER_LEN` bytes. -/
theorem processes_communicate (h₀ : kernelStart b = some k₀) (hboot : LoadsOver hw b.initProgram fun _ => .zero)
    (hrun : Run (memoryMachine hw) (KeepsMemories hw) (k₀, frames) t (k, frames'))
    (hroom : k.mem.exhausted = false) :
    ∃ u, Run (messageMachine hw.PIPE_BUFFER_LEN) (fun _ _ => True) (memories hw (k₀, frames), fun _ => []) u
        (network hw (k, frames')) ∧
      u.map Prod.snd = t.filterMap fun x => x.2.toMessage hw x.1 := by
  obtain ⟨h, hempty⟩ := kernelStart_message h₀ hboot
  obtain ⟨u, hnetwork, hevents⟩ := network_run h b.pfn_fits hrun hroom
  unfold network at hnetwork
  rw [hempty] at hnetwork
  exact ⟨u, hnetwork, hevents⟩

theorem processes_communicate_small : ∃ u, Run (messageMachine 2) (fun _ _ => True)
    (memories .small (Boot.smallKernel, bootFrames), fun _ => []) u (network .small sentState) := by
  obtain ⟨t, hrun⟩ := sentState_run
  obtain ⟨u, hnetwork, -⟩ := processes_communicate (Option.some_get _).symm loadsOver_boot hrun (by decide +kernel)
  exact ⟨u, hnetwork⟩

/-- In every such run, what the readers of a pipe have then found in their memories, one after the other, is what
the writers had in theirs when they wrote, in the order of their calls, but for the bytes that are still in the
pipe; and those are never more than it has room for. -/
theorem pipes_carry (h₀ : kernelStart b = some k₀) (hboot : LoadsOver hw b.initProgram fun _ => .zero)
    (hrun : Run (memoryMachine hw) (KeepsMemories hw) (k₀, frames) t (k, frames'))
    (hroom : k.mem.exhausted = false) (i : Nat) :
    t.flatMap (sentTo hw i) = t.flatMap (receivedFrom hw i) ++ k.channel hw i ∧
      (k.channel hw i).length ≤ hw.PIPE_BUFFER_LEN := by
  obtain ⟨h, hempty⟩ := kernelStart_message h₀ hboot
  have hline := channel_line (i := i) h b.pfn_fits hrun hroom
  rw [hempty] at hline
  refine ⟨hline, ?_⟩
  obtain ⟨u, hnetwork, -⟩ := network_run h b.pfn_fits hrun hroom
  have hroom' : ∀ c, ((network hw (k, frames')).2 c).length ≤ hw.PIPE_BUFFER_LEN := by
    refine hnetwork.invariant (I := fun n => ∀ c, (n.2 c).length ≤ hw.PIPE_BUFFER_LEN) (fun c => ?_)
      fun n d n' h hen _ hstep => message_room h hen hstep
    show (k₀.channel hw c).length ≤ _
    rw [hempty]
    exact Nat.zero_le _
  exact hroom' i

/-- The child has the byte of its parent. -/
theorem pipes_carry_small : sendTrace.flatMap (sentTo .small 0) = [9] ∧
    sendTrace.flatMap (receivedFrom .small 0) = [9] ∧
    ∃ t, Run (memoryMachine .small) (KeepsMemories .small) (Boot.smallKernel, bootFrames) (t ++ sendTrace) sentState ∧
      (t ++ sendTrace).flatMap (sentTo .small 0) =
        (t ++ sendTrace).flatMap (receivedFrom .small 0) ++ sentState.1.channel .small 0 := by
  obtain ⟨t, hrun⟩ := sentState_run
  refine ⟨by decide +kernel, by decide +kernel, t, hrun, ?_⟩
  exact (pipes_carry (Option.some_get _).symm loadsOver_boot hrun (by decide +kernel) 0).1

end Yalnix
