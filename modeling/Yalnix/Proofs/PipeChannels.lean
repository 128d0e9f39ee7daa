import Yalnix.MessageRun
import Yalnix.Proofs.CalmSpace
import Yalnix.Proofs.RingRun

/-!
# Pipes as queues of bytes

A call that has nothing to wait for takes the first bytes of a pipe, or puts bytes behind the others. No other
step changes what is in a pipe.
-/

namespace Yalnix

open Intrusive Paging Transition

variable {hw : Hardware} {k k' k₁ : Kernel} {s : QueueId → List PcbPtr} {i : Nat} {e : TrapEvent}
  {u : UserContext} {pipe : Pipe} {kbuf : BufPtr} {data : Nat → UInt8}

/-! ## The contents of a pipe -/

theorem channel_eq (hp : k.pipe i = some pipe) : k.channel hw i = pipe.contents hw := by
  unfold Kernel.channel
  rw [hp]
  rfl

theorem length_channel (hp : k.pipe i = some pipe) : (k.channel hw i).length = pipe.bytes_in_buffer.toNat := by
  rw [channel_eq hp]
  exact Ring.length_contents

/-- The pipes that were there stay, and a new one is empty. -/
def PipesStay (k k' : Kernel) : Prop :=
  ∀ j, k'.pipe j = k.pipe j ∨ k.pipe j = none ∧ ∃ buffer, k'.pipe j = some (newPipe buffer)

namespace PipesStay

theorem of_table (h : k'.sync_table = k.sync_table) : PipesStay k k' := by
  intro j
  unfold Kernel.pipe
  rw [h]
  exact Or.inl rfl

theorem of_frame (h : PipeFrame k k') : PipesStay k k' := h.pipe

theorem trans {k'' : Kernel} (h : PipesStay k k') (h' : k''.sync_table = k'.sync_table) : PipesStay k k'' := by
  intro j
  have hj := h j
  unfold Kernel.pipe at hj ⊢
  rwa [h']

theorem channel (h : PipesStay k k') : k'.channel hw = k.channel hw := by
  funext j
  unfold Kernel.channel
  rcases h j with hj | ⟨hnone, buffer, hj⟩
  · rw [hj]
  · rw [hj, hnone]
    rfl

theorem valid (h : PipesStay k k') (hv : PipesValid hw k) : PipesValid hw k' := by
  intro j pipe hp
  rcases h j with hj | ⟨-, buffer, hj⟩
  · exact hv j pipe (hj ▸ hp)
  · obtain rfl := Option.some.inj (hj.symm.trans hp)
    exact ⟨le_rfl, Int.natCast_nonneg _, hw.pipe_pos, (Nat.zero_mod _).symm⟩

end PipesStay

/-- The bytes that a read takes are the first ones, and the others stay. -/
theorem taken_eq (hv : pipe.Valid hw) {len : Int} (hlen : 0 ≤ len) :
    pipe.taken hw len = (pipe.contents hw).take len.toNat ∧
      (pipe.drop hw (min len pipe.bytes_in_buffer).toNat).contents hw = (pipe.contents hw).drop len.toNat := by
  have hnonneg := hv.nonneg
  have hlength : (pipe.contents hw).length = pipe.bytes_in_buffer.toNat := Ring.length_contents
  have hmin : min len.toNat (pipe.contents hw).length = (min len pipe.bytes_in_buffer).toNat := by omega
  have hsplit : pipe.taken hw len ++ (pipe.drop hw (min len pipe.bytes_in_buffer).toNat).contents hw =
      pipe.contents hw := hv.contents_drop (by omega)
  rw [List.take_eq_take_min, List.drop_eq_drop_min, hmin, ← hsplit, List.take_left' (pipe.length_taken len),
    List.drop_left' (pipe.length_taken len)]
  exact ⟨rfl, rfl⟩

/-- Another pipe in slot `i`. -/
theorem channel_set (hself : k'.pipe i = some pipe) (hother : ∀ j, j ≠ i → k'.pipe j = k.pipe j) :
    k'.channel hw = Function.update (k.channel hw) i (pipe.contents hw) := by
  funext j
  by_cases hj : j = i
  · subst hj
    rw [channel_eq hself, Function.update_self]
  · rw [Function.update_of_ne hj]
    unfold Kernel.channel
    rw [hother j hj]

/-! ## Calls on pipes -/

/-- A read that has nothing to wait for. -/
inductive CalmRead (hw : Hardware) (k k' : Kernel) : Prop where
  | refused (hno : readable k (k.uctxt.regs 0) = false) (hpipes : k'.sync_table = k.sync_table)
      (hstores : k'.userStores = k.userStores)
  | takes {i : Nat} {pipe : Pipe} {rest : List UInt8} (hid : k.uctxt.regs 0 = i) (hopen : readable k i = true)
      (hp : k.pipe i = some pipe) (hne : pipe.bytes_in_buffer ≠ 0) (hlen : 0 ≤ k.uctxt.regs 2)
      (hself : k'.pipe i = some (pipe.drop hw (min (k.uctxt.regs 2) pipe.bytes_in_buffer).toNat))
      (hother : ∀ j, j ≠ i → k'.pipe j = k.pipe j)
      (hrest : rest.length = (k.uctxt.regs 2).toNat - (pipe.taken hw (k.uctxt.regs 2)).length)
      (hstores : k'.userStores = k.userStores ++
        [.bytes k.current_process (k.uctxt.regs 1) (pipe.taken hw (k.uctxt.regs 2) ++ rest)])

theorem Calm.readPartsInto (h : Calm hw k s) (hmode : k.mode = .user)
    (hidle : k.current_process ≠ k.idle_process) (hlive : k.kbufFreed kbuf = false)
    (hgo : GoesOn hw k k.uctxt (.pipeRead kbuf)) (hstep : sysPipeRead hw k kbuf = some k') :
    CalmRead hw k k' := by
  have hoff := h.off hmode
  obtain ⟨⟨rc, k₁⟩, hrun, -⟩ := Option.bind_eq_some_iff.1 hstep
  rw [mallocBuffer_of_live hlive] at hrun
  have hend := readPipe_ends h.steady.coherent h.sound hoff hidle hrun
  generalize hid : k.uctxt.regs 0 = id at hend
  have hgo : readable k id = true → ∃ pipe ∈ k.pipe id.toNat, pipe.bytes_in_buffer ≠ 0 := by
    rw [← hid]
    exact hgo
  cases hend with
  | error hno =>
    obtain rfl := Option.some.inj (hstep.symm.trans (sysPipeRead_eq hlive hrun (by decide)))
    exact .refused (hid ▸ hno) rfl rfl
  | blocked hopen hp hempty hc' =>
    obtain ⟨pipe, hp', hne⟩ := hgo hopen
    obtain rfl := Option.some.inj (hp.symm.trans hp')
    exact absurd hempty hne
  | @taken i pipe k₁ hopen hp hne hdrain =>
    obtain ⟨hc₁, -, -, hother⟩ := h.shape.readTake hoff hp kbuf (k.uctxt.regs 2)
    obtain ⟨s', hd, -⟩ := (drain_steps _ _ s hc₁).1 k₁ hdrain
    obtain rfl := hd.eq_of_noWaiter (h.noWaiter _) (h.noWaiter _)
    rw [sysPipeRead_eq hlive hrun (by decide), if_neg (by decide)] at hstep
    obtain ⟨hlen, rfl⟩ := finishRead_bytes hstep
    have hsound := h.sound i pipe hp
    have hnonneg := hsound.nonneg
    have hn : ((min (k.uctxt.regs 2) pipe.bytes_in_buffer).toNat : Int) = min (k.uctxt.regs 2)
        pipe.bytes_in_buffer := by omega
    have hrest : ((List.range' (pipe.taken hw (k.uctxt.regs 2)).length ((k.uctxt.regs 2).toNat -
        (pipe.taken hw (k.uctxt.regs 2)).length)).map (k.kbuf kbuf)).length =
          (k.uctxt.regs 2).toNat - (pipe.taken hw (k.uctxt.regs 2)).length := by
      rw [List.length_map, List.length_range']
    refine .takes hid hopen hp hne hlen ?_ hother hrest ?_
    · show (readTake hw k i pipe kbuf (k.uctxt.regs 2)).pipe i = _
      rw [readTake_eq hn]
      exact pipe_setObject hp _
    · show k.userStores ++ [UserStore.bytes _ _ _] = _
      rw [readTake_copies kbuf (k.uctxt.regs 2) hsound rfl, pipe.length_taken]
      rfl

theorem Calm.readParts (h : Calm hw k s) (hmode : k.mode = .user) (hidle : k.current_process ≠ k.idle_process)
    (hgo : GoesOn hw k k.uctxt (.pipeRead kbuf)) (hstep : sysPipeRead hw k kbuf = some k') :
    CalmRead hw k k' := by
  have hnew : Calm hw (k.mallocBuffer kbuf) s := h.congr rfl
  cases hnew.readPartsInto hmode hidle (mallocBuffer_live k kbuf) hgo
      ((sysPipeRead_malloc k kbuf).trans hstep) with
  | refused hno hpipes hstores => exact .refused hno hpipes hstores
  | takes hid hopen hp hne hlen hself hother hrest hstores =>
    exact .takes hid hopen hp hne hlen hself hother hrest hstores

/-- A write that has nothing to wait for. -/
inductive CalmWrite (hw : Hardware) (k : Kernel) (data : Nat → UInt8) (k' : Kernel) : Prop where
  | refused (hno : writable k (k.uctxt.regs 0) = false) (hpipes : k'.sync_table = k.sync_table)
  | puts {i : Nat} {pipe : Pipe} (hid : k.uctxt.regs 0 = i) (hopen : writable k i = true)
      (hp : k.pipe i = some pipe)
      (hroom : ((k.uctxt.regs 2).toNat : Int) ≤ hw.PIPE_BUFFER_LEN - pipe.bytes_in_buffer)
      (hself : k'.pipe i = some (pipe.putAll hw ((List.range (k.uctxt.regs 2).toNat).map data)))
      (hother : ∀ j, j ≠ i → k'.pipe j = k.pipe j)

theorem Calm.writeParts (h : Calm hw k s) (hmode : k.mode = .user) (hidle : k.current_process ≠ k.idle_process)
    (hvalid : PipesValid hw k) (hgo : GoesOn hw k k.uctxt (.pipeWrite kbuf data))
    (hstep : sysPipeWrite hw k kbuf data = some k') :
    CalmWrite hw k data k' ∧ k'.userStores = k.userStores := by
  have hlen : 0 ≤ k.uctxt.regs 2 := by
    by_contra hneg
    simp [sysPipeWrite, lt_of_not_ge hneg] at hstep
  -- the buffer has the bytes to write
  have hcopied : Calm hw (k.copyFromUser kbuf data (k.uctxt.regs 2)) s := h.congr rfl
  obtain ⟨⟨rc, k₁⟩, hsync⟩ : ∃ x, (PipeSyscall.write kbuf data).sync hw k = some x := by
    unfold sysPipeWrite at hstep
    rw [if_neg (by omega)] at hstep
    obtain ⟨x, hx, -⟩ := Option.bind_eq_some_iff.1 hstep
    exact ⟨x, hx⟩
  have hrun : syncWritePipe hw (k.copyFromUser kbuf data (k.uctxt.regs 2)) (k.uctxt.regs 0) kbuf
      (k.uctxt.regs 2) = some (rc, k₁) := hsync
  have hcase := writePipe_cases hcopied.steady.coherent (hcopied.off hmode) hidle hrun
  have hrc : rc ≠ ProcessState.processBlocked.toInt := by
    generalize k.uctxt.regs 0 = id at hcase
    cases hcase <;> decide
  rw [sysPipeWrite_eq hlen hsync hrc] at hstep
  generalize hid : k.uctxt.regs 0 = id at hcase
  have hgo : writable k id = true → ∃ pipe ∈ k.pipe id.toNat,
      k.uctxt.regs 2 ≤ (hw.PIPE_BUFFER_LEN - pipe.bytes_in_buffer).toNat := by
    rw [← hid]
    exact hgo
  cases hcase with
  | error hno =>
    rw [if_pos rfl] at hstep
    obtain rfl := Option.some.inj hstep
    exact ⟨.refused (hid ▸ hno) rfl, rfl⟩
  | @blocked i m n pipe q k₁ k' hopen hp hm hlt =>
    obtain ⟨pipe', hp', hfits⟩ := hgo hopen
    obtain rfl : pipe' = pipe := Option.some.inj (hp'.symm.trans hp)
    omega
  | @done i m n pipe k₁ k' hopen hp hm hlt hk₁ hdrain =>
    obtain ⟨hc₁, -, -, hother⟩ := hcopied.shape.writeDone (hcopied.off hmode) hp kbuf (k.uctxt.regs 2) m
    rw [← hk₁] at hc₁
    obtain ⟨s', hd, -⟩ := (drain_steps _ _ s hc₁).2 _ hdrain
    obtain rfl := hd.eq_of_noWaiter (h.noWaiter _) (h.noWaiter _)
    have hp : k.pipe i = some pipe := hp
    have hle := (hvalid i pipe hp).le
    obtain rfl : m = (k.uctxt.regs 2).toNat := by omega
    have hbytes : (List.range (k.uctxt.regs 2).toNat).map ((k.copyFromUser kbuf data (k.uctxt.regs 2)).kbuf kbuf) =
        (List.range (k.uctxt.regs 2).toNat).map data := by
      apply List.map_congr_left
      intro j hj
      have hj := List.mem_range.1 hj
      simp only [Kernel.copyFromUser, Function.update_self]
      exact if_pos (by omega)
    subst hk₁
    rw [if_neg (by decide)] at hstep
    obtain rfl := Option.some.inj hstep
    refine ⟨.puts hid hopen hp (by omega) ?_ hother, rfl⟩
    rw [← hbytes]
    exact pipe_setObject (k := k.copyFromUser kbuf data (k.uctxt.regs 2)) hp _

/-! ## All other steps -/

/-- The calls that read or write a pipe. -/
def TrapEvent.OnPipe : TrapEvent → Prop
  | .kernel _ (.pipeRead _) => True
  | .kernel _ (.pipeWrite _ _) => True
  | _ => False

namespace Calm

theorem returnSync_pipes (h : Calm hw k s) (call : SyncCall) (hcall : call.onPipe = false)
    (hstep : returnSync (call.run hw k) = some k') : PipesStay k k' := by
  obtain ⟨rc, k₁, hrun, rfl⟩ := returnSync_eq_some hstep
  exact (PipesStay.of_frame (syncCall_pipeFrame h.call.table hcall hrun)).trans rfl

theorem lockAcquire_pipes (h : Calm hw k s) (hstep : sysLockAcquire k = some k') : PipesStay k k' := by
  simp only [sysLockAcquire, Option.bind_eq_bind, Option.bind_eq_some_iff, Prod.exists] at hstep
  obtain ⟨rc, k₁, hlock, hstep⟩ := hstep
  have hlock : (SyncCall.lockAcquire (k.uctxt.regs 0)).run hw k = some (rc, k₁) := hlock
  have hstays : PipesStay k k₁ := .of_frame (syncCall_pipeFrame h.call.table rfl hlock)
  split at hstep
  · obtain rfl := Option.some.inj hstep
    exact hstays.trans rfl
  · obtain rfl := Option.some.inj hstep
    exact hstays.trans rfl

theorem brk_pipes (hstep : sysBrk hw k = some k') : PipesStay k k' := by
  rw [sysBrk_eq] at hstep
  split at hstep
  · obtain rfl := Option.some.inj hstep
    exact .of_table rfl
  · split at hstep
    · obtain rfl := Option.some.inj hstep
      exact .of_table rfl
    · split at hstep
      · obtain ⟨⟨ok, m, pt⟩, -, hk'⟩ := Option.bind_eq_some_iff.1 hstep
        obtain rfl := Option.some.inj hk'
        exact .of_table rfl
      · obtain rfl := Option.some.inj hstep
        exact .of_table rfl

/-- A call that is no call on a pipe leaves the pipes alone. -/
theorem call_pipes (h : Calm hw k s) {c : Syscall} (hen : (trapMachine hw).enabled k (.kernel u c))
    (hok : NeverWaits hw k (.kernel u c)) (hstep : (trapMachine hw).step k (.kernel u c) = some k')
    (hpipe : ¬ TrapEvent.OnPipe (.kernel u c)) : PipesStay k k' := by
  obtain ⟨hmode, hidle, hfresh⟩ := hen
  have hu : Calm hw { k with uctxt := u } s := h.congr rfl
  -- the handlers that move processes touch no object
  have hhandler : ∀ d : ProcessCall, MayEnter k k.current_process d →
      KeepsQueues k (.handler k.current_process u d) → d.run hw (k.enter k.current_process u) = some k' →
      PipesStay k k' := by
    intro d hcall hkeep hrun
    obtain ⟨s', hcase⟩ := handler_cases h.call (h.off hmode) hcall hkeep hrun
    exact .of_table hcase.handled.objects
  cases c with
  | fork child =>
    refine hhandler (.fork child) ⟨hidle, hfresh, ?_⟩ hok.1 hstep
    rintro n ⟨⟩
    exact hok.2
  | wait kstatus_ptr => exact hhandler (.wait kstatus_ptr) ⟨hidle, hfresh, by simp⟩ trivial hstep
  | exit => exact hhandler .exit ⟨hidle, trivial, by simp⟩ h.exitFits hstep
  | delay => exact hhandler .delay ⟨hidle, trivial, by simp⟩ trivial hstep
  | exec req =>
    obtain ⟨rc, m, proc, hload⟩ := sysExec_loads hstep
    obtain rfl := Option.some.inj (hstep.symm.trans (sysExec_eq hload))
    exact .of_table rfl
  | brk => exact brk_pipes (k := { k with uctxt := u }) hstep
  | getPid =>
    obtain rfl := Option.some.inj hstep
    exact .of_table rfl
  | unimplemented =>
    obtain rfl := Option.some.inj hstep
    exact .of_table rfl
  | pipeRead kbuf => exact absurd trivial hpipe
  | pipeWrite kbuf data => exact absurd trivial hpipe
  | pipeInit allocated buffer => exact hu.returnSync_pipes (.initPipe (u.regs 0) allocated buffer) rfl hstep
  | lockInit allocated => exact hu.returnSync_pipes (.initLock (u.regs 0) allocated) rfl hstep
  | lockAcquire => exact hu.lockAcquire_pipes hstep
  | lockRelease => exact hu.returnSync_pipes (.lockRelease (u.regs 0)) rfl hstep
  | cvarInit allocated => exact hu.returnSync_pipes (.initCvar (u.regs 0) allocated) rfl hstep
  | signal => exact hu.returnSync_pipes (.cvarSignal (u.regs 0)) rfl hstep
  | broadcast rc => exact hu.returnSync_pipes (.cvarBroadcast (u.regs 0) rc) rfl hstep
  | cvarWait =>
    obtain rfl := sysCvarWait_error hstep
    exact .of_table rfl

/-- What is in a pipe changes by calls on the pipe only. -/
theorem step_pipes (h : Calm hw k s) (hen : (trapMachine hw).enabled k e) (hok : NeverWaits hw k e)
    (hstep : (trapMachine hw).step k e = some k') (hpipe : ¬ e.OnPipe) : PipesStay k k' := by
  cases e with
  | kernel u c => exact h.call_pipes hen hok hstep hpipe
  | clock u =>
    obtain ⟨hcase, -⟩ := h.clock hen hstep
    exact .of_table (by rw [hcase.frame])
  | schedule =>
    obtain ⟨caller, next, q, s', -, rfl, -⟩ := h.steady.schedule hstep
    exact .of_table rfl
  | resume =>
    obtain ⟨heq, -⟩ := h.steady.resume hen hstep
    exact .of_table (by rw [heq])

end Calm

end Yalnix
