import Yalnix.PipeLeak
import Yalnix.Proofs.PipeResult

/-!
# What a read lets a process see

A read takes from the pipe what is there, and the handler copies the length that was asked for. The two are
the same exactly when the pipe has enough.
-/

namespace Yalnix

open Intrusive Transition

variable {hw : Hardware} {k k' k₀ k₁ : Kernel} {s s' : QueueId → List PcbPtr} {i : Nat} {p : PcbPtr}

/-! ## User memory -/

theorem writeBytes_nil (mem : Int → UInt8) (addr : Int) : writeBytes mem addr [] = mem := by
  funext a
  unfold writeBytes
  rw [if_neg]
  simp only [List.length_nil]
  omega

/-- A byte that was written. -/
theorem writeBytes_at {mem : Int → UInt8} {addr : Int} {data : List UInt8} {v : Nat}
    (hv : v < data.length) : writeBytes mem addr data (addr + v) = data[v] := by
  unfold writeBytes
  rw [if_pos ⟨by omega, by omega⟩, show (addr + v - addr).toNat = v by omega]
  exact List.getD_eq_getElem?_getD.trans (by rw [List.getElem?_eq_getElem hv, Option.getD_some])

theorem userMemory_storeBytes (k : Kernel) (mem : UserMemory) (q : PcbPtr) (addr : Int)
    (data : List UInt8) : (k.storeUser (.bytes q addr data)).userMemory mem =
      Function.update (k.userMemory mem) q (writeBytes (k.userMemory mem q) addr data) := by
  unfold Kernel.userMemory Kernel.storeUser
  rw [List.foldl_append]
  rfl

theorem userMemory_congr (h : k'.userStores = k.userStores) (mem : UserMemory) :
    k'.userMemory mem = k.userMemory mem := by
  unfold Kernel.userMemory
  rw [h]

/-! ## The drain loops -/

theorem serveReader_userStores {pipe : Pipe} {r : PcbPtr} (h : serveReader hw k i pipe r = some k₁) :
    k₁.userStores = k.userStores := by
  unfold serveReader at h
  obtain ⟨b, -, h⟩ := Option.bind_eq_some_iff.1 h
  obtain ⟨-, h⟩ := Option.ite_none_left_eq_some.1 h
  obtain rfl := Option.some.inj h
  rfl

theorem fillFromWriter_userStores {pipe : Pipe} {w : PcbPtr} (h : fillFromWriter hw k i pipe w = some k₁) :
    k₁.userStores = k.userStores ∧ k₁.kbuf = k.kbuf := by
  unfold fillFromWriter at h
  obtain ⟨b, -, h⟩ := Option.bind_eq_some_iff.1 h
  obtain ⟨-, h⟩ := Option.ite_none_left_eq_some.1 h
  obtain rfl := Option.some.inj h
  exact ⟨rfl, rfl⟩

/-- A drain stores nothing into user memory. -/
theorem Drain.userStores (hd : Drain hw i k s k' s') : k'.userStores = k.userStores := by
  refine hd.invariant (I := fun k₁ _ => k₁.userStores = k.userStores) ?_ rfl
  intro k₁ s₁ k₂ s₂ h hstep
  rw [← h]
  cases hstep with
  | serve _ _ _ hrun =>
    show _ = k₁.userStores
    rw [← serveReader_userStores hrun]
    rfl
  | finish _ _ hrun =>
    show _ = k₁.userStores
    rw [← (fillFromWriter_userStores hrun).1]
    rfl
  | refill _ _ hrun => exact (fillFromWriter_userStores hrun).1

/-- Without readers, a drain writes to no kernel buffer. -/
theorem Drain.kbuf (hd : Drain hw i k s k' s') (hr : s (.wait (.pipeReaders i)) = []) :
    k'.kbuf = k.kbuf := by
  suffices h : k'.kbuf = k.kbuf ∧ s' (.wait (.pipeReaders i)) = [] from h.1
  refine hd.invariant (I := fun k₁ s₁ => k₁.kbuf = k.kbuf ∧ s₁ (.wait (.pipeReaders i)) = []) ?_ ⟨rfl, hr⟩
  rintro k₁ s₁ k₂ s₂ ⟨hkbuf, hnil⟩ hstep
  cases hstep with
  | serve hs =>
    rw [hnil] at hs
    cases hs
  | finish hs _ hrun =>
    refine ⟨?_, by rwa [woken_ne (by simp)]⟩
    show _ = k.kbuf
    rw [← hkbuf]
    exact (fillFromWriter_userStores hrun).2
  | refill hs _ hrun => exact ⟨(fillFromWriter_userStores hrun).2.trans hkbuf, hnil⟩

/-! ## The handler -/

theorem ShapeInv.withBuffer (h : ShapeInv hw k s) (kbuf : BufPtr) (c : Nat → UInt8) :
    ShapeInv hw (k.withBuffer kbuf c) s :=
  ⟨h.coherent.congr rfl rfl fun _ => rfl, h.table.congr rfl rfl fun _ _ => Or.inl,
    fun i => ⟨(h.shape i).sound, (h.shape i).reader, (h.shape i).writer⟩, h.waits⟩

theorem finishRead_bytes {kbuf : BufPtr} {buf len : Int} (h : k.finishRead buf kbuf len = some k') :
    0 ≤ len ∧ k' = (k.storeUser (.bytes k.current_process buf
      ((List.range len.toNat).map (k.kbuf kbuf)))).freeBuffer kbuf := by
  unfold Kernel.finishRead Kernel.copyToUser at h
  split at h
  · cases h
  · exact ⟨by omega, (Option.some.inj h).symm⟩

/-- What a read of `len` bytes copies to the user: the `v` bytes that it took, and what was behind them in
the buffer. -/
theorem readTake_copies {pipe : Pipe} (kbuf : BufPtr) (len : Int) {v : Nat} (hsound : pipe.Sound hw)
    (hv : (min len pipe.bytes_in_buffer).toNat = v) :
    (List.range len.toNat).map ((readTake hw k i pipe kbuf len).kbuf kbuf) =
      Ring.contents hw.PIPE_BUFFER_LEN pipe.buffer pipe.read_pos v ++
        (List.range' v (len.toNat - v)).map (k.kbuf kbuf) := by
  have hbuf : (readTake hw k i pipe kbuf len).kbuf kbuf = fun j => if j < v then
      pipe.buffer ((pipe.read_pos + j) % hw.PIPE_BUFFER_LEN) else k.kbuf kbuf j := by
    simp only [readTake, Function.update_self, hv, readLoop_eq 0 _ 0 _ hsound.read_lt]
    simp
  have hsplit : List.range len.toNat = List.range v ++ List.range' v (len.toNat - v) := by
    have hlen : len.toNat = v + (len.toNat - v) := by omega
    conv_lhs => rw [hlen]
    rw [List.range_eq_range', List.range_eq_range', ← List.range'_append_1, Nat.zero_add]
  rw [hbuf, hsplit, List.map_append]
  congr 1
  · apply List.map_congr_left
    intro j hj
    exact if_pos (List.mem_range.1 hj)
  · apply List.map_congr_left
    intro j hj
    have := List.mem_range'_1.1 hj
    exact if_neg (by omega)

/-- The bytes that a read of `len` bytes takes from the pipe. -/
def Pipe.taken (hw : Hardware) (pipe : Pipe) (len : Int) : List UInt8 :=
  Ring.contents hw.PIPE_BUFFER_LEN pipe.buffer pipe.read_pos (min len pipe.bytes_in_buffer).toNat

theorem Pipe.length_taken (pipe : Pipe) (len : Int) :
    (pipe.taken hw len).length = (min len pipe.bytes_in_buffer).toNat := Ring.length_contents

/-- What `SysPipeRead` does with the contents `c` of its buffer. -/
inductive ReadOutcome (hw : Hardware) (k : Kernel) (kbuf : BufPtr) (c : Nat → UInt8) (k' : Kernel) : Prop where
  | refused (hno : readable k (k.uctxt.regs 0) = false) (hstores : k'.userStores = k.userStores)
      (hhist : k'.pipeHistory = k.pipeHistory)
  | copied {pipe : Pipe} {h : List PipeEvent} (hp : k.pipe (k.uctxt.regs 0).toNat = some pipe)
      (hopen : readable k (k.uctxt.regs 0) = true) (hlen : 0 ≤ k.uctxt.regs 2)
      (hhist : k'.pipeHistory = k.pipeHistory ++ h)
      (hmoved : movedBytes (k.uctxt.regs 0).toNat k.current_process h = pipe.taken hw (k.uctxt.regs 2))
      (hstores : k'.userStores = k.userStores ++ [.bytes k.current_process (k.uctxt.regs 1)
        (pipe.taken hw (k.uctxt.regs 2) ++ (List.range' (pipe.taken hw (k.uctxt.regs 2)).length
          ((k.uctxt.regs 2).toNat - (pipe.taken hw (k.uctxt.regs 2)).length)).map c)])

theorem ShapeInv.readOutcome (h : ShapeInv hw k s) (hoff : ∀ l, k.current_process ∉ s l)
    (hidle : k.current_process ≠ k.idle_process) {kbuf : BufPtr} {c : Nat → UInt8}
    (hlive : k.kbufFreed kbuf = false) (hrun : sysPipeRead hw (k.withBuffer kbuf c) kbuf = some k') :
    ReadOutcome hw k kbuf c k' := by
  have hinv := h.withBuffer kbuf c
  have hlive : (k.withBuffer kbuf c).kbufFreed kbuf = false := hlive
  obtain ⟨⟨rc, k₁⟩, hsync, -⟩ := Option.bind_eq_some_iff.1 hrun
  rw [mallocBuffer_of_live hlive] at hsync
  have hsync : syncReadPipe hw (k.withBuffer kbuf c) ((k.withBuffer kbuf c).uctxt.regs 0) kbuf
      ((k.withBuffer kbuf c).uctxt.regs 2) = some (rc, k₁) := hsync
  have hend := readPipe_ends hinv.coherent (fun i => (hinv.shape i).sound) hoff hidle hsync
  have hbuf : (k.withBuffer kbuf c).kbuf kbuf = c := by simp [Kernel.withBuffer]
  obtain ⟨-, -, hcurrent⟩ := PipeSyscall.sync_frame hinv hoff hidle (c := .read kbuf)
    ((PipeSyscall.sync_read hlive).trans hsync)
  generalize hid : (k.withBuffer kbuf c).uctxt.regs 0 = id at hend
  generalize hlen : (k.withBuffer kbuf c).uctxt.regs 2 = len at hend
  have hid : k.uctxt.regs 0 = id := hid
  have hlen' : k.uctxt.regs 2 = len := hlen
  cases hend with
  | error hno =>
    rw [sysPipeRead_eq hlive hsync (by decide), if_pos rfl] at hrun
    obtain rfl := Option.some.inj hrun
    exact .refused (by rw [hid]; exact hno) rfl rfl
  | @blocked i pipe q hopen hp hempty hc =>
    rw [sysPipeRead_eq hlive hsync (by decide), if_neg (by decide), hlen] at hrun
    obtain ⟨hnonneg, rfl⟩ := finishRead_bytes hrun
    have hnone : pipe.taken hw len = [] := by
      apply List.length_eq_zero_iff.1
      rw [pipe.length_taken, hempty]
      omega
    refine .copied (h := [.readCall i k.current_process len]) (by rw [hid]; exact hp)
      (by rw [hid]; exact hopen) (by omega) rfl ?_ ?_
    · rw [hlen', hnone]
      rfl
    · rw [hlen', hnone, List.nil_append, List.length_nil, Nat.sub_zero, ← List.range_eq_range']
      show k.userStores ++ [UserStore.bytes _ _ (List.map ((k.withBuffer kbuf c).kbuf kbuf) _)] = _
      rw [hbuf]
      rfl
  | @taken i pipe k₁ hopen hp hne hdrain =>
    rw [sysPipeRead_eq hlive hsync (by decide), if_neg (by decide), hlen] at hrun
    obtain ⟨hnonneg, rfl⟩ := finishRead_bytes hrun
    -- no reader waits for a pipe with bytes, so the drain fills it and leaves the buffer alone
    have hnobody : s (.wait (.pipeReaders i)) = [] := by
      by_contra hreaders
      exact hne (h.waits i pipe hp hreaders)
    obtain ⟨hc₁, -, hshape₁, -⟩ := hinv.readTake hoff hp kbuf len
    obtain ⟨s', hd, -⟩ := (drain_steps _ _ s hc₁).1 k₁ hdrain
    obtain ⟨h', hhist, hmoved⟩ := hd.moved (p := k.current_process) (hshape₁ i) hc₁ (hoff _)
    have hnone : leftAt i (Yalnix.readTake hw (k.withBuffer kbuf c) i pipe kbuf len) s
      k.current_process = 0 := if_neg (hoff _)
    have hnil : movedBytes i k.current_process h' = [] := List.length_eq_zero_iff.1 (by omega)
    have hsound := (h.shape i).sound pipe hp
    have hcopies := readTake_copies (k := k.withBuffer kbuf c) (i := i) kbuf len hsound rfl
    refine .copied (h := [.readCall i k.current_process len,
      .delivered i k.current_process (pipe.taken hw len)] ++ h') (by rw [hid]; exact hp)
      (by rw [hid]; exact hopen) (by omega) ?_ ?_ ?_
    · show k₁.pipeHistory = _
      rw [hhist, ← List.append_assoc]
      rfl
    · rw [hid, hlen', Int.toNat_natCast, movedBytes_append, hnil, List.append_nil]
      simp
    · show k₁.userStores ++ _ = _
      rw [hd.userStores, hd.kbuf hnobody, hcurrent, hcopies, hbuf, hlen', pipe.length_taken]
      rfl

/-- A read of an open pipe comes back. -/
theorem ShapeInv.readReturns (h : ShapeInv hw k s) (hoff : ∀ l, k.current_process ∉ s l)
    (hidle : k.current_process ≠ k.idle_process) (hopen : readable k (k.uctxt.regs 0) = true)
    (hlen : 0 ≤ k.uctxt.regs 2) {kbuf : BufPtr} (hlive : k.kbufFreed kbuf = false) :
    ∃ k', sysPipeRead hw k kbuf = some k' := by
  have htype : ¬ WrongType k (.readPipe (k.uctxt.regs 0) kbuf (k.uctxt.regs 2)) := by
    intro hwrong
    rw [hwrong.noPipe.2.1] at hopen
    cases hopen
  obtain ⟨rc, k₁, hsync, -⟩ := h.readReported hoff hidle htype
  have hrc : rc ≠ ProcessState.processBlocked.toInt := by
    have hend := readPipe_ends h.coherent (fun i => (h.shape i).sound) hoff hidle hsync
    generalize k.uctxt.regs 0 = id at hend
    cases hend <;> decide
  rw [sysPipeRead_eq hlive hsync hrc]
  split
  · exact ⟨_, rfl⟩
  · obtain ⟨x, hx⟩ := @finishRead_of_nonneg k₁ kbuf (k.uctxt.regs 1) _ hlen
    exact ⟨_, hx⟩

/-! ## When a read is private -/

namespace ReadOutcome

variable {kbuf : BufPtr} {c : Nat → UInt8}

/-- What was behind the bytes from the pipe reaches the user. -/
theorem leaks (h : ReadOutcome hw k kbuf c k') {pipe : Pipe} (hopen : readable k (k.uctxt.regs 0) = true)
    (hp : k.pipe (k.uctxt.regs 0).toNat = some pipe) (hpos : 0 ≤ pipe.bytes_in_buffer)
    (hshort : pipe.bytes_in_buffer < k.uctxt.regs 2) (mem : UserMemory) :
    k'.userMemory mem k.current_process (k.uctxt.regs 1 + pipe.bytes_in_buffer.toNat) =
      c pipe.bytes_in_buffer.toNat := by
  cases h with
  | refused hno =>
    rw [hno] at hopen
    cases hopen
  | @copied pipe' h hp' _ _ hhist hmoved hstores =>
    obtain rfl : pipe = pipe' := Option.some.inj (hp.symm.trans hp')
    have hlen : (pipe.taken hw (k.uctxt.regs 2)).length = pipe.bytes_in_buffer.toNat := by
      rw [pipe.length_taken]
      omega
    have hmem : k'.userMemory mem = (k.storeUser _).userMemory mem := userMemory_congr hstores mem
    rw [hmem, userMemory_storeBytes, Function.update_self, writeBytes_at, List.getElem_append_right]
    · simp [hlen]
    · omega
    · rw [List.length_append, List.length_map, List.length_range']
      omega

/-- The bytes that a full read stores: those that it took. -/
theorem full (h : ReadOutcome hw k kbuf c k') (hfull : ReadIsFull k) : ∃ taken : List UInt8,
    (taken = [] ∧ readable k (k.uctxt.regs 0) = false ∨
      readable k (k.uctxt.regs 0) = true ∧
        ∃ pipe, k.pipe (k.uctxt.regs 0).toNat = some pipe ∧ taken = pipe.taken hw (k.uctxt.regs 2)) ∧
    (∃ h, k'.pipeHistory = k.pipeHistory ++ h ∧
      movedBytes (k.uctxt.regs 0).toNat k.current_process h = taken) ∧
    ∀ mem, k'.userMemory mem = Function.update (k.userMemory mem) k.current_process
      (writeBytes (k.userMemory mem k.current_process) (k.uctxt.regs 1) taken) := by
  cases h with
  | refused hno hstores hhist =>
    refine ⟨[], Or.inl ⟨rfl, hno⟩, ⟨[], by simp [hhist], rfl⟩, ?_⟩
    intro mem
    rw [userMemory_congr hstores, writeBytes_nil, Function.update_eq_self]
  | @copied pipe h hp hopen hnonneg hhist hmoved hstores =>
    refine ⟨_, Or.inr ⟨hopen, pipe, hp, rfl⟩, ⟨h, hhist, hmoved⟩, ?_⟩
    intro mem
    have hle := hfull hopen pipe hp
    have hnothing : (k.uctxt.regs 2).toNat - (pipe.taken hw (k.uctxt.regs 2)).length = 0 := by
      rw [pipe.length_taken]
      omega
    rw [hnothing, List.range'_zero, List.map_nil, List.append_nil] at hstores
    have hmem : k'.userMemory mem = (k.storeUser _).userMemory mem := userMemory_congr hstores mem
    rw [hmem, userMemory_storeBytes]

end ReadOutcome

theorem ShapeInv.readsPrivately (h : ShapeInv hw k s) (hoff : ∀ l, k.current_process ∉ s l)
    (hidle : k.current_process ≠ k.idle_process) (hlen : 0 ≤ k.uctxt.regs 2) {kbuf : BufPtr}
    (hlive : k.kbufFreed kbuf = false) : ReadsPrivately hw k kbuf ↔ ReadIsFull k := by
  constructor
  · intro hprivate hopen pipe hp
    by_contra hshort
    have hshort : pipe.bytes_in_buffer < k.uctxt.regs 2 := by omega
    have hpos := ((h.shape _).sound pipe hp).nonneg
    -- two buffers that differ everywhere
    have hreads : ∀ c, ∃ k', sysPipeRead hw (k.withBuffer kbuf c) kbuf = some k' := fun c =>
      (h.withBuffer kbuf c).readReturns hoff hidle hopen hlen hlive
    obtain ⟨k₁, hk₁⟩ := hreads fun _ => 0
    obtain ⟨k₂, hk₂⟩ := hreads fun _ => 1
    have h₁ := (h.readOutcome hoff hidle hlive hk₁).leaks hopen hp hpos hshort fun _ _ => 0
    have h₂ := (h.readOutcome hoff hidle hlive hk₂).leaks hopen hp hpos hshort fun _ _ => 0
    rw [hprivate.same _ _ k₁ k₂ hk₁ hk₂, h₂] at h₁
    exact absurd h₁ (by decide)
  · intro hfull
    constructor
    · intro c₁ c₂ k₁ k₂ hk₁ hk₂ mem
      obtain ⟨b₁, hb₁, -, hmem₁⟩ := (h.readOutcome hoff hidle hlive hk₁).full hfull
      obtain ⟨b₂, hb₂, -, hmem₂⟩ := (h.readOutcome hoff hidle hlive hk₂).full hfull
      have hsame : b₁ = b₂ := by
        rcases hb₁ with ⟨rfl, hno⟩ | ⟨hopen, pipe, hp, rfl⟩
        · rcases hb₂ with ⟨rfl, -⟩ | ⟨hopen, -⟩
          · rfl
          · rw [hno] at hopen
            cases hopen
        · rcases hb₂ with ⟨-, hno⟩ | ⟨-, pipe', hp', rfl⟩
          · rw [hno] at hopen
            cases hopen
          · obtain rfl : pipe = pipe' := Option.some.inj (hp.symm.trans hp')
            rfl
      rw [hmem₁, hmem₂, hsame]
    · intro c k' hk'
      obtain ⟨b, -, ⟨h', hhist, rfl⟩, hmem⟩ := (h.readOutcome hoff hidle hlive hk').full hfull
      exact ⟨h', hhist, hmem⟩

/-- A read of a pipe by a process on no list, in any state that calls of `sync.c` lead to, with any id,
user buffer and length: it shows the process nothing but the bytes of the pipe if and only if it is full. -/
theorem pipe_read_private {P : Kernel → SyncEvent → Prop} (h₀ : SyncStart k₀)
    {t : List (Kernel × SyncEvent)} (hrun : Run (syncMachine hw) P k₀ t k) (hfree : k.OffQueues p)
    (hidle : p ≠ k.idle_process) (u : UserContext) (hlen : 0 ≤ u.regs 2) (kbuf : BufPtr) :
    ReadsPrivately hw (k.trapped p u) kbuf ↔ ReadIsFull (k.trapped p u) := by
  obtain ⟨hshape, hlive⟩ := shapeRun h₀ hrun
  have hoff := hshape.coherent.offQueues_iff.1 hfree
  exact (hshape.trapped p u).readsPrivately hoff hidle hlen (hlive kbuf)

/-- `103` has written two bytes to a pipe. -/
def filledEvents : List SyncEvent :=
  [.store 1 fun n => n.toUInt8 + 7, .call 102 (.initPipe 8 true fun _ => 0), .call 103 (.writePipe 0 1 2)]

def filledKernel : Kernel :=
  ((syncMachine .small).exec Boot.smallProcesses filledEvents).get (by decide +kernel)

theorem filledKernel_run : Run (syncMachine .small) (fun _ _ => True) Boot.smallProcesses
    ((syncMachine .small).trace Boot.smallProcesses filledEvents) filledKernel := by
  have hexec : (syncMachine .small).exec Boot.smallProcesses filledEvents = some filledKernel :=
    (Option.some_get _).symm
  exact Boot.smallProcesses_syncStart.shapeExec hexec (by decide +kernel)

/-- `102` reads one of them. -/
theorem pipe_read_private_small : ReadsPrivately .small (filledKernel.trapped 102 (oneByte 0)) 0 ∧
    (sysPipeRead .small (filledKernel.trapped 102 (oneByte 0)) 0).map (fun k => k.userStores.getLast?) =
      some (some (.bytes 102 140 [7])) := by
  have hfree : filledKernel.OffQueues 102 :=
    (shapeRun Boot.smallProcesses_syncStart filledKernel_run).1.coherent.offQueues_iff_state.2
      (by decide +kernel)
  have hbytes : (filledKernel.pipe 0).all (fun pipe => 1 ≤ pipe.bytes_in_buffer) = true := by
    decide +kernel
  refine ⟨?_, by decide +kernel⟩
  refine (pipe_read_private Boot.smallProcesses_syncStart filledKernel_run hfree (by decide +kernel)
    (oneByte 0) (by decide) 0).2 ?_
  intro _ pipe hp
  have hp : filledKernel.pipe 0 = some pipe := hp
  rw [hp, Option.all_some] at hbytes
  exact of_decide_eq_true hbytes

/-- One byte is read from the empty pipe `0`: it is what was in the kernel buffer. -/
theorem pipe_read_private_fails : ¬ ∀ (hw : Hardware) (k₀ k : Kernel) (t : List (Kernel × SyncEvent))
    (p : PcbPtr) (u : UserContext) (kbuf : BufPtr), SyncStart k₀ →
    Run (syncMachine hw) (fun _ _ => True) k₀ t k → k.OffQueues p → p ≠ k.idle_process → 0 ≤ u.regs 2 →
    ReadsPrivately hw (k.trapped p u) kbuf := by
  intro h
  have hprivate := h .small _ _ _ 102 (oneByte 0) 0 Boot.smallProcesses_syncStart twoPipeKernel_run
    twoPipeKernel_free (by decide +kernel) (by decide)
  have hread : ∀ c : UInt8, (sysPipeRead .small ((twoPipeKernel.trapped 102 (oneByte 0)).withBuffer 0
      fun _ => c) 0).map (fun k => k.userStores) =
      some ((twoPipeKernel.trapped 102 (oneByte 0)).userStores ++ [.bytes 102 140 [c]]) := by
    intro c
    rfl
  obtain ⟨k₁, hk₁, hstores₁⟩ := Option.map_eq_some_iff.1 (hread 0)
  obtain ⟨k₂, hk₂, hstores₂⟩ := Option.map_eq_some_iff.1 (hread 1)
  have hsame := hprivate.same _ _ k₁ k₂ hk₁ hk₂ fun _ _ => 0
  have hmem : ∀ (k' : Kernel) (c : UInt8), k'.userStores = (twoPipeKernel.trapped 102 (oneByte 0)).userStores ++
      [.bytes 102 140 [c]] → k'.userMemory (fun _ _ => 0) 102 140 = c := by
    intro k' c hstores
    have := userMemory_congr (k := (twoPipeKernel.trapped 102 (oneByte 0)).storeUser (.bytes 102 140 [c]))
      hstores fun _ _ => 0
    rw [this, userMemory_storeBytes, Function.update_self]
    exact writeBytes_at (v := 0) (by simp)
  have h₁ := hmem k₁ 0 hstores₁
  rw [hsame, hmem k₂ 1 hstores₂] at h₁
  exact absurd h₁ (by decide)

end Yalnix
