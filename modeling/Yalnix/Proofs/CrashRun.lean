import Yalnix.Proofs.CalmRun
import Yalnix.Proofs.Crash
import Yalnix.Proofs.KernelMapRun
import Yalnix.Proofs.Handles
import Yalnix.Proofs.WaitOrder

/-!
# Runs in which no call has to wait

From boot on such a run stops exactly where a call or a resuming process goes wrong.
-/

namespace Yalnix

open Intrusive Transition

variable {hw : Hardware} {b : Boot hw} {k k' k₀ k₁ : Kernel} {s s' : QueueId → List PcbPtr}
  {f f' : PcbPtr → List PcbPtr} {p : PcbPtr} {u : UserContext} {c : Syscall} {e : TrapEvent}
  {t : List (Kernel × TrapEvent)}

/-! ## The table and the memory -/

theorem TableIntegrity.trapStep (h : TableIntegrity k) (hstep : (trapMachine hw).step k e = some k') :
    TableIntegrity k' := by
  rcases (KeepsHandles.allows hw (fun _ => True) fun _ => True).trapStep (fun _ _ _ => trivial) hstep with
    hk | ⟨u, child, -, hk⟩ | ⟨caller, -, -, hswitch⟩
  · exact hk.integrity h
  · exact hk.integrity (h.congr rfl rfl rfl)
  · obtain ⟨next, q, rfl⟩ := schedule_switched hswitch
    exact h.congr rfl rfl rfl

theorem vm_enabled_trapStep (hstep : (trapMachine hw).step k e = some k') :
    k'.mem.vm_enabled = k.mem.vm_enabled := by
  rcases (KeepsMemory.allows hw (fun _ => True) fun _ => True).trapStep (fun _ _ _ => trivial) hstep with
    hk | ⟨u, child, -, hk⟩ | ⟨caller, -, -, hswitch⟩
  · exact hk.vm_enabled
  · exact hk.vm_enabled
  · obtain ⟨next, q, rfl⟩ := schedule_switched hswitch
    rfl

/-! ## Calls that leave the families alone -/

theorem syncCall_family (h : Calm hw k s) (hmode : k.mode = .user) (hidle : k.current_process ≠ k.idle_process)
    {call : SyncCall} {rc : Int} (hrun : call.run hw k = some (rc, k')) : k'.family = k.family := by
  obtain ⟨s', hmoves⟩ := syncCall_moves h.steady.coherent h.call.table (h.off hmode) hidle hrun
  exact hmoves.frame.family

theorem returnSync_family (h : Calm hw k s) (hmode : k.mode = .user)
    (hidle : k.current_process ≠ k.idle_process) (call : SyncCall)
    (hstep : returnSync (call.run hw k) = some k') : k'.family = k.family := by
  obtain ⟨rc, k₁, hrun, rfl⟩ := returnSync_eq_some hstep
  exact (syncCall_family h hmode hidle hrun : k₁.family = k.family)

theorem finishRead_family {buf len : Int} {kbuf : BufPtr} (h : k.finishRead buf kbuf len = some k') :
    k'.family = k.family := by
  obtain ⟨-, rfl⟩ := finishRead_bytes h
  rfl

theorem sysPipeRead_family (h : Calm hw k s) (hmode : k.mode = .user)
    (hidle : k.current_process ≠ k.idle_process) {kbuf : BufPtr} (hstep : sysPipeRead hw k kbuf = some k') :
    k'.family = k.family := by
  simp only [sysPipeRead, Option.bind_eq_bind, Option.bind_eq_some_iff, Prod.exists] at hstep
  obtain ⟨rc, k₁, hread, hstep⟩ := hstep
  have hnew : Calm hw (k.mallocBuffer kbuf) s := h.congr rfl
  have hread : (SyncCall.readPipe (k.uctxt.regs 0) kbuf (k.uctxt.regs 2)).run hw (k.mallocBuffer kbuf) =
    some (rc, k₁) := hread
  have hsync : k₁.family = (k.mallocBuffer kbuf).family := syncCall_family hnew hmode hidle hread
  have hsync : k₁.family = k.family := hsync
  split at hstep
  · obtain rfl := Option.some.inj hstep
    exact hsync
  · split at hstep
    · obtain rfl := Option.some.inj hstep
      exact hsync
    · exact (finishRead_family hstep).trans hsync

theorem sysPipeWrite_family (h : Calm hw k s) (hmode : k.mode = .user)
    (hidle : k.current_process ≠ k.idle_process) {kbuf : BufPtr} {data : Nat → UInt8}
    (hstep : sysPipeWrite hw k kbuf data = some k') : k'.family = k.family := by
  unfold sysPipeWrite at hstep
  simp only at hstep
  split at hstep
  · cases hstep
  · simp only [Option.bind_eq_bind, Option.bind_eq_some_iff, Prod.exists] at hstep
    obtain ⟨rc, k₁, hwrite, hstep⟩ := hstep
    have hcopied : Calm hw (k.copyFromUser kbuf data (k.uctxt.regs 2)) s := h.congr rfl
    have hwrite : (SyncCall.writePipe (k.uctxt.regs 0) kbuf (k.uctxt.regs 2)).run hw
        (k.copyFromUser kbuf data (k.uctxt.regs 2)) = some (rc, k₁) := hwrite
    have hsync : k₁.family = (k.copyFromUser kbuf data (k.uctxt.regs 2)).family :=
      syncCall_family hcopied hmode hidle hwrite
    have hsync : k₁.family = k.family := hsync
    split at hstep
    · obtain rfl := Option.some.inj hstep
      exact hsync
    · split at hstep
      · obtain rfl := Option.some.inj hstep
        exact hsync
      · obtain rfl := Option.some.inj hstep
        exact hsync

theorem sysLockAcquire_family (hstep : sysLockAcquire k = some k') : k'.family = k.family := by
  simp only [sysLockAcquire, Option.bind_eq_bind, Option.bind_eq_some_iff, Prod.exists] at hstep
  obtain ⟨rc, k₁, hlock, hstep⟩ := hstep
  have hsync : k₁.family = k.family := syncLockAcquire_family hlock
  split at hstep
  · obtain rfl := Option.some.inj hstep
    exact hsync
  · obtain rfl := Option.some.inj hstep
    exact hsync

theorem sysExec_family {req : LoadRequest} (hstep : sysExec hw k req = some k') : k'.family = k.family := by
  simp only [sysExec, Option.bind_eq_bind, Option.bind_eq_some_iff, Option.pure_def, Option.some.injEq,
    Prod.exists] at hstep
  obtain ⟨rc, m, proc, -, rfl⟩ := hstep
  rfl

theorem sysBrk_family (hstep : sysBrk hw k = some k') : k'.family = k.family := by
  rw [sysBrk_eq] at hstep
  split at hstep
  · obtain rfl := Option.some.inj hstep
    rfl
  · split at hstep
    · obtain rfl := Option.some.inj hstep
      rfl
    · split at hstep
      · obtain ⟨r, -, hstep⟩ := Option.bind_eq_some_iff.1 hstep
        obtain rfl := Option.some.inj hstep
        rfl
      · obtain rfl := Option.some.inj hstep
        rfl

/-- All calls but four move nobody, and know nothing of the families. -/
theorem Calm.quietCall (h : Calm hw k s) (hmode : k.mode = .user) (hidle : k.current_process ≠ k.idle_process)
    (hgo : GoesOn hw k k.uctxt c) (hc : ¬ FamilyEvent (.kernel k.uctxt c)) (hstep : c.run hw k = some k') :
    Quiet hw k s c k' ∧ k'.family = k.family := by
  cases c with
  | fork child => exact absurd trivial hc
  | wait kstatus_ptr => exact absurd trivial hc
  | exit => exact absurd trivial hc
  | delay => exact absurd trivial hc
  | exec req => exact ⟨h.exec hstep, sysExec_family hstep⟩
  | brk => exact ⟨h.brk hstep, sysBrk_family hstep⟩
  | getPid =>
    obtain rfl := Option.some.inj hstep
    exact ⟨(Quiet.refl h _).returnValue _, rfl⟩
  | unimplemented =>
    obtain rfl := Option.some.inj hstep
    exact ⟨(Quiet.refl h _).returnValue _, rfl⟩
  | pipeInit allocated buffer =>
    refine ⟨h.init hmode hidle (.initPipe (k.uctxt.regs 0) allocated buffer) rfl rfl ?_ hstep,
      returnSync_family h hmode hidle (.initPipe (k.uctxt.regs 0) allocated buffer) hstep⟩
    intro i w hw
    rcases List.mem_pair.1 hw with rfl | rfl
    · rfl
    · rfl
  | pipeRead kbuf => exact ⟨h.pipeRead hmode hidle hgo hstep, sysPipeRead_family h hmode hidle hstep⟩
  | pipeWrite kbuf data => exact ⟨h.pipeWrite hmode hidle hgo hstep, sysPipeWrite_family h hmode hidle hstep⟩
  | lockInit allocated =>
    refine ⟨h.init hmode hidle (.initLock (k.uctxt.regs 0) allocated) rfl rfl ?_ hstep,
      returnSync_family h hmode hidle (.initLock (k.uctxt.regs 0) allocated) hstep⟩
    intro i w hw
    obtain rfl := List.mem_singleton.1 hw
    rfl
  | lockAcquire => exact ⟨(h.lockAcquire hmode hidle hgo hstep).1, sysLockAcquire_family hstep⟩
  | lockRelease =>
    exact ⟨h.lockRelease hmode hidle hstep,
      returnSync_family h hmode hidle (.lockRelease (k.uctxt.regs 0)) hstep⟩
  | cvarInit allocated =>
    refine ⟨h.init hmode hidle (.initCvar (k.uctxt.regs 0) allocated) rfl rfl ?_ hstep,
      returnSync_family h hmode hidle (.initCvar (k.uctxt.regs 0) allocated) hstep⟩
    intro i w hw
    obtain rfl := List.mem_singleton.1 hw
    rfl
  | signal =>
    exact ⟨h.signal hstep, returnSync_family h hmode hidle (.cvarSignal (k.uctxt.regs 0)) hstep⟩
  | broadcast rc =>
    exact ⟨h.broadcast hstep, returnSync_family h hmode hidle (.cvarBroadcast (k.uctxt.regs 0) rc) hstep⟩
  | cvarWait =>
    obtain rfl := sysCvarWait_error hstep
    exact ⟨(Quiet.refl h _).returnValue _, rfl⟩

/-! ## Where processes resume -/

/-- A handler allocates nobody but a child that resumes in `SysFork`. -/
theorem CallCase.allocated_new {d : ProcessCall}
    (hcase : CallCase hw k s (.handler k.current_process u d) k' s') (hp : k'.allocated p = true) :
    k.allocated p = true ∨ ∃ v, (k'.pcb p).kernel_context = .sysFork p v := by
  generalize hq : k.current_process = q at hcase
  cases hcase with
  | quiet v hc => exact Or.inl hp
  | refork => exact Or.inl hp
  | @fork _ child =>
    by_cases e : p = child
    · subst e
      exact Or.inr ⟨u, by simp [forked, Kernel.enter]⟩
    · refine Or.inl ?_
      simpa [forked, createPcb, Kernel.enter, e] using hp
  | delays hc => exact Or.inl hp
  | waits hc => exact Or.inl hp
  | @reaps _ z =>
    refine Or.inl ?_
    by_cases e : p = z
    · subst e
      simp [reaped] at hp
    · simpa [reaped, Kernel.enter, e] using hp
  | @dies _ _ k₁ _ hrel =>
    have hp : k₁.allocated p = true := hp
    rcases hrel.allocated p with hsame | ⟨-, -, hfree⟩
    · exact Or.inl (hsame ▸ hp)
    · rw [hfree] at hp
      cases hp
  | @notifies _ parent _ k₁ _ _ _ hrel =>
    have hp : k₁.allocated p = true := by
      by_cases e : p = q
      · subst e
        simp [Kernel.callSchedule, notified] at hp
      · simpa [Kernel.callSchedule, notified, e] using hp
    rcases hrel.allocated p with hsame | ⟨-, -, hfree⟩
    · exact Or.inl (hsame ▸ hp)
    · rw [hfree] at hp
      cases hp

theorem Resumable.congr (h : Resumable k) (hidle : k'.idle_process = k.idle_process)
    (hcurrent : k'.current_process = k.current_process) (hmode : k'.mode ≠ .resumed)
    (hkept : ∀ p, k'.allocated p = true → (k'.pcb p).kernel_context = .uninitialized →
      k.allocated p = true ∧ (k.pcb p).kernel_context = .uninitialized) : Resumable k' := by
  intro p hp hstart
  obtain ⟨hp, hstart⟩ := hkept p hp hstart
  obtain ⟨hi, hc, -⟩ := h p hp hstart
  rw [hidle, hcurrent]
  exact ⟨hi, hc, hmode⟩

theorem Resumable.step (h : Resumable k) (hcase : CalmCase hw k s e k' s')
    (hoff : k.mode = .user → ∀ l, k.current_process ∉ s l) : Resumable k' := by
  cases hcase with
  | quiet hmode hquiet =>
    refine h.congr hquiet.idle hquiet.current ?_ ?_
    · rw [hquiet.mode, hmode]
      simp
    · intro p hp hstart
      rw [hquiet.allocated] at hp
      rw [(hquiet.pcb p).context] at hstart
      exact ⟨hp, hstart⟩
  | handler hmode hcall hcase =>
    have hd := hcase.handled
    refine h.congr hd.idle hd.current ?_ ?_
    · cases hcase.outcome (hoff hmode) hcall.other with
      | returns hmode' =>
        rw [hmode', hmode]
        simp
      | leaves hmode' =>
        rw [hmode']
        simp
    · intro p hp hstart
      constructor
      · rcases hcase.allocated_new hp with hp | ⟨v, hv⟩
        · exact hp
        · rw [hstart] at hv
          cases hv
      · rcases hd.contexts p with hsame | ⟨v, hv⟩
        · exact hsame ▸ hstart
        · rw [hstart] at hv
          cases hv
  | clock hmode hcase =>
    refine h.congr (by rw [hcase.frame]) (by rw [hcase.frame]) ?_ ?_
    · cases hcase with
      | goesOn heq =>
        rw [heq]
        show k.mode ≠ _
        rw [hmode]
        simp
      | preempts heq =>
        rw [heq]
        simp [Kernel.callSchedule]
    · intro p hp hstart
      obtain ⟨ticks, st, time, hpcb⟩ := hcase.pcb p
      rw [hpcb] at hstart
      rw [hcase.frame] at hp
      exact ⟨hp, hstart⟩
  | schedule hmode hnext =>
    -- whoever has called `schedule` resumes from there
    intro p hp hstart
    by_cases e : p = k.current_process
    · simp [switched, switchedPcb, e] at hstart
    · simp only [switched, switchedPcb, if_neg e] at hstart
      exact absurd (h p hp hstart).2.1 e
  | resume hmode heq =>
    intro p hp hstart
    rw [heq] at hp hstart
    exact absurd hmode (h p hp hstart).2.2

/-! ## Parents and children -/

theorem NotifyCase.mem {parent : PcbPtr} {st : ProcessState} {l : QueueId}
    (hcase : NotifyCase k s parent st s') (hp : p ∈ s' l) : p ∈ s l ∨ p = parent := by
  cases hcase with
  | waits hs =>
    by_cases hr : l = .ready
    · subst hr
      simpa using hp
    · rw [Function.update_of_ne hr, Function.update_apply] at hp
      split at hp
      · rename_i hb
        rw [hb]
        exact Or.inl (List.mem_of_mem_erase hp)
      · exact Or.inl hp
  | nowhere hst =>
    rcases mem_update_append.1 hp with hp | ⟨-, e⟩
    · exact Or.inl hp
    · exact Or.inr e
  | elsewhere _ _ => exact Or.inl hp

theorem NotifyCase.zombie {parent : PcbPtr} {st : ProcessState} (hcase : NotifyCase k s parent st s') :
    s' .zombie = s .zombie := by
  cases hcase with
  | waits hs => simp
  | nowhere hst => simp
  | elsewhere _ _ => rfl

namespace Kindred

/-- A step that leaves the families alone, frees nobody but the terminated, and lists nobody who is not
allocated. -/
theorem keeps (h : Kindred k f) (hfamily : k'.family = k.family)
    (hparent : ∀ p, (k'.pcb p).parent = (k.pcb p).parent)
    (hgone : ∀ p, k'.allocated p = true → k.allocated p = true)
    (hstill : ∀ p, k.allocated p = true → p ∉ k.queue .zombie → k'.allocated p = true)
    (hzombie : ∀ p ∈ k'.queue .zombie, p ∈ k.queue .zombie)
    (hcurrent : (∀ caller, k'.mode ≠ .atSchedule caller) → k'.allocated k'.current_process = true)
    (hlisted : ∀ l, l ≠ .zombie → ∀ p ∈ k'.queue l, k'.allocated p = true) : Kindred k' f where
  rep := hfamily ▸ h.rep
  current := hcurrent
  listed := hlisted
  kin c p hc hp := h.kin c p (hgone c hc) (hparent c ▸ hp)
  living p c hc := by
    obtain ⟨hne, hp, hno⟩ := h.living p c hc
    exact ⟨hne, hstill p hp hno, fun hz => hno (hzombie p hz)⟩

/-- The same, when nobody is freed or made. -/
theorem congr (h : Kindred k f) (hfamily : k'.family = k.family) (hallocated : k'.allocated = k.allocated)
    (hparent : ∀ p, (k'.pcb p).parent = (k.pcb p).parent)
    (hzombie : ∀ p ∈ k'.queue .zombie, p ∈ k.queue .zombie)
    (hcurrent : (∀ caller, k'.mode ≠ .atSchedule caller) → k.allocated k'.current_process = true)
    (hlisted : ∀ l, l ≠ .zombie → ∀ p ∈ k'.queue l, k.allocated p = true) : Kindred k' f := by
  refine h.keeps hfamily hparent ?_ ?_ hzombie ?_ ?_
  · intro p hp
    rwa [hallocated] at hp
  · intro p hp _
    rwa [hallocated]
  · rwa [hallocated]
  · rwa [hallocated]

theorem enter (h : Kindred k f) (u : UserContext) : Kindred { k with uctxt := u } f :=
  ⟨h.rep, h.current, h.listed, h.kin, h.living⟩

theorem current_user (h : Kindred k f) (hmode : k.mode = .user) : k.allocated k.current_process = true := by
  apply h.current
  intro caller hno
  rw [hmode] at hno
  cases hno

theorem quiet (h : Kindred k f) (hmode : k.mode = .user) (hq : Quiet hw k k.queue c k')
    (hfamily : k'.family = k.family) : Kindred k' f := by
  have hqueue : k'.queue = k.queue := hq.coherent.queue_eq
  refine h.congr hfamily hq.allocated (fun p => (hq.pcb p).parent) ?_ (fun _ => ?_) ?_
  · rw [hqueue]
    exact fun _ hp => hp
  · rw [hq.current]
    exact h.current_user hmode
  · rw [hqueue]
    exact h.listed

/-- The caller goes to the tail of a list. -/
theorem lists (h : Kindred k f) (hmode : k.mode = .user) {l : QueueId} (hl : l ≠ .zombie)
    (hc : Coherent k' (Function.update k.queue l (k.queue l ++ [k.current_process])))
    (hfamily : k'.family = k.family) (hallocated : k'.allocated = k.allocated)
    (hparent : ∀ p, (k'.pcb p).parent = (k.pcb p).parent)
    (hcurrent : k'.current_process = k.current_process) : Kindred k' f := by
  refine h.congr hfamily hallocated hparent ?_ (fun _ => ?_) ?_
  · rw [hc.queue_eq, Function.update_of_ne hl.symm]
    exact fun _ hp => hp
  · rw [hcurrent]
    exact h.current_user hmode
  · intro l' hl' p hp
    rw [hc.queue_eq] at hp
    rcases mem_update_append.1 hp with hp | ⟨-, rfl⟩
    · exact h.listed l' hl' p hp
    · exact h.current_user hmode

theorem born (h : Kindred k f) (hmode : k.mode = .user) {child : PcbPtr} {m : Memory} {pt stack : Nat → Pte}
    {family : Heap PcbPtr PcbPtr} {q : Heap QueueId PcbPtr} (hfresh : k.allocated child = false)
    (hoff : ∀ l, k.current_process ∉ k.queue l)
    (hrep : family.Rep Set.univ (Function.update f k.current_process (f k.current_process ++ [child])))
    (hc : Coherent (forked hw k child m pt stack family q)
      (Function.update k.queue .ready (k.queue .ready ++ [child]))) :
    Kindred (forked hw k child m pt stack family q)
      (Function.update f k.current_process (f k.current_process ++ [child])) := by
  have hqueue := hc.queue_eq
  have hcurrent := h.current_user hmode
  have hstill : ∀ p, k.allocated p = true → (Function.update k.allocated child true) p = true := by
    intro p hp
    rwa [Function.update_of_ne (ne_of_free hfresh hp).symm]
  have hzombie : (forked hw k child m pt stack family q).queue .zombie = k.queue .zombie := by
    rw [hqueue, Function.update_of_ne (by simp)]
  refine ⟨hrep, fun _ => hstill _ hcurrent, fun l hl p hp => ?_, fun c p hc' hp => ?_, fun p c hc' => ?_⟩
  · rw [hqueue] at hp
    rcases mem_update_append.1 hp with hp | ⟨-, rfl⟩
    · exact hstill p (h.listed l hl p hp)
    · exact Function.update_self _ _ _
  · rw [mem_update_append]
    by_cases e : c = child
    · subst e
      have hparent : some k.current_process = some p := by simpa [forked] using hp
      exact Or.inr ⟨(Option.some.inj hparent).symm, rfl⟩
    · have hc' : Function.update k.allocated child true c = true := hc'
      rw [Function.update_of_ne e] at hc'
      have hp : (k.pcb c).parent = some p := by simpa [forked, e] using hp
      exact Or.inl (h.kin c p hc' hp)
  · rw [hzombie]
    rcases mem_update_append.1 hc' with hc' | ⟨rfl, rfl⟩
    · obtain ⟨hne, hp, hno⟩ := h.living p c hc'
      exact ⟨hne, hstill p hp, hno⟩
    · exact ⟨(ne_of_free hfresh hcurrent).symm, hstill _ hcurrent, hoff _⟩

/-- What a fork does, and how it links the child. -/
theorem forkCase (h : Kindred k f) (hcalm : Calm hw k k.queue) {child : PcbPtr}
    (hfresh : k.allocated child = false) (hok : KeepsGoing hw k (.kernel u (.fork child)))
    (hstep : sysFork hw { k with uctxt := u } child = some k') :
    k' = (({ k with uctxt := u } : Kernel).modifyPcb k.current_process
      fun pcb => { pcb with should_fork := true }).returnValue 0 ∨
    ∃ m pt stack family q, k' = forked hw { k with uctxt := u } child m pt stack family q ∧
      family.Rep Set.univ (Function.update f k.current_process (f k.current_process ++ [child])) ∧
      Coherent k' (Function.update k.queue .ready (k.queue .ready ++ [child])) := by
  have hc : Coherent { k with uctxt := u } k.queue := hcalm.steady.coherent.congr rfl rfl fun _ => rfl
  have hfree := hcalm.steady.coherent.offQueues_iff.1 hok.2.1
  have hno : ∀ p, child ∉ f p := fun p hp => hok.2.2 p ((h.rep.onList_iff (Set.mem_univ p)).2 hp)
  have hnidle : child ≠ k.idle_process := by
    rintro rfl
    rw [hcalm.call.idle_allocated] at hfresh
    cases hfresh
  cases sysFork_cases hc hfree hok.1.2 hnidle hstep with
  | child hflag heq => exact Or.inl heq
  | @parent m pt stack family q hflag hmem hins heq hc' =>
    have hnil : f child = [] := List.eq_nil_iff_forall_not_mem.2 fun c hc => by
      have hlive := (h.living child c hc).2.1
      rw [hfresh] at hlive
      cases hlive
    obtain ⟨family', hins', hrep⟩ :=
      (h.rep.listInit hnil).insertTail (Set.mem_univ k.current_process) hno
    obtain rfl := Option.some.inj (hins.symm.trans hins')
    exact Or.inr ⟨m, pt, stack, family, q, heq, hrep, hc'⟩

/-- The caller has taken the status of a terminated child. -/
theorem reaps (h : Kindred k f) (hmode : k.mode = .user) (hcalm : Calm hw k k.queue) {z : PcbPtr}
    {q : Heap QueueId PcbPtr} (hz : z ∈ k.queue .zombie)
    (hc : Coherent (reaped k z q) (Function.update k.queue .zombie ((k.queue .zombie).erase z))) :
    Kindred (reaped k z q) f := by
  have hqueue := hc.queue_eq
  have hne : ∀ p, p ≠ z → k.allocated p = true → (reaped k z q).allocated p = true := by
    intro p hp ha
    simpa [reaped, hp] using ha
  refine h.keeps rfl (fun p => ?_) (fun p hp => ?_) (fun p ha hno => ?_) ?_ (fun _ => ?_) ?_
  · by_cases e : p = z
    · subst e
      simp [reaped]
    · simp [reaped, e]
  · by_cases e : p = z
    · subst e
      simp [reaped] at hp
    · simpa [reaped, e] using hp
  · apply hne p _ ha
    rintro rfl
    exact hno hz
  · rw [hqueue, Function.update_self]
    exact fun _ hp => List.mem_of_mem_erase hp
  · apply hne _ _ (h.current_user hmode)
    intro e
    exact hcalm.off hmode .zombie (e ▸ hz)
  · intro l hl p hp
    rw [hqueue, Function.update_of_ne hl] at hp
    apply hne p _ (h.listed l hl p hp)
    rintro rfl
    exact hl (hcalm.steady.coherent.unique hp hz)

/-- The caller gives up its children, and is terminated or freed. -/
theorem exits (h : Kindred k f) (hmode : k.mode = .user) (hcalm : Calm hw k k.queue) (hgives : GivesUp k f k₁)
    (hfamily : k'.family = k₁.family) (hsched : k'.mode = .atSchedule .sysExit)
    (hparent : ∀ p, (k'.pcb p).parent = (k₁.pcb p).parent)
    (hgone : ∀ p, k'.allocated p = true → k₁.allocated p = true)
    (hstill : ∀ p, p ≠ k.current_process → k₁.allocated p = true → k'.allocated p = true)
    (hzombie : ∀ p ∈ k'.queue .zombie, p ∈ k.queue .zombie ∨ p = k.current_process)
    (hlisted : ∀ l, l ≠ .zombie → ∀ p ∈ k'.queue l,
      p ∈ k.queue l ∨ (k.pcb k.current_process).parent = some p) :
    Kindred k' (Function.update f k.current_process []) := by
  have hcoherent := hcalm.steady.coherent
  have hcurrent := h.current_user hmode
  have halive : ∀ p, k.allocated p = true → p ∉ k.queue .zombie → p ≠ k.current_process →
      k'.allocated p = true := by
    intro p ha hno hne
    apply hstill p hne
    refine (hgives.allocated p).2 ⟨ha, fun hchild => hno ?_⟩
    exact hcoherent.mem_of_state (Or.inr (Or.inr rfl)) hchild.2
  refine ⟨?_, fun hno => absurd hsched (hno _), fun l hl p hp => ?_, fun c p hc hp => ?_, fun p c hc => ?_⟩
  · rw [hfamily]
    exact hgives.rep
  · rcases hlisted l hl p hp with hp | hpar
    · apply halive p (h.listed l hl p hp)
      · intro hz
        exact hl (hcoherent.unique hp hz)
      · rintro rfl
        exact hcalm.off hmode l hp
    · obtain ⟨hne, ha, hno⟩ := h.living p _ (h.kin _ p hcurrent hpar)
      exact halive p ha hno hne
  · obtain ⟨ha, hnot⟩ := (hgives.allocated c).1 (hgone c hc)
    rw [hparent c, hgives.parent c] at hp
    split at hp
    · cases hp
    · rename_i hkept
      have hchild := h.kin c p ha hp
      -- of the children of the caller nobody is left who has a parent
      have hne : p ≠ k.current_process := by
        rintro rfl
        by_cases hz : (k.pcb c).state = .processZombie
        · exact hnot ⟨hchild, hz⟩
        · exact hkept ⟨hchild, hz⟩
      rwa [Function.update_of_ne hne]
  · have hne : p ≠ k.current_process := by
      rintro rfl
      simp at hc
    rw [Function.update_of_ne hne] at hc
    obtain ⟨hpc, ha, hno⟩ := h.living p c hc
    refine ⟨hpc, halive p ha hno hne, fun hz => ?_⟩
    rcases hzombie p hz with hz | e
    · exact hno hz
    · exact hne e

/-- What an exit has given up, and where it leaves the caller and its parent. -/
theorem exitParts (h : Kindred k f) (hmode : k.mode = .user) (hcalm : Calm hw k k.queue)
    (hidle : k.current_process ≠ k.idle_process) (hstep : sysExit hw k = some k') :
    ∃ k₁, GivesUp k f k₁ ∧ (k₁.pcb k.current_process).parent = (k.pcb k.current_process).parent ∧
      ExitCase k k₁ k.queue k' := by
  have hcoherent := hcalm.steady.coherent
  have hoff := hcalm.off hmode
  have hself : k.current_process ∉ f k.current_process := fun hp => (h.living _ _ hp).1 rfl
  have hparents : ∀ parent, (k.pcb k.current_process).parent = some parent →
      parent ≠ k.current_process ∧ ((k.pcb parent).waiting_for_children ≠ 0 → parent ≠ k.idle_process ∧
        ((k.pcb parent).state = .processBlocked → parent ∈ k.queue .blocked)) := by
    intro parent hpar
    refine ⟨fun e => hcalm.call.parents _ (e ▸ hpar), fun hwait => ⟨?_, ?_⟩⟩
    · rintro rfl
      exact hwait hcalm.call.idle_flag
    · exact hcoherent.mem_blocked hcalm.noWaiter
  obtain ⟨k₁, hrun, hcase⟩ := sysExit_cases hcoherent hoff hidle hparents hstep
  have hgives := releaseProcess_givesUp h.rep hself hrun
  refine ⟨k₁, hgives, ?_, hcase⟩
  -- the caller is not its own child, so it keeps its parent
  rw [hgives.parent, if_neg fun hn => hself hn.1]

theorem exit (h : Kindred k f) (hmode : k.mode = .user) (hcalm : Calm hw k k.queue)
    (hidle : k.current_process ≠ k.idle_process) (hstep : sysExit hw k = some k') :
    Kindred k' (Function.update f k.current_process []) := by
  obtain ⟨k₁, hgives, hcaller, hcase⟩ := h.exitParts hmode hcalm hidle hstep
  cases hcase with
  | zombie hpar heq hc =>
    have hqueue := hc.queue_eq
    subst heq
    refine h.exits hmode hcalm hgives rfl rfl (fun p => ?_) (fun _ hp => hp) (fun _ _ hp => hp) ?_ ?_
    · by_cases e : p = k.current_process
      · subst e
        simp [Kernel.callSchedule, Kernel.setState, Kernel.modifyPcb]
      · simp [Kernel.callSchedule, Kernel.setState, Kernel.modifyPcb, e]
    · intro p hp
      rw [hqueue, Function.update_self] at hp
      simpa using hp
    · intro l hl p hp
      rw [hqueue, Function.update_of_ne hl] at hp
      exact Or.inl hp
  | @notifies q parent st s' hpar hwait hcase heq hc =>
    have hqueue := hc.queue_eq
    subst heq
    have hparent := hcaller.symm.trans hpar
    refine h.exits hmode hcalm hgives rfl rfl (fun p => ?_) (fun p hp => ?_) (fun p hne hp => ?_) ?_ ?_
    · by_cases e : p = parent
      · subst e
        simp [Kernel.callSchedule, notified]
      · simp [Kernel.callSchedule, notified, e]
    · by_cases e : p = k.current_process
      · subst e
        simp [Kernel.callSchedule, notified] at hp
      · simpa [Kernel.callSchedule, notified, e] using hp
    · simpa [Kernel.callSchedule, notified, hne] using hp
    · intro p hp
      rw [hqueue, hcase.zombie] at hp
      exact Or.inl hp
    · intro l hl p hp
      rw [hqueue] at hp
      rcases hcase.mem hp with hp | rfl
      · exact Or.inl hp
      · exact Or.inr hparent

theorem clock (h : Kindred k f) (hmode : k.mode = .user) (hcalm : Calm hw k k.queue)
    (hstep : (trapMachine hw).step k (.clock u) = some k') : Kindred k' f := by
  obtain ⟨hcase, hcalm'⟩ := hcalm.clock hmode hstep
  have hqueue := hcalm'.steady.coherent.queue_eq
  have hzombie : k'.queue .zombie = k.queue .zombie := by
    rw [hqueue]
    simp [tickedLists]
  refine h.congr (clockHandler_family (k := { k with uctxt := u }) hstep) (by rw [hcase.frame])
    (fun p => ?_) ?_ (fun _ => ?_) fun l hl p hp => ?_
  · obtain ⟨ticks, st, time, hpcb⟩ := hcase.pcb p
    rw [hpcb]
  · rw [hzombie]
    exact fun _ hp => hp
  · rw [hcase.frame]
    exact h.current_user hmode
  · -- the tick moves nobody who is terminated
    have hp' := hp
    rw [hqueue] at hp'
    obtain ⟨l', hl'⟩ := mem_of_mem_tickedLists hp'
    apply h.listed l' _ p hl'
    rintro rfl
    rw [← hzombie] at hl'
    rw [hqueue] at hl'
    exact hl (hcalm'.steady.coherent.unique hp' hl')

theorem schedule (h : Kindred k f) (hcalm : Calm hw k k.queue)
    (hstep : (trapMachine hw).step k .schedule = some k') : Kindred k' f := by
  obtain ⟨caller, next, q, s', hmode, rfl, hnext, hsteady⟩ := hcalm.steady.schedule hstep
  have hqueue := hsteady.coherent.queue_eq
  refine h.congr rfl rfl (fun p => rfl) ?_ (fun _ => ?_) fun l hl p hp => ?_
  · rw [hqueue, hnext.other (by simp)]
    exact fun _ hp => hp
  · rcases hnext.origin with e | hready
    · have hidle : next = k.idle_process := e
      show k.allocated next = true
      rw [hidle]
      exact hcalm.call.idle_allocated
    · exact h.listed .ready (by simp) next hready
  · rw [hqueue] at hp
    exact h.listed l hl p (hnext.subset hp)

theorem resume (h : Kindred k f) (hmode : k.mode = .resumed) (hcalm : Calm hw k k.queue)
    (hstep : (trapMachine hw).step k .resume = some k') : Kindred k' f := by
  obtain ⟨heq, hsteady⟩ := hcalm.steady.resume hmode hstep
  have hqueue := hsteady.coherent.queue_eq
  refine h.congr (resume_family hstep) (by rw [heq]) (fun p => by rw [heq]) ?_ (fun _ => ?_) ?_
  · rw [hqueue]
    exact fun _ hp => hp
  · rw [heq]
    apply h.current
    intro caller hno
    rw [hmode] at hno
    cases hno
  · rw [hqueue]
    exact h.listed

/-- Every step keeps parents and children. -/
theorem step (h : Kindred k f) (hcalm : Calm hw k k.queue) (hen : (trapMachine hw).enabled k e)
    (hok : KeepsGoing hw k e) (hstep : (trapMachine hw).step k e = some k') : ∃ f', Kindred k' f' := by
  cases e with
  | kernel u c =>
    obtain ⟨hmode, hidle, hfresh⟩ := hen
    have hu := h.enter u
    have hcalmu : Calm hw { k with uctxt := u } k.queue := hcalm.congr rfl
    have hoff := hcalm.off hmode
    have hc := hcalmu.steady.coherent
    have hquiet : GoesOn hw { k with uctxt := u } u c → ¬ FamilyEvent (.kernel u c) → ∃ f', Kindred k' f' := by
      intro hgo hno
      obtain ⟨hq, hfamily⟩ := hcalmu.quietCall hmode hidle hgo hno hstep
      exact ⟨f, hu.quiet hmode hq hfamily⟩
    cases c with
    | fork child =>
      have hfresh : k.allocated child = false := hfresh
      rcases h.forkCase hcalm hfresh hok hstep with rfl | ⟨m, pt, stack, family, q, rfl, hrep, hc'⟩
      · refine ⟨f, hu.congr rfl rfl (fun p => ?_) (fun _ hp => hp) (fun _ => h.current_user hmode) h.listed⟩
        by_cases e : p = k.current_process
        · subst e
          simp [Kernel.returnValue, Kernel.modifyPcb]
        · simp [Kernel.returnValue, Kernel.modifyPcb, e]
      · exact ⟨_, hu.born hmode hfresh hoff hrep hc'⟩
    | wait kstatus_ptr =>
      cases sysWait_cases hc hoff hidle hstep with
      | childless hempty heq =>
        subst heq
        exact ⟨f, hu.congr rfl rfl (fun _ => rfl) (fun _ hp => hp) (fun _ => h.current_user hmode) h.listed⟩
      | waits hempty hnone heq hc' =>
        subst heq
        refine ⟨f, hu.lists hmode (by simp) hc' rfl rfl (fun p => ?_) rfl⟩
        by_cases e : p = k.current_process
        · subst e
          simp [waitingForChild]
        · simp [waitingForChild, e]
      | reaps hempty hz hzombie heq hc' =>
        subst heq
        exact ⟨f, hu.reaps hmode hcalmu hzombie hc'⟩
    | exit => exact ⟨_, hu.exit hmode hcalmu hidle hstep⟩
    | delay =>
      rcases sysDelay_cases hc hoff hidle hstep with ⟨-, v, rfl⟩ | ⟨-, q, rfl, hc'⟩
      · exact ⟨f, hu.congr rfl rfl (fun _ => rfl) (fun _ hp => hp) (fun _ => h.current_user hmode) h.listed⟩
      · refine ⟨f, hu.lists hmode (by simp) hc' rfl rfl (fun p => ?_) rfl⟩
        by_cases e : p = k.current_process
        · subst e
          simp [delaying]
        · simp [delaying, e]
    | _ => exact hquiet hok.1 not_false
  | clock u => exact ⟨f, h.clock hen hcalm hstep⟩
  | schedule => exact ⟨f, h.schedule hcalm hstep⟩
  | resume => exact ⟨f, h.resume hen hcalm hstep⟩

end Kindred

/-! ## The invariant -/

/-- What holds as long as no call has to wait. -/
structure Sturdy (hw : Hardware) (k : Kernel) : Prop where
  calm : Calm hw k k.queue
  table : TableIntegrity k
  vm_enabled : k.mem.vm_enabled = true
  resumable : Resumable k
  kindred : ∃ f, Kindred k f

theorem kernelStart_sturdy (h₀ : kernelStart b = some k₀) : Sturdy hw k₀ := by
  have hbooted := kernelStart_booted h₀
  refine ⟨hbooted.dispatchStart.calm, kernelStart_table h₀, (kernelStart_mapped h₀).vm_enabled, ?_, ?_⟩
  · intro p hp hstart
    rcases (hbooted.allocated p).1 hp with rfl | rfl
    · refine ⟨hbooted.idle.symm, hbooted.current.symm, ?_⟩
      rw [hbooted.mode]
      simp
    · rw [hbooted.context_init] at hstart
      cases hstart
  · have hqueue : ∀ l, k₀.queue l = Function.update (fun _ => []) .ready [b.init_pcb] l :=
      fun l => (congrFun hbooted.queues.eq_toList l).symm
    refine ⟨fun _ => [], hbooted.family, fun _ => ?_, fun l _ p hp => ?_, fun c p _ hp => ?_, fun p c hc => ?_⟩
    · exact (hbooted.allocated _).2 (Or.inl hbooted.current)
    · rw [hqueue, Function.update_apply] at hp
      split at hp
      · exact (hbooted.allocated p).2 (Or.inr (List.mem_singleton.1 hp))
      · cases hp
    · rw [hbooted.parent] at hp
      cases hp
    · cases hc

namespace Sturdy

theorem step (h : Sturdy hw k) (hen : (trapMachine hw).enabled k e) (hok : KeepsGoing hw k e)
    (hstep : (trapMachine hw).step k e = some k') : Sturdy hw k' := by
  obtain ⟨f, hkindred⟩ := h.kindred
  obtain ⟨s', hcase, hcalm⟩ := h.calm.step hen hok.1 hstep
  obtain rfl : k'.queue = s' := hcalm.steady.coherent.queue_eq
  refine ⟨hcalm, h.table.trapStep hstep, ?_, h.resumable.step hcase h.calm.off, hkindred.step h.calm hen hok hstep⟩
  rw [vm_enabled_trapStep hstep]
  exact h.vm_enabled

end Sturdy

/-! ## The theorem -/

end Yalnix
