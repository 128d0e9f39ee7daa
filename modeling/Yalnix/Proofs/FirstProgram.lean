import Yalnix.FirstProgram
import Yalnix.Proofs.CalmRun
import Yalnix.Proofs.Crash
import Yalnix.Proofs.Exec
import Yalnix.Proofs.WaitBound

/-!
# The init process starts

Two ticks of the clock, a switch and a return lead from boot to the init process, and nothing else can happen
before.
-/

namespace Yalnix

open Intrusive Transition

variable {hw : Hardware} {b : Boot hw} {k k' k₀ : Kernel} {m m' : Memory} {proc proc' : Pcb} {rc : LoadResult}
  {t : List (Kernel × TrapEvent)} {u : UserContext}

/-! ## What boot loads -/

/-- Table, break and saved context of `proc'` are those of `proc`. -/
structure SameProgram (proc proc' : Pcb) : Prop where
  region1_pt : proc'.region1_pt = proc.region1_pt
  brk : proc'.brk = proc.brk
  user_context : proc'.user_context = proc.user_context

/-- Without success the program counter stays as it was. -/
theorem loadProgram_pc {req : LoadRequest} (h : loadProgram hw m proc req = some (rc, m', proc'))
    (hrc : rc ≠ .success) : proc'.user_context.pc = proc.user_context.pc := by
  rcases loadProgram_cases h with ⟨-, -, rfl⟩ | ⟨li, -, -, hcase⟩
  · show (req.refusedContext hw proc.user_context).pc = _
    unfold LoadRequest.refusedContext
    split
    · rfl
    · split
      · rfl
      · split <;> rfl
  · cases hcase with
    | built => exact absurd rfl hrc
    | _ => rfl

/-- With success the process has the new image, if nothing was mapped before. -/
theorem loadProgram_newImage {req : LoadRequest} (h : loadProgram hw m proc req = some (.success, m', proc'))
    (hempty : ∀ i < hw.MAX_PT_LEN, (proc.region1_pt i).valid = false) :
    ∃ li ∈ req.li, NewImage hw req li proc' proc'.user_context := by
  rcases loadProgram_cases h with ⟨href, -, -⟩ | ⟨li, hli, -, -⟩
  · rw [loadProgram_refused href] at h
    cases h
  · obtain ⟨m₁, pt₁, m₂, pt₂, pt₃, h₁, h₂, h₃, rfl⟩ := loadProgram_success hli h
    have htable := BuiltTable.ofLoops h₁ h₂ h₃
    refine ⟨li, hli, fun i hi => ⟨fun hv => ?_, htable.image i hi⟩, htable.text, htable.data, rfl, rfl, rfl⟩
    by_contra hnot
    have hold : protectText pt₃ (li.text_pg1 hw) (li.textTurns hw) i = proc.region1_pt i := htable.old i hi hnot
    have hv : (protectText pt₃ (li.text_pg1 hw) (li.textTurns hw) i).valid = true := hv
    rw [hold, hempty i hi] at hv
    cases hv

theorem startIdle_slice (h : startIdle b = some k) : (k.pcb b.idle_pcb).time_slice = 1 := by
  unfold startIdle at h
  simp only at h
  split at h
  · cases h
  · simp only [Option.bind_eq_bind, Option.bind_eq_some_iff, Option.pure_def, Option.some.injEq,
      Prod.exists] at h
    obtain ⟨m, stack, -, rfl⟩ := h
    simp [Kernel.modifyPcb]

theorem startInit_loaded (hidle : startIdle b = some k) (hinit : startInit b k = some k') :
    ∃ rc m proc, b.loaded = some (rc, m, proc) ∧ SameProgram proc (k'.pcb b.init_pcb) ∧
      ∀ p, p ≠ b.init_pcb → k'.pcb p = k.pcb p := by
  simp only [startInit, Option.bind_eq_bind, Option.bind_eq_some_iff, Option.pure_def, Option.some.injEq,
    Prod.exists] at hinit
  obtain ⟨m₁, stack, hstack, rc, m, proc, hload, rfl⟩ := hinit
  refine ⟨rc, m, proc, ?_, ⟨?_, ?_, ?_⟩, fun p hp => ?_⟩
  · simp only [Boot.loaded, hidle, hstack, Option.bind_eq_bind, Option.bind_some]
    simpa [Kernel.modifyPcb] using hload
  · simp [Kernel.modifyPcb]
  · simp [Kernel.modifyPcb]
  · simp [Kernel.modifyPcb]
  · simp [Kernel.modifyPcb, createPcb, hp]

/-- The init process has the image of `LoadProgram`, or else its program counter was left alone. -/
theorem Boot.loaded_image (h : b.loaded = some (rc, m, proc)) :
    (rc = .success → ∃ li ∈ b.initProgram.li, NewImage hw b.initProgram li proc proc.user_context) ∧
      (rc ≠ .success → proc.user_context.pc = b.uctxt.pc) := by
  simp only [Boot.loaded, Option.bind_eq_bind, Option.bind_eq_some_iff, Prod.exists] at h
  obtain ⟨k, -, m₁, stack, -, hload⟩ := h
  constructor
  · rintro rfl
    apply loadProgram_newImage hload
    intro i _
    simp [createPcb, Pte.zero]
  · intro hrc
    exact loadProgram_pc hload hrc

/-! ## The turn of the idle process -/

/-- The idle process has the processor, and the init process is the only one that is ready. -/
structure IdleTurn (b : Boot hw) (proc : Pcb) (k : Kernel) : Prop where
  coherent : Coherent k (Function.update (fun _ => []) .ready [b.init_pcb])
  current : k.current_process = b.idle_pcb
  idle : k.idle_process = b.idle_pcb
  slice : (k.pcb b.idle_pcb).time_slice = 1
  context : (k.pcb b.init_pcb).kernel_context = .kernelStart
  program : SameProgram proc (k.pcb b.init_pcb)

theorem addToQueue_state {l : QueueId} {st : ProcessState} {p : PcbPtr} (h : addToQueue l st k p = some k')
    (q : PcbPtr) : ∃ st', k'.pcb q = { k.pcb q with state := st' } := by
  unfold addToQueue at h
  split at h
  · obtain rfl := Option.some.inj h
    exact ⟨_, rfl⟩
  · obtain ⟨_, -, rfl⟩ := Option.map_eq_some_iff.1 h
    by_cases e : q = p
    · subst e
      exact ⟨st, by simp [Kernel.setState, Kernel.modifyPcb]⟩
    · exact ⟨(k.pcb q).state, by simp [Kernel.setState, Kernel.modifyPcb, e]⟩

theorem kernelStart_turn (h₀ : kernelStart b = some k₀) :
    ∃ rc m proc, b.loaded = some (rc, m, proc) ∧ IdleTurn b proc k₀ := by
  have hbooted := kernelStart_booted h₀
  have hne := b.init_ne_idle
  simp only [kernelStart, Option.bind_eq_bind, Option.bind_eq_some_iff, Option.pure_def, Option.some.injEq] at h₀
  obtain ⟨k₁, hidle, k₂, hinit, k₃, hready, rfl⟩ := h₀
  obtain ⟨rc, m, proc, hload, hprogram, hother⟩ := startInit_loaded hidle hinit
  obtain ⟨st, hst⟩ := addToQueue_state hready b.idle_pcb
  obtain ⟨st', hst'⟩ := addToQueue_state hready b.init_pcb
  have hinit₃ : ∀ k, (setCurrentProcess k b.idle_pcb).pcb b.init_pcb = k.pcb b.init_pcb := by
    intro k
    simp [setCurrentProcess, Kernel.setState, Kernel.modifyPcb, hne]
  refine ⟨rc, m, proc, hload, hbooted.coherent, rfl, hbooted.idle, ?_, hbooted.context_init, ?_⟩
  · have hslice : (k₃.pcb b.idle_pcb).time_slice = 1 := by
      rw [hst, hother _ hne.symm]
      exact startIdle_slice hidle
    simpa [setCurrentProcess, Kernel.setState, Kernel.modifyPcb] using hslice
  · rw [hinit₃]
    have hkept : SameProgram proc (k₃.pcb b.init_pcb) := by
      rw [hst']
      exact ⟨hprogram.region1_pt, hprogram.brk, hprogram.user_context⟩
    exact hkept

/-- A tick on an empty delay queue leaves the lists alone. -/
theorem tickedLists_nil {s : QueueId → List PcbPtr} (hs : s .delay = []) :
    tickedLists k s (s .delay) [] = s := by
  unfold tickedLists
  rw [hs]
  funext l
  by_cases hr : l = .ready
  · subst hr
    simp
  · by_cases hd : l = .delay
    · subst hd
      simp [hs]
    · simp [hr, hd]

namespace IdleTurn

theorem tick_some (h : IdleTurn b proc k) (u : UserContext) :
    ∃ k', (trapMachine hw).step k (.clock u) = some k' := by
  have hc : Coherent { k with uctxt := u } (Function.update (fun _ => []) .ready [b.init_pcb]) :=
    h.coherent.congr rfl rfl fun _ => rfl
  exact hc.clockHandler_some

/-- The first tick lets the idle process go on, and the second one does not. -/
theorem tick (h : IdleTurn b proc k) (hinv : SwitchInv hw t k) (hmode : k.mode = .user)
    (hstep : (trapMachine hw).step k (.clock u) = some k') :
    IdleTurn b proc k' ∧ k'.mode = if ticksSinceSwitch t = 0 then .user else .atSchedule .clockHandler := by
  have hc : Coherent { k with uctxt := u } (Function.update (fun _ => []) .ready [b.init_pcb]) :=
    h.coherent.congr rfl rfl fun _ => rfl
  have hoff : ∀ l, k.current_process ∉ Function.update (fun _ : QueueId => ([] : List PcbPtr)) .ready
      [b.init_pcb] l := by
    rw [h.current, ← h.idle]
    exact h.coherent.idle
  have hcase := clockHandler_cases hc hoff hstep
  have hlists : tickedLists { k with uctxt := u } (Function.update (fun _ => []) .ready [b.init_pcb])
      (Function.update (fun _ : QueueId => ([] : List PcbPtr)) .ready [b.init_pcb] .delay) [] =
      Function.update (fun _ => []) .ready [b.init_pcb] := tickedLists_nil (by simp)
  have hc' : Coherent k' (Function.update (fun _ => []) .ready [b.init_pcb]) := by
    cases hcase with
    | goesOn heq hc' => rwa [hlists] at hc'
    | preempts heq hc' => rwa [hlists] at hc'
  have hturn : IdleTurn b proc k' := by
    obtain ⟨ticks, st, time, hidle⟩ := hcase.pcb b.idle_pcb
    obtain ⟨ticks', st', time', hinit⟩ := hcase.pcb b.init_pcb
    refine ⟨hc', by rw [hcase.frame]; exact h.current, by rw [hcase.frame]; exact h.idle, ?_, ?_, ?_⟩
    · rw [hidle]
      exact h.slice
    · rw [hinit]
      exact h.context
    · rw [hinit]
      exact ⟨h.program.region1_pt, h.program.brk, h.program.user_context⟩
  refine ⟨hturn, ?_⟩
  have hinv' := hinv.clock hstep
  have htime := hinv.runTime
  have htime' := hinv'.runTime
  have hnonneg := ticksSinceSwitch_nonneg (t := t)
  rw [ticksSinceSwitch_clock, hturn.current] at htime'
  rw [h.current] at htime
  cases hcase with
  | goesOn heq =>
    have hgoes : ∀ caller, k'.mode ≠ .atSchedule caller := by
      intro caller hno
      have hno : k.mode = .atSchedule caller := by
        rw [heq] at hno
        exact hno
      rw [hmode] at hno
      cases hno
    have hready : k'.count .ready ≠ 0 := by
      intro hzero
      have hnil := hc'.count_eq_zero.1 hzero
      simp at hnil
    have hwithin := clockHandler_goesOn hstep hgoes hready
    rw [hturn.current, htime', hturn.slice] at hwithin
    rw [if_pos (by omega), heq]
    exact hmode
  | preempts heq _ hlong =>
    have hlong : (k.pcb k.current_process).time_slice ≤ (k.pcb k.current_process).run_time := hlong
    rw [h.current, h.slice, htime] at hlong
    rw [if_neg (by omega), heq]
    rfl

/-- `schedule` switches to the init process. -/
theorem switch (h : IdleTurn b proc k) (caller : ScheduleCaller) :
    ∃ q, schedule hw k caller = some (switched hw k caller b.init_pcb q) ∧
      Coherent (switched hw k caller b.init_pcb q) fun _ => [] := by
  obtain ⟨next, s', q, hrun, hnext, hc⟩ := h.coherent.schedule hw caller
  generalize hs : Function.update (fun _ : QueueId => ([] : List PcbPtr)) .ready [b.init_pcb] = s at hnext
  have hready : s .ready = [b.init_pcb] := by
    rw [← hs, Function.update_self]
  cases hnext with
  | idle hnil =>
    rw [hready] at hnil
    cases hnil
  | ready hcons =>
    rw [hready] at hcons
    obtain ⟨rfl, rfl⟩ := List.cons.inj hcons
    refine ⟨q, hrun, ?_⟩
    have hlists : Function.update s .ready [] = fun _ => [] := by
      rw [← hs]
      funext l
      by_cases e : l = .ready
      · simp [e]
      · simp [e]
    rwa [hlists] at hc

/-- There it returns into `KernelStart`, and that to user mode. -/
theorem returns (h : IdleTurn b proc k) {caller : ScheduleCaller} {q : Heap QueueId PcbPtr}
    (hc : Coherent (switched hw k caller b.init_pcb q) fun _ => []) :
    ∃ k', resume (switched hw k caller b.init_pcb q) = some k' ∧
      (SwitchInv hw t k' → b.InitRuns proc k') := by
  have hne : b.init_pcb ≠ k.current_process := by
    rw [h.current]
    exact b.init_ne_idle
  have hcontext : ((switched hw k caller b.init_pcb q).pcb b.init_pcb).kernel_context = .kernelStart := by
    simp [switched, switchedPcb, hne, h.context]
  have hcurrent : (switched hw k caller b.init_pcb q).current_process = b.init_pcb := rfl
  obtain ⟨k', hk'⟩ : ∃ k', resume (switched hw k caller b.init_pcb q) = some k' := by
    simp [resume, hcurrent, hcontext]
  refine ⟨k', hk', fun hinv => ?_⟩
  simp only [resume, hcurrent, hcontext, Option.bind_eq_bind, Option.bind_some, Option.pure_def,
    Option.some.injEq] at hk'
  subst hk'
  refine ⟨rfl, rfl, rfl, hinv.stack, ?_, ?_, ?_, fun l => ?_⟩
  · simpa [switched, switchedPcb, Kernel.setState, Kernel.modifyPcb, hne] using h.program.user_context
  · simpa [switched, switchedPcb, Kernel.setState, Kernel.modifyPcb] using h.program.region1_pt
  · simpa [switched, switchedPcb, Kernel.setState, Kernel.modifyPcb] using h.program.brk
  · exact congrFun hc.queue_eq l

end IdleTurn

/-! ## What can happen -/

variable {e : TrapEvent}

/-- The idle process makes no call. -/
theorem event_of_idle (hmode : k.mode = .user) (hidle : k.current_process = k.idle_process)
    (hen : (trapMachine hw).enabled k e) (hstep : (trapMachine hw).step k e = some k') :
    ∃ u, e = .clock u := by
  cases e with
  | kernel u c => exact absurd hidle hen.2.1
  | clock u => exact ⟨u, rfl⟩
  | schedule => simp [trapMachine, hmode] at hstep
  | resume =>
    have hen : k.mode = .resumed := hen
    rw [hmode] at hen
    cases hen

theorem event_of_atSchedule {caller : ScheduleCaller} (hmode : k.mode = .atSchedule caller)
    (hen : (trapMachine hw).enabled k e) : e = .schedule := by
  cases e with
  | kernel u c =>
    have hen := hen.1
    rw [hmode] at hen
    cases hen
  | clock u =>
    have hen : k.mode = .user := hen
    rw [hmode] at hen
    cases hen
  | schedule => rfl
  | resume =>
    have hen : k.mode = .resumed := hen
    rw [hmode] at hen
    cases hen

theorem event_of_resumed (hmode : k.mode = .resumed) (hen : (trapMachine hw).enabled k e)
    (hstep : (trapMachine hw).step k e = some k') : e = .resume := by
  cases e with
  | kernel u c =>
    have hen := hen.1
    rw [hmode] at hen
    cases hen
  | clock u =>
    have hen : k.mode = .user := hen
    rw [hmode] at hen
    cases hen
  | schedule => simp [trapMachine, hmode] at hstep
  | resume => rfl

/-- Two ticks from boot the clock takes the processor from the idle process. -/
theorem ticks_preempt {k₁ k₂ : Kernel} {u₁ u₂ : UserContext} (h₀ : kernelStart b = some k₀)
    (hturn : IdleTurn b proc k₀) (hstep₁ : (trapMachine hw).step k₀ (.clock u₁) = some k₁)
    (hstep₂ : (trapMachine hw).step k₁ (.clock u₂) = some k₂) :
    (IdleTurn b proc k₁ ∧ k₁.mode = .user) ∧ IdleTurn b proc k₂ ∧ k₂.mode = .atSchedule .clockHandler := by
  have hinv := kernelStart_inv h₀
  obtain ⟨hturn₁, hmode₁⟩ := hturn.tick hinv (kernelStart_booted h₀).mode hstep₁
  have hmode₁ : k₁.mode = .user := hmode₁
  obtain ⟨hturn₂, hmode₂⟩ := hturn₁.tick (hinv.clock hstep₁) hmode₁ hstep₂
  refine ⟨⟨hturn₁, hmode₁⟩, hturn₂, ?_⟩
  rw [hmode₂, if_neg]
  rw [ticksSinceSwitch_clock]
  decide

/-! ## The theorem -/

theorem Boot.InitRuns.newImage {req : LoadRequest} {li : LoadInfo} (h : b.InitRuns proc k)
    (himage : NewImage hw req li proc proc.user_context) :
    NewImage hw req li (k.pcb b.init_pcb) k.uctxt := by
  obtain ⟨hpages, htext, hdata, hbrk, hpc, hsp⟩ := himage
  rw [← h.region1_pt] at hpages htext hdata
  rw [← h.brk] at hbrk
  rw [← h.uctxt] at hpc hsp
  exact ⟨hpages, htext, hdata, hbrk, hpc, hsp⟩

/-- Boot leads to the init process. -/
theorem firstEvents_exec (h₀ : kernelStart b = some k₀) (hturn : IdleTurn b proc k₀) (u₁ u₂ : UserContext) :
    ∃ k, (trapMachine hw).exec k₀ (firstEvents u₁ u₂) = some k ∧ b.InitRuns proc k := by
  obtain ⟨k₁, hstep₁⟩ := hturn.tick_some u₁
  obtain ⟨k₂, hstep₂⟩ := (hturn.tick (kernelStart_inv h₀) (kernelStart_booted h₀).mode hstep₁).1.tick_some u₂
  obtain ⟨-, hturn₂, hmode₂⟩ := ticks_preempt h₀ hturn hstep₁ hstep₂
  obtain ⟨q, hswitch, hc⟩ := hturn₂.switch .clockHandler
  obtain ⟨k, hresume, hruns⟩ := hturn₂.returns hc
  have hstep₃ : (trapMachine hw).step k₂ .schedule = some (switched hw k₂ .clockHandler b.init_pcb q) := by
    simp only [trapMachine, hmode₂]
    exact hswitch
  have hstep₄ : (trapMachine hw).step (switched hw k₂ .clockHandler b.init_pcb q) .resume = some k := hresume
  have hinv := ((kernelStart_inv h₀).clock hstep₁).clock hstep₂
  refine ⟨k, ?_, hruns ((hinv.step (e := .schedule) trivial hstep₃).step (e := .resume) trivial hstep₄)⟩
  simp only [firstEvents, System.exec, hstep₁, hstep₂, hstep₃, hstep₄, Option.bind_some]

/-- Nothing else can happen. -/
theorem run_begins {P : Kernel → TrapEvent → Prop} (h₀ : kernelStart b = some k₀) (hturn : IdleTurn b proc k₀)
    (hrun : Run (trapMachine hw) P k₀ t k) (hlen : 4 ≤ t.length) : ∃ u₁ u₂ t',
    t = (trapMachine hw).trace k₀ (firstEvents u₁ u₂) ++ t' := by
  obtain ⟨⟨y₁, e₁⟩, ⟨y₂, e₂⟩, ⟨y₃, e₃⟩, ⟨y₄, e₄⟩, t', rfl⟩ : ∃ x₁ x₂ x₃ x₄ t', t = x₁ :: x₂ :: x₃ :: x₄ :: t' := by
    match t, hlen with
    | x₁ :: x₂ :: x₃ :: x₄ :: t', _ => exact ⟨x₁, x₂, x₃, x₄, t', rfl⟩
  have hbooted := kernelStart_booted h₀
  obtain rfl := hrun.head
  obtain ⟨k₁, hen₁, -, hstep₁, hrun₁⟩ := hrun.uncons
  obtain rfl := hrun₁.head
  obtain ⟨k₂, hen₂, -, hstep₂, hrun₂⟩ := hrun₁.uncons
  obtain rfl := hrun₂.head
  obtain ⟨k₃, hen₃, -, hstep₃, hrun₃⟩ := hrun₂.uncons
  obtain rfl := hrun₃.head
  obtain ⟨k₄, hen₄, -, hstep₄, -⟩ := hrun₃.uncons
  -- the idle process has to be preempted, and the init process is switched to
  obtain ⟨u₁, rfl⟩ := event_of_idle hbooted.mode (hbooted.current.trans hbooted.idle.symm) hen₁ hstep₁
  obtain ⟨hturn₁, hmode₁⟩ := hturn.tick (kernelStart_inv h₀) hbooted.mode hstep₁
  obtain ⟨u₂, rfl⟩ := event_of_idle hmode₁ (hturn₁.current.trans hturn₁.idle.symm) hen₂ hstep₂
  obtain ⟨-, hturn₂, hmode₂⟩ := ticks_preempt h₀ hturn hstep₁ hstep₂
  obtain rfl := event_of_atSchedule hmode₂ hen₃
  obtain ⟨q, hswitch, hc⟩ := hturn₂.switch .clockHandler
  have hmode₃ : y₄.mode = .resumed := by
    have hmode₂ : y₃.mode = .atSchedule .clockHandler := hmode₂
    have hstep : schedule hw y₃ .clockHandler = some y₄ := by simpa [trapMachine, hmode₂] using hstep₃
    obtain rfl := Option.some.inj (hstep.symm.trans hswitch)
    rfl
  obtain rfl := event_of_resumed hmode₃ hen₄ hstep₄
  refine ⟨u₁, u₂, t', ?_⟩
  simp only [firstEvents, System.trace, hstep₁, hstep₂, hstep₃, hstep₄, List.cons_append, List.nil_append]

/-- Whatever is in the registers at its two ticks, boot leads to the init process, and every run from boot
begins so. The init process then runs the program that was asked for, if `LoadProgram` has loaded it. -/
theorem init_starts (h₀ : kernelStart b = some k₀) : ∃ rc m proc, b.loaded = some (rc, m, proc) ∧
    (∀ u₁ u₂, ∃ k, (trapMachine hw).exec k₀ (firstEvents u₁ u₂) = some k ∧ b.InitRuns proc k ∧
      b.InitRunsFrom rc k) ∧
    ∀ P t k, Run (trapMachine hw) P k₀ t k → 4 ≤ t.length → ∃ u₁ u₂ t',
      t = (trapMachine hw).trace k₀ (firstEvents u₁ u₂) ++ t' := by
  obtain ⟨rc, m, proc, hload, hturn⟩ := kernelStart_turn h₀
  obtain ⟨hsuccess, hfailure⟩ := b.loaded_image hload
  refine ⟨rc, m, proc, hload, fun u₁ u₂ => ?_, fun P t k hrun hlen => run_begins h₀ hturn hrun hlen⟩
  obtain ⟨k, hexec, hruns⟩ := firstEvents_exec h₀ hturn u₁ u₂
  refine ⟨k, hexec, hruns, fun hrc => ?_, fun hrc => ?_⟩
  · obtain ⟨li, hli, himage⟩ := hsuccess hrc
    exact ⟨li, hli, hruns.newImage himage⟩
  · rw [hruns.uctxt]
    exact hfailure hrc

/-- The small machine runs a program with one page each of text, data and stack. -/
theorem init_starts_small : ∃ rc m proc, Boot.small.loaded = some (rc, m, proc) ∧
    ∃ k, (trapMachine .small).exec Boot.smallKernel (firstEvents Boot.small.uctxt Boot.small.uctxt) = some k ∧
      Boot.small.InitRuns proc k ∧ Boot.small.InitRunsFrom rc k := by
  have h₀ : kernelStart Boot.small = some Boot.smallKernel := (Option.some_get _).symm
  obtain ⟨rc, m, proc, hload, hevents, -⟩ := init_starts h₀
  exact ⟨rc, m, proc, hload, hevents _ _⟩

end Yalnix
