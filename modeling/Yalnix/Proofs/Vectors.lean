import Mathlib.Data.List.Nodup
import Yalnix.KernelStart
import Yalnix.SwitchRun
import Yalnix.Vectors

/-!
# What the two tables lead to

A code of `yalnix.h` leads to its own handler, and every other code to `ERROR`. Up to the trap frame of a
process in user mode, the machine with the tables is the machine of `TrapRun`.
-/

namespace Yalnix

open Transition

variable {hw : Hardware} {h : Header} {k k' : Kernel} {u : UserContext} {a : Answers}

/-! ## Tables -/

section Tables

variable {ι α : Type} {row : ι → Nat} {l : List (ι × α)}

theorem fillTable_append (x : ι × α) :
    fillTable row (l ++ [x]) = Function.update (fillTable row l) (row x.1) (some x.2) := by
  unfold fillTable
  rw [List.foldl_append]
  rfl

/-- A table holds what was put into it, if no row is written twice. -/
theorem fillTable_eq_some_iff (hrow : Function.Injective row) (hnodup : (l.map Prod.fst).Nodup) {n : Nat}
    {f : α} : fillTable row l n = some f ↔ ∃ c, (c, f) ∈ l ∧ row c = n := by
  induction l using List.reverseRecOn with
  | nil => simp [fillTable]
  | append_singleton l x ih =>
    rw [List.map_append, List.map_singleton] at hnodup
    have hbefore := ih (List.Nodup.of_append_left hnodup)
    have hnew : ∀ y ∈ l, y.1 ≠ x.1 := by
      intro y hy e
      have hmem : x.1 ∈ l.map Prod.fst := e ▸ List.mem_map_of_mem hy
      exact (List.nodup_append.1 hnodup).2.2 _ hmem _ (List.mem_singleton_self _) rfl
    rw [fillTable_append]
    by_cases e : n = row x.1
    · subst e
      rw [Function.update_self, Option.some.injEq]
      constructor
      · rintro rfl
        exact ⟨x.1, by simp, rfl⟩
      · rintro ⟨c, hc, hrowc⟩
        obtain rfl := hrow hrowc
        rcases List.mem_append.1 hc with hc | hc
        · exact absurd rfl (hnew (x.1, f) hc)
        · exact (Prod.mk.inj (List.mem_singleton.1 hc)).2.symm
    · rw [Function.update_of_ne e, hbefore]
      constructor
      · rintro ⟨c, hc, hrowc⟩
        exact ⟨c, List.mem_append_left _ hc, hrowc⟩
      · rintro ⟨c, hc, hrowc⟩
        rcases List.mem_append.1 hc with hc | hc
        · exact ⟨c, hc, hrowc⟩
        · obtain rfl : (c, f) = x := List.mem_singleton.1 hc
          exact absurd hrowc.symm e

end Tables

/-! ## The table of system calls -/

namespace Header

theorem row_injective (h : Header) : Function.Injective h.row := by
  intro c c' hrow
  have hxor : h.code c ^^^ h.YALNIX_PREFIX = h.code c' ^^^ h.YALNIX_PREFIX := BitVec.eq_of_toNat_eq hrow
  have hcode := congrArg (· ^^^ h.YALNIX_PREFIX) hxor
  simp only [BitVec.xor_assoc, BitVec.xor_self, BitVec.xor_zero] at hcode
  exact h.code_injective hcode

end Header

/-- The check of `kernel_handler` lets pass exactly the indices under `256`. -/
theorem syscallIndex_checked {x : BitVec 32} : (x.toInt ≥ 0 ∧ x.toInt < 256) ↔ x.toNat < 256 := by
  rw [BitVec.toInt_eq_toNat_cond]
  have := x.isLt
  split <;> omega

theorem findSyscall_eq_some_iff {f : SyscallHandler} : findSyscall h u = some f ↔
    ∃ c, (c, f) ∈ syscallAssignments ∧ BitVec.ofInt 32 u.code = h.code c := by
  have htable : ∀ n, syscallsInit h n = some f ↔ ∃ c, (c, f) ∈ syscallAssignments ∧ h.row c = n :=
    fun n => fillTable_eq_some_iff h.row_injective (by decide)
  unfold findSyscall
  simp only
  constructor
  · intro hfind
    split at hfind
    · rename_i hcheck
      obtain ⟨c, hc, hrow⟩ := (htable _).1 hfind
      refine ⟨c, hc, ?_⟩
      have hsmall : (BitVec.ofInt 32 u.code ^^^ h.YALNIX_PREFIX).toNat < 256 :=
        syscallIndex_checked.1 hcheck
      have hindex : (syscallIndex h u).toNat = (BitVec.ofInt 32 u.code ^^^ h.YALNIX_PREFIX).toNat := by
        rw [syscallIndex, BitVec.toInt_eq_toNat_of_lt (by omega)]
        rfl
      rw [hindex] at hrow
      have hxor : h.code c ^^^ h.YALNIX_PREFIX = BitVec.ofInt 32 u.code ^^^ h.YALNIX_PREFIX :=
        BitVec.eq_of_toNat_eq hrow
      have hcode := congrArg (· ^^^ h.YALNIX_PREFIX) hxor
      simp only [BitVec.xor_assoc, BitVec.xor_self, BitVec.xor_zero] at hcode
      exact hcode.symm
    · cases hfind
  · rintro ⟨c, hc, hcode⟩
    have hsmall := h.code_small c
    have hcheck : syscallIndex h u ≥ 0 ∧ syscallIndex h u < 256 := by
      unfold syscallIndex
      rw [hcode]
      exact syscallIndex_checked.2 hsmall
    rw [if_pos hcheck, htable]
    refine ⟨c, hc, ?_⟩
    rw [syscallIndex, hcode, BitVec.toInt_eq_toNat_of_lt (by omega)]
    rfl

/-- A code of `yalnix.h` is answered by its handler, and any other by `ERROR` and nothing else. -/
theorem kernelHandler_dispatch (hw : Hardware) (h : Header) (k : Kernel) (a : Answers) :
    (∀ c f, (c, f) ∈ syscallAssignments → BitVec.ofInt 32 k.uctxt.code = h.code c →
      kernelHandler hw h k a = f.run hw k a) ∧
    ((∀ c, BitVec.ofInt 32 k.uctxt.code ≠ h.code c) →
      kernelHandler hw h k a = some (k.returnValue ERROR)) := by
  unfold kernelHandler
  constructor
  · intro c f hc hcode
    rw [findSyscall_eq_some_iff.2 ⟨c, hc, hcode⟩]
  · intro hnone
    cases hfind : findSyscall h k.uctxt with
    | none => rfl
    | some f =>
      obtain ⟨c, -, hcode⟩ := findSyscall_eq_some_iff.1 hfind
      exact absurd hcode (hnone c)

/-- A trap with the code `code`. -/
def calledKernel (code : Int) : Kernel := { Boot.smallKernel with uctxt := { Boot.small.uctxt with code := code } }

/-- `Brk` is answered by `SysBrk`, and a code of no row by `ERROR`. -/
theorem kernelHandler_dispatch_small :
    kernelHandler .small .small (calledKernel (Header.small.code .brk).toInt) .small =
      sysBrk .small (calledKernel (Header.small.code .brk).toInt) ∧
    kernelHandler .small .small (calledKernel 7) .small = some ((calledKernel 7).returnValue ERROR) := by
  constructor
  · exact (kernelHandler_dispatch .small .small _ .small).1 .brk .sysBrk (by decide) (by decide)
  · refine (kernelHandler_dispatch .small .small _ .small).2 fun c => ?_
    cases c <;> decide

/-! ## Memory traps -/

/-- `print_pte` lets the index `MAX_PT_LEN` pass, but no address has it. -/
theorem printPte_eq {pt : Nat → Pte} {i : Int} (hi : i < hw.MAX_PT_LEN) :
    printPte hw pt i = some (if i < 0 then none else some (pt i.toNat)) := by
  unfold printPte
  by_cases hneg : i < 0
  · rw [if_pos (Or.inl hneg), if_pos hneg]
  · rw [if_neg (by omega), if_pos hi, if_neg hneg]

theorem Hardware.VMEM_1_BASE_pos (hw : Hardware) : 0 < hw.VMEM_1_BASE := by
  have hpages : 0 < (hw.MAX_PT_LEN : Int) := by
    have := hw.stack_fits
    omega
  exact Int.mul_pos hpages hw.PAGESIZE_pos

theorem Hardware.VMEM_1_LIMIT_eq (hw : Hardware) : hw.VMEM_1_LIMIT = 2 * hw.VMEM_1_BASE :=
  Int.mul_assoc 2 _ _

theorem toInt32_le {n : Int} (hn : 0 ≤ n) (hn' : n < 2 ^ 32) : toInt32 n ≤ n := by
  unfold toInt32
  omega

/-- The part of `memory_handler` that prints: an offset into a region is on one of its pages. -/
theorem printPte_offset (pt : Nat → Pte) {off : Int} (h₀ : 0 ≤ off) (hoff : off < hw.VMEM_1_BASE)
    (hword : off < 2 ^ 32) : ∃ r, printPte hw pt (hw.page (toInt32 off)) = some r ∧
      (hw.VMEM_1_BASE ≤ 2 ^ 31 → r = some (pt (hw.page off).toNat)) := by
  have hpage : hw.page (toInt32 off) < hw.MAX_PT_LEN := by
    apply Int.ediv_lt_of_lt_mul hw.PAGESIZE_pos
    exact lt_of_le_of_lt (toInt32_le h₀ hword) hoff
  refine ⟨_, printPte_eq hpage, fun hfit => ?_⟩
  have hsame : toInt32 off = off := toInt32_eq (by omega) (by omega)
  have hpos : 0 ≤ hw.page off := hw.page_nonneg h₀
  rw [hsame, if_neg (by omega)]

/-- `memory_handler` reads inside the tables whatever the address is; when region 1 ends inside the
address space it prints the entry of the page of the address. -/
theorem memoryHandler_reads (hw : Hardware) (k : Kernel) :
    (memoryHandler hw k).isSome = true ∧
    (hw.VMEM_1_LIMIT ≤ 2 ^ 32 → memoryHandler hw k = some (
      let addr := k.uctxt.addr % 2 ^ 32
      if addr < hw.VMEM_1_BASE then some (k.mem.region0_pt (hw.page addr).toNat)
      else if addr < hw.VMEM_1_LIMIT then
        some ((k.pcb k.current_process).region1_pt (hw.page (addr - hw.VMEM_1_BASE)).toNat)
      else none)) := by
  have hbase := hw.VMEM_1_BASE_pos
  have hlimit := hw.VMEM_1_LIMIT_eq
  have h₀ : 0 ≤ k.uctxt.addr % 2 ^ 32 := Int.emod_nonneg _ (by decide)
  have hword : k.uctxt.addr % 2 ^ 32 < 2 ^ 32 := Int.emod_lt_of_pos _ (by decide)
  unfold memoryHandler
  generalize k.uctxt.addr % 2 ^ 32 = addr at h₀ hword
  by_cases hzero : addr < hw.VMEM_1_BASE
  · -- region 0
    have hregion : addr / hw.VMEM_1_BASE = 0 := Int.ediv_eq_zero_of_lt h₀ hzero
    obtain ⟨r, hr, hentry⟩ := printPte_offset k.mem.region0_pt h₀ hzero hword
    simp only [hregion, if_true, hr, Option.isSome_some, true_and, if_pos hzero,
      show (0 : Int) ≠ 1 by decide, if_false]
    intro hfit
    rw [hentry (by omega)]
  · by_cases hone : addr < hw.VMEM_1_LIMIT
    · -- region 1
      have hregion : addr / hw.VMEM_1_BASE = 1 := by
        rw [Int.ediv_eq_iff_of_pos hbase]
        omega
      have hoff : (addr - hw.VMEM_1_BASE) % 2 ^ 32 = addr - hw.VMEM_1_BASE :=
        Int.emod_eq_of_lt (by omega) (by omega)
      have hstart : 0 ≤ addr - hw.VMEM_1_BASE := by omega
      have hend : addr - hw.VMEM_1_BASE < hw.VMEM_1_BASE := by omega
      obtain ⟨r, hr, hentry⟩ :=
        printPte_offset (k.pcb k.current_process).region1_pt hstart hend (by omega)
      simp only [hregion, if_true, hoff, hr, Option.isSome_some, true_and, if_neg hzero, if_pos hone,
        show (1 : Int) ≠ 0 by decide, if_false]
      intro hfit
      rw [hentry (by omega)]
    · -- neither
      have hregion : 2 ≤ addr / hw.VMEM_1_BASE := by
        rw [Int.le_ediv_iff_mul_le hbase]
        omega
      have hne : addr / hw.VMEM_1_BASE ≠ 0 := by omega
      have hne' : addr / hw.VMEM_1_BASE ≠ 1 := by omega
      simp only [hne, hne', if_false, Option.isSome_some, if_neg hzero, if_neg hone, true_and,
        implies_true]

theorem memoryHandler_reads_small :
    let k := { Boot.smallKernel with uctxt := { Boot.small.uctxt with addr := 150 } }
    memoryHandler .small k = some (some ((k.pcb 100).region1_pt 1)) :=
  (memoryHandler_reads .small _).2 (by decide)

/-! ## The two machines -/

theorem SameButFrame.refl (k : Kernel) : SameButFrame k k := ⟨rfl, fun _ => rfl, fun _ => rfl⟩

/-- A trap looks at the new frame only. -/
theorem SameButFrame.trap (hsame : SameButFrame k k') (hmode : k.mode = .user) (u : UserContext) :
    { k' with uctxt := u } = { k with uctxt := u } := by
  rw [hsame.user hmode]

theorem SyscallHandler.run_eq {f : SyscallHandler} {c : Syscall} (hcall : f.call a = some c) :
    f.run hw k a = c.run hw k := by
  unfold SyscallHandler.run
  rw [hcall]

theorem SyscallHandler.fresh {f : SyscallHandler} {c : Syscall} (hcall : f.call a = some c)
    (hfresh : a.Fresh k) : c.Fresh k := by
  obtain ⟨hpcb, hstatus⟩ := hfresh
  cases f <;> cases hcall <;> first | exact hpcb | exact hstatus | trivial

theorem SyscallHandler.call_eq_none {f : SyscallHandler} (hcall : f.call a = none) :
    f = .sysReclaim := by
  cases f <;> first | rfl | cases hcall

/-- What `kernel_handler` does is a call of `Syscall`, with `unimplemented` for the codes without a
row. -/
theorem kernelHandler_eq (hno : findSyscall h u ≠ some .sysReclaim) :
    kernelHandler hw h { k with uctxt := u } a =
      (((findSyscall h u).bind (·.call a)).getD .unimplemented).run hw { k with uctxt := u } := by
  unfold kernelHandler
  simp only
  cases hfind : findSyscall h u with
  | none => rfl
  | some f =>
    cases hcall : f.call a with
    | none => exact absurd (hfind.trans (congrArg some (SyscallHandler.call_eq_none hcall))) hno
    | some c => simp [hcall, SyscallHandler.run_eq hcall]

theorem syscall_fresh (hfresh : a.Fresh k) :
    (((findSyscall h u).bind (·.call a)).getD .unimplemented).Fresh k := by
  cases hfind : findSyscall h u with
  | none => trivial
  | some f =>
    cases hcall : f.call a with
    | none =>
      simp only [Option.bind_some, hcall, Option.getD_none]
      trivial
    | some c =>
      simp only [Option.bind_some, hcall, Option.getD_some]
      exact SyscallHandler.fresh hcall hfresh

/-- The steps that stay inside `TrapRun`: no `SysReclaim`, and a condition on the matching trap. -/
def TrapsMeet (h : Header) (Q : Kernel → TrapEvent → Prop) (k : Kernel) (e : VectorEvent) : Prop :=
  NoReclaim h k e ∧ ∀ d, trapEvent h e = some d → Q k d

/-- A step of the machine with the tables is a step of the machine of `TrapRun`, or only prints. -/
theorem vectorMachine_simulation {Q : Kernel → TrapEvent → Prop}
    (hQ : ∀ k u d, Q k d → Q { k with uctxt := u } d) :
    Simulation (vectorMachine hw h) (TrapsMeet h Q) (trapMachine hw) Q (fun _ => trapEvent h)
      SameButFrame where
  silent := by
    intro k k₁ e k' hsame hen hP hstep hevent
    cases e with
    | schedule => cases hevent
    | resume => cases hevent
    | trap u a =>
      obtain ⟨hmode, -, -⟩ := hen
      obtain ⟨f, hfind, hrun⟩ := Option.bind_eq_some_iff.1 hstep
      -- what only prints leaves the new frame, and `k'` has an old one
      have hk₁ : k₁ = { k with uctxt := u } := by
        cases f with
        | memoryHandler => exact (Option.map_eq_some_iff.1 hrun).choose_spec.2.symm
        | receiveHandler => exact (Option.some.inj hrun).symm
        | transmitHandler => exact (Option.some.inj hrun).symm
        | _ => simp [trapEvent, hfind] at hevent
      subst hk₁
      refine ⟨hsame.mode, fun _ => ?_, fun hne => absurd hmode hne⟩
      rw [hsame.user hmode]
  matched := by
    intro k k₁ e k' d hsame hen hP hstep hevent
    obtain ⟨hno, hQd⟩ := hP
    have hQ' : Q k' d := by
      by_cases hmode : k.mode = .user
      · rw [hsame.user hmode]
        exact hQ k _ d (hQd d hevent)
      · rw [hsame.handler hmode]
        exact hQd d hevent
    cases e with
    | schedule =>
      obtain rfl := Option.some.inj hevent
      have hmode : k.mode ≠ .user := by
        intro hmode
        simp [vectorMachine, hmode] at hstep
      rw [hsame.handler hmode] at hQ' ⊢
      exact ⟨k₁, trivial, hQ', hstep, .refl k₁⟩
    | resume =>
      obtain rfl := Option.some.inj hevent
      have hmode : k.mode ≠ .user := by
        intro hmode
        cases hmode.symm.trans hen
      rw [hsame.handler hmode] at hQ' ⊢
      exact ⟨k₁, hen, hQ', hstep, .refl k₁⟩
    | trap u a =>
      obtain ⟨hmode, hfresh, hidle⟩ := hen
      obtain ⟨f, hfind, hrun⟩ := Option.bind_eq_some_iff.1 hstep
      have hmode' : k'.mode = .user := hsame.mode.trans hmode
      have hrunner : ∀ f', findTrap h u = some f' → ¬ f'.Interrupt →
          k'.current_process ≠ k'.idle_process := by
        intro f' hf' hint
        rw [hsame.user hmode]
        exact fun hcurrent => hint (hidle hcurrent f' hf')
      have hfresh' : a.Fresh k' := by
        rw [hsame.user hmode]
        exact hfresh
      cases f with
      | kernelHandler =>
        simp only [trapEvent, hfind, Option.some.injEq] at hevent
        subst hevent
        refine ⟨k₁, ⟨hmode', hrunner _ hfind id, syscall_fresh hfresh'⟩, hQ', ?_, .refl k₁⟩
        have hcall : kernelHandler hw h { k with uctxt := u } a = some k₁ := hrun
        rw [kernelHandler_eq (hno hfind), ← hsame.trap hmode u] at hcall
        exact hcall
      | clockHandler =>
        simp only [trapEvent, hfind, Option.some.injEq] at hevent
        subst hevent
        refine ⟨k₁, hmode', hQ', ?_, .refl k₁⟩
        have hclock : clockHandler { k with uctxt := u } = some k₁ := hrun
        rw [← hsame.trap hmode u] at hclock
        exact hclock
      | illegalHandler =>
        simp only [trapEvent, hfind, Option.some.injEq] at hevent
        subst hevent
        refine ⟨k₁, ⟨hmode', hrunner _ hfind id, trivial⟩, hQ', ?_, .refl k₁⟩
        have hexit : sysExit hw { k with uctxt := u.setReg0 ERROR } = some k₁ := hrun
        rw [← hsame.trap hmode (u.setReg0 ERROR)] at hexit
        exact hexit
      | mathHandler =>
        simp only [trapEvent, hfind, Option.some.injEq] at hevent
        subst hevent
        refine ⟨k₁, ⟨hmode', hrunner _ hfind id, trivial⟩, hQ', ?_, .refl k₁⟩
        have hexit : sysExit hw { k with uctxt := u.setReg0 ERROR } = some k₁ := hrun
        rw [← hsame.trap hmode (u.setReg0 ERROR)] at hexit
        exact hexit
      | memoryHandler => simp [trapEvent, hfind] at hevent
      | receiveHandler => simp [trapEvent, hfind] at hevent
      | transmitHandler => simp [trapEvent, hfind] at hevent

/-- Every run of the machine with the tables in which nobody calls `SysReclaim` is a run of the machine of
`TrapRun`, over the traps that do something and in their order, up to a trap frame that nobody looks at. -/
theorem vectorMachine_run {Q : Kernel → TrapEvent → Prop} (hQ : ∀ k u d, Q k d → Q { k with uctxt := u } d)
    {t : List (Kernel × VectorEvent)} (hrun : Run (vectorMachine hw h) (TrapsMeet h Q) k t k') :
    ∃ v k₁, Run (trapMachine hw) Q k v k₁ ∧
      v.map Prod.snd = t.filterMap (fun x => trapEvent h x.2) ∧ SameButFrame k' k₁ :=
  (vectorMachine_simulation hQ).run hrun (.refl k)

def TrapEvent.isFork : TrapEvent → Bool
  | .kernel _ (.fork _) => true
  | _ => false

theorem TrapEvent.forkElsewhere {d : TrapEvent} (hno : d.isFork = false) : ForkElsewhere k d := by
  unfold ForkElsewhere
  split
  · cases hno
  · trivial

/-- The init process is dispatched, takes a memory trap, asks for its pid and for a call that there is
not, and fails. -/
def vectorEvents : List VectorEvent :=
  [.ofVector .clock 0, .ofVector .ttyReceive 0, .ofVector .clock 0, .schedule, .resume,
    .ofVector .memory 0, .ofCode .getpid, .ofVector .kernel 7, .ofVector .math 0]

def vectorKernel : Kernel :=
  ((vectorMachine .small .small).exec Boot.smallKernel vectorEvents).get (by decide +kernel)

theorem vectorKernel_run : Run (vectorMachine .small .small)
    (TrapsMeet .small fun k d => ForkElsewhere k d) Boot.smallKernel
    ((vectorMachine .small .small).trace Boot.smallKernel vectorEvents) vectorKernel := by
  have hok : ∀ x ∈ (vectorMachine .small .small).trace Boot.smallKernel vectorEvents,
      (vectorMachine .small .small).enabled x.1 x.2 ∧ NoReclaim .small x.1 x.2 := by
    decide +kernel
  have hfork : ∀ e ∈ vectorEvents, ∀ d ∈ trapEvent .small e, d.isFork = false := by
    decide +kernel
  refine Run.ofExec (Option.some_get _).symm fun x hx => ?_
  obtain ⟨hen, hno⟩ := hok x hx
  exact ⟨hen, hno, fun d hd => TrapEvent.forkElsewhere (hfork x.2 (System.mem_trace hx) d hd)⟩

theorem vectorMachine_run_small : ∃ v k₁,
    Run (trapMachine .small) (fun k d => ForkElsewhere k d) Boot.smallKernel v k₁ ∧
      v.map Prod.snd = ((vectorMachine .small .small).trace Boot.smallKernel vectorEvents).filterMap
        (fun x => trapEvent .small x.2) ∧ SameButFrame vectorKernel k₁ := by
  refine vectorMachine_run (fun k u d hd => ?_) vectorKernel_run
  cases d with
  | kernel u c => cases c <;> exact hd
  | _ => exact hd

end Yalnix
