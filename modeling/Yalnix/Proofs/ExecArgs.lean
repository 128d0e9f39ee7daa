import Yalnix.ExecArgs
import Yalnix.Paging.Proofs.Strings
import Yalnix.Proofs.LoadImage
import Mathlib.Tactic.Ring

/-!
# Arguments survive exec

The strings are read from the old address space into `argbuf`, and written from there to fresh pages, so that
nothing of the old space is needed once it is gone.
-/

namespace Yalnix

open Paging

variable {hw : Hardware} {m m' : Memory} {proc proc' : Pcb} {req : LoadRequest} {li : LoadInfo}
  {t : Table} {argbuf : Buffer} {read : Reader} {ss : List (List UInt8)}
  {lo hi addr p cp cp2 n : Nat} {bs : List UInt8}

/-! ## The loops -/

/-- A store to the window is read back, and changes nothing else there. -/
theorem StackState.put_window (hwin : Window hw.pageBytes t lo hi) (st : StackState) (bs : List UInt8)
    (hlo : lo ≤ addr) (hhi : addr + bs.length ≤ hi) : ∃ st', st.put hw t addr bs = some st' ∧
      HoldsAt (st'.read hw t) addr bs ∧
      (∀ a, lo ≤ a → a < hi → ¬ (addr ≤ a ∧ a < addr + bs.length) → st'.read hw t a = st.read hw t a) ∧
      ∀ a ∈ st'.written, a ∈ st.written ∨ addr ≤ a ∧ a < hi := by
  obtain ⟨fr', hstore, hholds, hsame⟩ := hwin.storeList st.frames hlo hhi
  refine ⟨⟨fr', st.written ++ List.range' addr bs.length⟩, ?_, hholds, hsame, ?_⟩
  · unfold StackState.put
    rw [hstore]
    rfl
  · intro a ha
    rcases List.mem_append.1 ha with ha | ha
    · exact Or.inl ha
    · rw [List.mem_range'_1] at ha
      exact Or.inr ⟨ha.1, by omega⟩

/-- The saving loop packs the strings into `argbuf`. -/
theorem saveArgs_packed (h : readVector read hw.limitAddr p n = some ss)
    (hfit : cp2 + (packed ss).length ≤ argbuf.size) : ∃ argbuf', saveArgs hw read p cp2 argbuf n = some argbuf' ∧
      argbuf'.size = argbuf.size ∧ HoldsAt argbuf'.read cp2 (packed ss) ∧
      ∀ a, a < cp2 → argbuf'.read a = argbuf.read a := by
  induction n generalizing p cp2 ss argbuf with
  | zero => cases h
  | succ n ih =>
    rw [readVector] at h
    simp only [Option.bind_eq_bind, Option.bind_eq_some_iff] at h
    obtain ⟨arg, harg, h⟩ := h
    rw [saveArgs, harg]
    simp only [Option.bind_eq_bind, Option.bind_some]
    by_cases hnull : arg = 0
    · rw [if_pos hnull] at h ⊢
      obtain rfl := Option.some.inj h
      refine ⟨argbuf, rfl, rfl, ?_, fun a _ => rfl⟩
      intro i hi
      cases hi
    · rw [if_neg hnull] at h ⊢
      simp only [Option.bind_eq_some_iff] at h
      obtain ⟨s, hs, ss', hss', h⟩ := h
      obtain rfl := Option.some.inj h
      rw [packed_cons, List.length_append] at hfit
      obtain ⟨buf₁, hwrite, hsize, hholds, hsame⟩ :=
        Buffer.write_fits (show cp2 + (terminated s).length ≤ argbuf.size by omega)
      rw [length_terminated] at hfit
      have hsaved : readString buf₁.read cp2 (buf₁.size - cp2) = some s :=
        readString_of_holds (readString_clean hs) (by omega) hholds
      have hfit₂ : cp2 + (s.length + 1) + (packed ss').length ≤ buf₁.size := by omega
      obtain ⟨buf₂, hrest, hsize₂, hholds₂, hsame₂⟩ := ih hss' hfit₂
      refine ⟨buf₂, ?_, hsize₂.trans hsize, ?_, ?_⟩
      · rw [hs]
        simp only [Option.bind_some]
        rw [hwrite]
        simp only [Option.bind_some]
        rw [hsaved]
        exact hrest
      · rw [packed_cons, holdsAt_append, length_terminated]
        refine ⟨hholds.congr ?_, hholds₂⟩
        intro a _ ha
        rw [length_terminated] at ha
        exact hsame₂ a ha
      · intro a ha
        rw [hsame₂ a (by omega), hsame a ha]

/-- The copying loop leaves the strings packed from `cp` on, and the pointers to them from `p` on. -/
theorem copyArgs_packed (hwin : Window hw.pageBytes t lo hw.limitAddr) (st : StackState) (hclean : ∀ s ∈ ss, 0 ∉ s)
    (hbuf : HoldsAt argbuf.read cp2 (packed ss)) (hsize : cp2 + (packed ss).length ≤ argbuf.size)
    (hlo : lo ≤ p) (hp : p + 4 * ss.length ≤ cp) (hcp : cp + (packed ss).length = hw.limitAddr) :
    ∃ st', copyArgs hw t argbuf cp p cp2 st ss.length = some (p + 4 * ss.length, st') ∧
      PackedAt (st'.read hw t) p cp ss ∧
      (∀ a, lo ≤ a → a < cp → ¬ (p ≤ a ∧ a < p + 4 * ss.length) → st'.read hw t a = st.read hw t a) ∧
      ∀ a ∈ st'.written, a ∈ st.written ∨ p ≤ a ∧ a < hw.limitAddr := by
  induction ss generalizing p cp cp2 st with
  | nil => exact ⟨st, rfl, trivial, fun a _ _ _ => rfl, fun a ha => Or.inl ha⟩
  | cons s ss ih =>
    rw [packed_cons, holdsAt_append] at hbuf
    rw [packed_cons, List.length_append] at hsize hcp
    rw [List.length_cons] at hp ⊢
    have hlen : (terminated s).length = s.length + 1 := length_terminated
    have hs : 0 ∉ s := hclean s List.mem_cons_self
    -- the pointer, then the string
    have hword_le : p + (word cp).length ≤ hw.limitAddr := by
      rw [length_word]
      omega
    obtain ⟨st₁, hput₁, hword, hsame₁, hwritten₁⟩ := StackState.put_window hwin st (word cp) hlo hword_le
    rw [length_word] at hsame₁
    have harg : readString argbuf.read cp2 (argbuf.size - cp2) = some s :=
      readString_of_holds hs (by omega) hbuf.1
    have hcp_lo : lo ≤ cp := by omega
    obtain ⟨st₂, hput₂, hstring, hsame₂, hwritten₂⟩ := StackState.put_window hwin st₁ (terminated s) hcp_lo
      (by omega)
    have hcopied : readString (st₂.read hw t) cp (hw.limitAddr - cp) = some s :=
      readString_of_holds hs (by omega) hstring
    rw [hlen] at hbuf
    have hp₂ : p + 4 + 4 * ss.length ≤ cp + (s.length + 1) := by omega
    obtain ⟨st', hloop, hpacked, hsame, hwritten⟩ := ih st₂
      (fun s' hs' => hclean s' (List.mem_cons_of_mem s hs')) hbuf.2 (by omega) (by omega) hp₂ (by omega)
    refine ⟨st', ?_, ⟨?_, ?_, ?_⟩, ?_, ?_⟩
    · rw [copyArgs, hput₁]
      simp only [Option.bind_eq_bind, Option.bind_some]
      rw [harg]
      simp only [Option.bind_some]
      rw [hput₂]
      simp only [Option.bind_some]
      rw [hcopied]
      simp only [Option.bind_some]
      rw [hloop, show p + 4 + 4 * ss.length = p + 4 * (ss.length + 1) by omega]
    · -- the rest of the loop leaves this pointer and this string alone
      apply hword.congr
      intro a ha ha'
      rw [length_word] at ha'
      rw [hsame a (by omega) (by omega) (by omega), hsame₂ a (by omega) (by omega) (by omega)]
    · apply hstring.congr
      intro a ha ha'
      exact hsame a (by omega) (by omega) (by omega)
    · rwa [hlen]
    · intro a ha ha' hout
      rw [hsame a ha (by omega) (by omega), hsame₂ a ha (by omega) (by omega),
        hsame₁ a ha (by omega) (by omega)]
    · intro a ha
      rcases hwritten a ha with ha | ha
      · rcases hwritten₂ a ha with ha | ha
        · rcases hwritten₁ a ha with ha | ha
          · exact Or.inl ha
          · exact Or.inr ha
        · exact Or.inr ⟨by omega, ha.2⟩
      · exact Or.inr ⟨by omega, ha.2⟩

/-! ## The layout -/

theorem size_eq : (req.args.map fun a => (a.length : Int) + 1).sum = (packed req.args).length := by
  induction req.args with
  | nil => rfl
  | cons s ss ih =>
    rw [List.map_cons, List.sum_cons, ih, packed_cons, List.length_append, length_terminated]
    omega

theorem pageBytes_eq : hw.PAGESIZE = hw.pageBytes := by
  unfold Hardware.PAGESIZE Hardware.pageBytes
  exact (Int.natCast_pow 2 hw.PAGESHIFT).symm

theorem limitAddr_pages : hw.limitAddr = 2 * hw.MAX_PT_LEN * hw.pageBytes := by
  unfold Hardware.limitAddr Hardware.VMEM_1_LIMIT
  rw [pageBytes_eq]
  exact Int.toNat_natCast (2 * hw.MAX_PT_LEN * hw.pageBytes)

theorem limitAddr_eq : (hw.limitAddr : Int) = hw.VMEM_1_LIMIT := by
  unfold Hardware.VMEM_1_LIMIT
  rw [limitAddr_pages, pageBytes_eq]
  rfl

/-- A page has at least two bytes, and whole pages make up the 32-bit addresses. -/
theorem Hardware.UserStack.page (hu : hw.UserStack) :
    2 ≤ hw.PAGESIZE ∧ ∃ R, (2 : Int) ^ 32 = hw.PAGESIZE * R := by
  have hshift := hu.shift
  have hframe := hu.frame
  have hsmall := hu.small
  have hlt : 2 ^ hw.PAGESHIFT < 2 ^ 31 := by
    have hbytes : hw.pageBytes < 2 ^ 31 := by
      have hpage : hw.PAGESIZE = hw.pageBytes := pageBytes_eq
      omega
    exact hbytes
  have hbound : hw.PAGESHIFT < 31 := (Nat.pow_lt_pow_iff_right (by decide)).1 hlt
  constructor
  · have htwo : 2 ^ 1 ≤ 2 ^ hw.PAGESHIFT := Nat.pow_le_pow_right (by decide) hshift
    rw [pageBytes_eq]
    unfold Hardware.pageBytes
    omega
  · refine ⟨2 ^ (32 - hw.PAGESHIFT), ?_⟩
    unfold Hardware.PAGESIZE
    rw [← Int.pow_add, show hw.PAGESHIFT + (32 - hw.PAGESHIFT) = 32 by omega]

/-- Where the pointers, the strings and the new stack pointer are, as numbers. -/
structure StackLayout (hw : Hardware) (req : LoadRequest) : Prop where
  size : req.size = (packed req.args).length
  apart : req.cpp hw + (req.args.length + 3 + hw.POST_ARGV_NULL_SPACE) * 4 ≤
    hw.VMEM_1_LIMIT - (packed req.args).length
  aligned : req.cpp hw % 8 = 0
  sp : req.cp2 hw + hw.INITIAL_STACK_FRAME_SIZE = req.cpp hw
  base : hw.VMEM_1_LIMIT - req.stack_npg hw * hw.PAGESIZE ≤ req.cp2 hw
  npg : 0 ≤ req.stack_npg hw ∧ req.stack_npg hw ≤ hw.MAX_PT_LEN

/-- If the stack fits into the table, none of the subtractions of `LoadProgram` wraps around. -/
theorem stackLayout (hu : hw.UserStack) (hfit : req.argBytes hw < 2 ^ 31)
    (hnpg : 0 < req.stack_npg hw → req.stack_npg hw ≤ hw.MAX_PT_LEN) : StackLayout hw req := by
  have hpost := hu.post
  have hframe := hu.frame
  have hsmall := hu.small
  have hlimit := hu.limit
  obtain ⟨hpage, R, hR⟩ := hu.page
  unfold LoadRequest.argBytes at hfit
  have hsize : req.size = (packed req.args).length := by
    unfold LoadRequest.size
    rw [size_eq, toInt32_eq (by omega) (by omega)]
  generalize hS : ((packed req.args).length : Int) = S at hfit hsize
  generalize hW : ((req.args.length : Int) + 3 + hw.POST_ARGV_NULL_SPACE) * 4 = W at hfit
  -- the two roundings, and how often the words wrapped
  obtain ⟨r, k, hr, hr', hcpp, hk⟩ : ∃ r k, 0 ≤ r ∧ r < 8 ∧
      req.cpp hw = hw.VMEM_1_LIMIT - S - W - r + 2 ^ 32 * k ∧
      k = - ((hw.VMEM_1_LIMIT - S - W) / 2 ^ 32) := by
    refine ⟨(hw.VMEM_1_LIMIT - S - W) % 2 ^ 32 % 8, _, by omega, by omega, ?_, rfl⟩
    unfold LoadRequest.cpp
    rw [hsize, hW]
    omega
  obtain ⟨j, hcp2, hj⟩ : ∃ j, req.cp2 hw = req.cpp hw - hw.INITIAL_STACK_FRAME_SIZE + 2 ^ 32 * j ∧
      j = - ((req.cpp hw - hw.INITIAL_STACK_FRAME_SIZE) / 2 ^ 32) := by
    refine ⟨_, ?_, rfl⟩
    unfold LoadRequest.cp2
    omega
  have hword : 0 ≤ req.cp2 hw ∧ req.cp2 hw < 2 ^ 32 := by
    unfold LoadRequest.cp2
    omega
  have hdown : req.cp2 hw / hw.PAGESIZE * hw.PAGESIZE ≤ req.cp2 hw :=
    Int.ediv_mul_le _ (by omega)
  have hdown' : req.cp2 hw < (req.cp2 hw / hw.PAGESIZE + 1) * hw.PAGESIZE :=
    Int.lt_ediv_add_one_mul_self _ (by omega)
  rw [Int.add_mul, Int.one_mul] at hdown'
  -- the bytes of the stack, a whole number of pages
  have hnpg_eq : req.stack_npg hw =
      toInt32 ((hw.VMEM_1_LIMIT - req.cp2 hw / hw.PAGESIZE * hw.PAGESIZE) % 2 ^ 32 / hw.PAGESIZE) := by
    unfold LoadRequest.stack_npg Hardware.DOWN_TO_PAGE Hardware.page
    rw [Int.emod_eq_of_lt hword.1 hword.2]
  generalize hd : req.cp2 hw / hw.PAGESIZE = d at hdown hdown' hnpg_eq
  obtain ⟨N, hN⟩ : ∃ N, (hw.VMEM_1_LIMIT - d * hw.PAGESIZE) % 2 ^ 32 = hw.PAGESIZE * N := by
    refine ⟨2 * hw.MAX_PT_LEN - d + R * (k + j), ?_⟩
    have hT : (hw.VMEM_1_LIMIT - d * hw.PAGESIZE) % 2 ^ 32 =
        hw.VMEM_1_LIMIT - d * hw.PAGESIZE + 2 ^ 32 * (k + j) := by
      omega
    rw [hT, hR]
    unfold Hardware.VMEM_1_LIMIT
    ring
  rw [hN, Int.mul_ediv_cancel_left _ (by omega)] at hnpg_eq
  have hN₀ : 0 ≤ N := by
    have hquot : hw.PAGESIZE * N / hw.PAGESIZE = N := Int.mul_ediv_cancel_left _ (by omega)
    rw [← hquot]
    exact Int.ediv_nonneg (by omega) (by omega)
  have htwice : 2 * N ≤ hw.PAGESIZE * N := Int.mul_le_mul_of_nonneg_right hpage hN₀
  rw [toInt32_eq (by omega) (by omega)] at hnpg_eq
  have hmax : N ≤ hw.MAX_PT_LEN := by omega
  -- the stack takes at most half of the addresses below the limit
  have hhalf : hw.PAGESIZE * N ≤ hw.PAGESIZE * hw.MAX_PT_LEN := Int.mul_le_mul_of_nonneg_left hmax (by omega)
  have hbase : hw.VMEM_1_LIMIT = 2 * (hw.PAGESIZE * hw.MAX_PT_LEN) := by
    unfold Hardware.VMEM_1_LIMIT
    ring
  have hrange : 0 ≤ hw.PAGESIZE * N := by omega
  refine ⟨hsize.trans hS.symm, ?_, ?_, ?_, ?_, ?_⟩
  · rw [hW, hS]
    omega
  · unfold LoadRequest.cpp
    omega
  · omega
  · rw [hnpg_eq, Int.mul_comm]
    omega
  · omega

/-! ## The pages of the new stack -/

/-- The first address of the stack pages. -/
def stackBase (hw : Hardware) (req : LoadRequest) : Nat :=
  hw.limitAddr - (req.stack_npg hw).toNat * hw.pageBytes

/-- The new table maps the stack pages, and they can be written. -/
structure StackMapped (hw : Hardware) (req : LoadRequest) (m : Memory) (proc : Pcb) : Prop where
  pages : ∀ i < hw.MAX_PT_LEN, hw.MAX_PT_LEN - req.stack_npg hw ≤ i →
    (proc.region1_pt i).valid = true ∧ (proc.region1_pt i).prot = .readWrite
  window : Window hw.pageBytes (m.space hw proc.region1_pt) (stackBase hw req) hw.limitAddr
  sp : proc.user_context.sp = req.cp2 hw

theorem space_region1 {pt : Nat → Pte} {i : Nat} (hi : i < hw.MAX_PT_LEN) :
    m.space hw pt (hw.MAX_PT_LEN + i) = (pt i).frame := by
  unfold Memory.space
  rw [if_neg (by omega), if_pos (by omega), Nat.add_sub_cancel_left]

theorem pageBytes_pos : 0 < hw.pageBytes := by
  unfold Hardware.pageBytes
  exact Nat.two_pow_pos _

/-- The page of an address above the base of the stack. -/
theorem stack_page {a : Nat} (hnpg : 0 ≤ req.stack_npg hw ∧ req.stack_npg hw ≤ hw.MAX_PT_LEN)
    (ha : stackBase hw req ≤ a) (ha' : a < hw.limitAddr) :
    ∃ i < hw.MAX_PT_LEN, a / hw.pageBytes = hw.MAX_PT_LEN + i ∧ hw.MAX_PT_LEN - req.stack_npg hw ≤ i := by
  unfold stackBase at ha
  rw [limitAddr_pages] at ha ha'
  have hhi : a / hw.pageBytes < 2 * hw.MAX_PT_LEN := Nat.div_lt_of_lt_mul (by rwa [Nat.mul_comm] at ha')
  have hlo : 2 * hw.MAX_PT_LEN - (req.stack_npg hw).toNat ≤ a / hw.pageBytes := by
    rw [← Nat.sub_mul] at ha
    exact (Nat.le_div_iff_mul_le pageBytes_pos).2 ha
  exact ⟨a / hw.pageBytes - hw.MAX_PT_LEN, by omega, by omega, by omega⟩

theorem stackMapped (hu : hw.UserStack) (hfit : req.argBytes hw < 2 ^ 31) (hli : req.li = some li)
    (htext : ∀ i : Nat, li.TextPage hw i → (i : Int) < hw.MAX_PT_LEN - req.stack_npg hw)
    (hload : loadProgram hw m proc req = some (.success, m', proc')) :
    StackLayout hw req ∧ StackMapped hw req m' proc' := by
  obtain ⟨m₁, pt₁, m₂, pt₂, pt₃, -, -, h₃, rfl⟩ := loadProgram_success hli hload
  obtain ⟨hin, -, htable⟩ := mapPages_true h₃
  have hlayout : StackLayout hw req := by
    apply stackLayout hu hfit
    intro hpos
    have := hin (by omega)
    omega
  refine ⟨hlayout, ?_⟩
  have hnpg := hlayout.npg
  have hstack : ∀ i < hw.MAX_PT_LEN, hw.MAX_PT_LEN - req.stack_npg hw ≤ i →
      protectText pt₃ (li.text_pg1 hw) (li.textTurns hw) i = pt₃ i := by
    intro i hi hle
    have hnot : ¬ li.TextPage hw i := by
      intro htxt
      have := htext i htxt
      omega
    unfold LoadInfo.TextPage at hnot
    unfold protectText
    rw [if_neg hnot]
  have hvalid : ∀ i < hw.MAX_PT_LEN, hw.MAX_PT_LEN - req.stack_npg hw ≤ i →
      (pt₃ i).valid = true ∧ (pt₃ i).prot = .readWrite := by
    intro i hi hle
    exact (htable i).1 (by omega)
  have hframe : ∀ a, stackBase hw req ≤ a → a < hw.limitAddr → ∃ i < hw.MAX_PT_LEN,
      a / hw.pageBytes = hw.MAX_PT_LEN + i ∧ hw.MAX_PT_LEN - req.stack_npg hw ≤ i ∧
      m'.space hw (protectText pt₃ (li.text_pg1 hw) (li.textTurns hw)) (a / hw.pageBytes) =
        some (pt₃ i).pfn := by
    intro a ha ha'
    obtain ⟨i, hi, hpage, hle⟩ := stack_page hnpg ha ha'
    refine ⟨i, hi, hpage, hle, ?_⟩
    rw [hpage, space_region1 hi, hstack i hi hle]
    unfold Pte.frame
    rw [if_pos (hvalid i hi hle).1]
  refine ⟨?_, ⟨?_, ?_⟩, rfl⟩
  · intro i hi hle
    show (protectText pt₃ (li.text_pg1 hw) (li.textTurns hw) i).valid = true ∧
      (protectText pt₃ (li.text_pg1 hw) (li.textTurns hw) i).prot = .readWrite
    rw [hstack i hi hle]
    exact hvalid i hi hle
  · intro a ha ha'
    obtain ⟨i, -, -, -, hmap⟩ := hframe a ha ha'
    exact ⟨_, hmap⟩
  · intro a b ha ha' hb hb' hsame
    obtain ⟨i, hi, hpage, hle, hmap⟩ := hframe a ha ha'
    obtain ⟨j, hj, hpage', hle', hmap'⟩ := hframe b hb hb'
    have hpfn : (pt₃ i).pfn = (pt₃ j).pfn := Option.some.inj (hmap.symm.trans (hsame.trans hmap'))
    -- the stack loop took a different frame for each page
    have hnodup := (mapPages_takes hu.frames h₃).1.nodup
    have hinj := List.inj_on_of_nodup_map hnodup
    obtain ⟨d, hd⟩ : ∃ d : Nat, (i : Int) = hw.MAX_PT_LEN - req.stack_npg hw + d :=
      ⟨(i - (hw.MAX_PT_LEN - req.stack_npg hw)).toNat, by omega⟩
    obtain ⟨e, he⟩ : ∃ e : Nat, (j : Int) = hw.MAX_PT_LEN - req.stack_npg hw + e :=
      ⟨(j - (hw.MAX_PT_LEN - req.stack_npg hw)).toNat, by omega⟩
    have hde : d = e := by
      apply hinj (List.mem_range.2 (by omega)) (List.mem_range.2 (by omega))
      rw [← hd, ← he]
      exact hpfn
    rw [hpage, hpage']
    omega

/-! ## The new stack -/

/-- The layout as addresses: the pointer area lies on the stack pages and below the strings. -/
structure StackAddresses (hw : Hardware) (req : LoadRequest) : Prop where
  cpp : (req.cppAddr hw : Int) = req.cpp hw
  base : stackBase hw req ≤ req.cppAddr hw
  room : req.cppAddr hw + 4 * req.args.length + 12 ≤ req.cpAddr hw
  strings : req.cpAddr hw + (packed req.args).length = hw.limitAddr

theorem StackLayout.addresses (h : StackLayout hw req) (hu : hw.UserStack) : StackAddresses hw req := by
  have hlimit := hu.limit
  have hpost := hu.post
  have hframe := hu.frame
  have hlen : (hw.limitAddr : Int) = hw.VMEM_1_LIMIT := limitAddr_eq
  have hcp2 : 0 ≤ req.cp2 hw := Int.emod_nonneg _ (by decide)
  have hsp := h.sp
  have hapart := h.apart
  have hcpp : (req.cppAddr hw : Int) = req.cpp hw := Int.toNat_of_nonneg (by omega)
  have hstrings : req.cpAddr hw + (packed req.args).length = hw.limitAddr := by
    unfold LoadRequest.cpAddr
    rw [h.size]
    omega
  refine ⟨hcpp, ?_, by omega, hstrings⟩
  have hbase := h.base
  have hpages : ((req.stack_npg hw).toNat * hw.pageBytes : Nat) = req.stack_npg hw * hw.PAGESIZE := by
    rw [pageBytes_eq, Nat.cast_mul, Int.toNat_of_nonneg h.npg.1]
  unfold stackBase
  omega

/-- What lies on the new stack: `argc`, the pointers to the strings, two null pointers, and the strings. -/
structure ArgsPlaced (hw : Hardware) (req : LoadRequest) (t : Table) (st : StackState) : Prop where
  argc : HoldsAt (st.read hw t) (req.cppAddr hw) (word req.args.length)
  args : PackedAt (st.read hw t) (req.cppAddr hw + 4) (req.cpAddr hw) req.args
  null : HoldsAt (st.read hw t) (req.cppAddr hw + 4 + 4 * req.args.length) (word 0)
  envp : HoldsAt (st.read hw t) (req.cppAddr hw + 4 + 4 * req.args.length + 4) (word 0)
  written : ∀ a ∈ st.written, req.cppAddr hw ≤ a ∧ a < hw.limitAddr

/-- From a buffer with the packed strings, all of it is put in its place. -/
theorem buildArgs_placed (image : Frames UInt8) (ha : StackAddresses hw req)
    (hwin : Window hw.pageBytes t (stackBase hw req) hw.limitAddr) (hclean : ∀ s ∈ req.args, 0 ∉ s)
    (hbuf : HoldsAt argbuf.read 0 (packed req.args)) (hsize : (packed req.args).length ≤ argbuf.size) :
    ∃ st, buildArgs hw t req argbuf ⟨image, []⟩ = some st ∧ ArgsPlaced hw req t st := by
  obtain ⟨-, hlo, hroom, hstrings⟩ := ha
  generalize hcpp : req.cppAddr hw = C at hlo hroom
  generalize hn : req.args.length = n at hroom
  -- the stores, one after the other
  have hzero : C + (List.replicate (hw.limitAddr - C) (0 : UInt8)).length ≤ hw.limitAddr := by
    rw [List.length_replicate]
    omega
  obtain ⟨st₀, hput₀, -, -, hwritten₀⟩ := StackState.put_window hwin ⟨image, []⟩ _ hlo hzero
  have hargc_le : C + (word n).length ≤ hw.limitAddr := by
    rw [length_word]
    omega
  obtain ⟨st₁, hput₁, hargc, -, hwritten₁⟩ := StackState.put_window hwin st₀ (word n) hlo hargc_le
  have hbuf_le : 0 + (packed req.args).length ≤ argbuf.size := by omega
  have hlo₄ : stackBase hw req ≤ C + 4 := by omega
  obtain ⟨st₂, hloop, hpacked, hsame₂, hwritten₂⟩ := copyArgs_packed hwin st₁ hclean hbuf hbuf_le hlo₄
    (by rw [hn]; omega) hstrings
  rw [hn] at hloop hsame₂
  have hlo₅ : stackBase hw req ≤ C + 4 + 4 * n := by omega
  have hnull_le : C + 4 + 4 * n + (word 0).length ≤ hw.limitAddr := by
    rw [length_word]
    omega
  obtain ⟨st₃, hput₃, hnull, hsame₃, hwritten₃⟩ := StackState.put_window hwin st₂ (word 0) hlo₅ hnull_le
  rw [length_word] at hsame₃
  have hlo₆ : stackBase hw req ≤ C + 4 + 4 * n + 4 := by omega
  have henvp_le : C + 4 + 4 * n + 4 + (word 0).length ≤ hw.limitAddr := by
    rw [length_word]
    omega
  obtain ⟨st₄, hput₄, henvp, hsame₄, hwritten₄⟩ := StackState.put_window hwin st₃ (word 0) hlo₆ henvp_le
  rw [length_word] at hsame₄
  refine ⟨st₄, ?_, ?_⟩
  · unfold buildArgs
    rw [hcpp, hn]
    simp only [Option.bind_eq_bind]
    rw [hput₀]
    simp only [Option.bind_some]
    rw [hput₁]
    simp only [Option.bind_some]
    rw [hloop]
    simp only [Option.bind_some]
    rw [hput₃]
    exact hput₄
  · -- each store leaves what the ones before it have put
    constructor
    · rw [hcpp, hn]
      apply hargc.congr
      intro a ha ha'
      rw [length_word] at ha'
      rw [hsame₄ a (by omega) (by omega) (by omega), hsame₃ a (by omega) (by omega) (by omega),
        hsame₂ a (by omega) (by omega) (by omega)]
    · rw [hcpp]
      apply hpacked.congr
      · intro a ha ha'
        rw [hn] at ha'
        rw [hsame₄ a (by omega) (by omega) (by omega), hsame₃ a (by omega) (by omega) (by omega)]
      · intro a ha ha'
        rw [hsame₄ a (by omega) (by omega) (by omega), hsame₃ a (by omega) (by omega) (by omega)]
    · rw [hcpp, hn]
      apply hnull.congr
      intro a ha ha'
      rw [length_word] at ha'
      exact hsame₄ a (by omega) (by omega) (by omega)
    · rw [hcpp, hn]
      exact henvp
    · intro a ha
      rw [hcpp]
      rcases hwritten₄ a ha with ha | ha
      · rcases hwritten₃ a ha with ha | ha
        · rcases hwritten₂ a ha with ha | ha
          · rcases hwritten₁ a ha with ha | ha
            · rcases hwritten₀ a ha with ha | ha
              · cases ha
              · exact ha
            · exact ha
          · exact ⟨by omega, ha.2⟩
        · exact ⟨by omega, ha.2⟩
      · exact ⟨by omega, ha.2⟩

/-- What is in its place is read back. -/
theorem ArgsPlaced.survive {st : StackState} (h : ArgsPlaced hw req (m.space hw proc.region1_pt) st)
    (hu : hw.UserStack) (hlayout : StackLayout hw req) (hmapped : StackMapped hw req m proc)
    (hclean : ∀ s ∈ req.args, 0 ∉ s) : ArgsSurvive hw req m proc st := by
  have hlimit := hu.limit
  have hlen : (hw.limitAddr : Int) = hw.VMEM_1_LIMIT := limitAddr_eq
  have hsp := hlayout.sp
  have hapart := hlayout.apart
  obtain ⟨hcpp, hlo, hroom, hstrings⟩ := hlayout.addresses hu
  constructor
  · exact readWord_of_holds (by omega) h.argc
  · exact readVector_of_packed hclean (by omega) (by omega) (by omega) (by omega) h.args h.null
  · rw [show req.cppAddr hw + 4 * (req.args.length + 2) = req.cppAddr hw + 4 + 4 * req.args.length + 4 by
      omega]
    exact readWord_of_holds (by decide) h.envp
  · intro i hi
    have hsplit : (packed (req.args.take i)).length + (packed (req.args.drop i)).length =
        (packed req.args).length := packed_take_drop
    have hword := readWord_of_holds (by omega) (h.args.pointer hi)
    rw [hword]
    congr 1
    omega
  · omega
  · have haligned := hlayout.aligned
    omega
  · rw [hmapped.sp]
    omega
  · intro a ha
    have hrange := h.written a ha
    obtain ⟨i, hi, hpage, hle⟩ := stack_page hlayout.npg (show stackBase hw req ≤ a by omega) hrange.2
    refine ⟨?_, i, hi, hpage, hle, hmapped.pages i hi hle⟩
    rw [hmapped.sp]
    omega

/-- Whatever the arguments are, if `LoadProgram` succeeds, the new program finds them as they were. -/
theorem args_survive_exec {args : Nat} {heap : Nat → UInt8} {frames image : Frames UInt8}
    (hu : hw.UserStack) (hli : req.li = some li) (hargs : ReadsArgs hw m proc req args frames)
    (hfit : req.argBytes hw < 2 ^ 31)
    (htext : ∀ i : Nat, li.TextPage hw i → (i : Int) < hw.MAX_PT_LEN - req.stack_npg hw)
    (hload : loadProgram hw m proc req = some (.success, m', proc')) :
    ∃ st, loadProgramBytes hw m proc req args heap frames image = some (.success, m', proc', st) ∧
      ArgsSurvive hw req m' proc' st := by
  obtain ⟨hlayout, hmapped⟩ := stackMapped hu hfit hli htext hload
  have hfits : 0 + (packed req.args).length ≤ (Buffer.mk req.size.toNat heap).size := by
    show 0 + (packed req.args).length ≤ req.size.toNat
    rw [hlayout.size]
    omega
  obtain ⟨argbuf, hsave, hsize, hbuf, -⟩ := saveArgs_packed hargs hfits
  have hclean := readVector_clean hargs
  obtain ⟨st, hbuild, hplaced⟩ := buildArgs_placed image (hlayout.addresses hu) hmapped.window hclean hbuf
    (by omega)
  refine ⟨st, ?_, hplaced.survive hu hlayout hmapped hclean⟩
  unfold loadProgramBytes
  rw [hload]
  simp only [Option.bind_eq_bind, Option.bind_some, if_true]
  rw [hsave]
  simp only [Option.bind_some]
  rw [hbuild]
  rfl

/-- A program that is asked for with three arguments, one of them empty. -/
def argRequest : LoadRequest := { LoadRequest.small with args := [[104, 105], [], [106]] }

/-- The data page of the caller holds the vector, and its text page the strings. -/
def argFrames : Frames UInt8 := fun f o =>
  if f = (execCaller.region1_pt 1).pfn then (word 128 ++ word 131 ++ word 132 ++ word 0).getD o 0
  else if f = (execCaller.region1_pt 0).pfn then
    (terminated [104, 105] ++ terminated [] ++ terminated [106]).getD o 0
  else 0

theorem args_survive_exec_small : ∃ m' proc' st,
    loadProgramBytes .small execKernel.mem execCaller argRequest 144 (fun _ => 0) argFrames (fun _ _ => 0) =
      some (.success, m', proc', st) ∧ ArgsSurvive .small argRequest m' proc' st := by
  have hsuccess : (loadProgram .small execKernel.mem execCaller argRequest).map Prod.fst = some .success := by
    decide +kernel
  obtain ⟨⟨rc, m', proc'⟩, hload, rfl⟩ := Option.map_eq_some_iff.1 hsuccess
  have hu : Hardware.small.UserStack := by
    constructor <;> decide
  have hargs : ReadsArgs .small execKernel.mem execCaller argRequest 144 argFrames := by
    unfold ReadsArgs
    decide +kernel
  have htext : ∀ i : Nat, smallInfo.TextPage .small i →
      (i : Int) < Hardware.small.MAX_PT_LEN - argRequest.stack_npg .small := by
    have hpages : smallInfo.text_pg1 .small = 0 ∧ smallInfo.textTurns .small = 1 ∧
        argRequest.stack_npg .small = 2 := by decide +kernel
    intro i hi
    unfold LoadInfo.TextPage at hi
    rw [hpages.1, hpages.2.1] at hi
    rw [hpages.2.2]
    show (i : Int) < (8 : Nat) - 2
    omega
  exact ⟨m', proc', args_survive_exec hu rfl hargs (by decide) htext hload⟩

end Yalnix
