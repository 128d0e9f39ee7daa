import Yalnix.Crash
import Yalnix.Proofs.Blocking
import Yalnix.Proofs.Calm
import Yalnix.Proofs.Family
import Yalnix.Proofs.FamilyStep
import Yalnix.Proofs.ForkShort
import Yalnix.Proofs.LoadWrites

/-!
# The calls that have a result

While nobody waits for an object, every handler has a result except for the calls of `GoesWrong`.
-/

namespace Yalnix

open Intrusive Transition

variable {hw : Hardware} {k k₁ k' : Kernel} {s : QueueId → List PcbPtr} {f : PcbPtr → List PcbPtr}
  {p : PcbPtr} {m : Memory} {pt : Nat → Pte} {lo n : Nat}

/-! ## Calls on objects -/

namespace Calm

end Calm

namespace Coherent

theorem clockHandler_some (hc : Coherent k s) : ∃ k', clockHandler k = some k' := by
  obtain ⟨q, hupdate, -⟩ := hc.updateDelayed
  unfold clockHandler
  rw [hupdate]
  simp only [Option.bind_eq_bind, Option.bind_some]
  split
  · exact ⟨_, rfl⟩
  · exact ⟨_, rfl⟩

end Coherent

/-! ## Exits -/

end Yalnix
