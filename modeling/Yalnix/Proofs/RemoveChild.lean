import Yalnix.Proofs.Orphans

/-!
# Taking a child from its parent

`remove_child` at any time of a run, and how the run goes on after it.
-/

namespace Yalnix

open Intrusive Transition

variable {hw : Hardware} {b : Boot hw} {k k' k₀ : Kernel} {f : PcbPtr → List PcbPtr} {p c : PcbPtr}
  {t : List (Kernel × TrapEvent)}

end Yalnix
