import Yalnix.Paging.Private

/-!
# Processes that send bytes to each other

Between processes with private memories there are queues of bytes, each with room for so many. A process puts a
piece of its memory at the end of a queue, and another takes the first bytes of the queue into its own.
-/

namespace Paging

open Transition

variable {ι κ β : Type}

/-- The `n` bytes from `addr` on. -/
def fetch (mem : Private β) : Nat → Nat → Option (List β)
  | _, 0 => some []
  | addr, n + 1 => do
    let b ← mem addr
    let bs ← fetch mem (addr + 1) n
    return b :: bs

/-- What happens between processes and queues. -/
inductive MessageEvent (ι κ β : Type) where
  /-- A process is busy with its own memory. -/
  | own (d : PrivateEvent ι β)
  | send (p : ι) (c : κ) (addr n : Nat)
  /-- The queue may have less than the `n` bytes that are asked for; `rest` is what is stored behind them. -/
  | receive (p : ι) (c : κ) (addr n : Nat) (rest : List β)

/-- The memories of the processes, and the contents of the queues. -/
abbrev Network (ι κ β : Type) := (ι → Private β) × (κ → List β)

variable [DecidableEq ι] [DecidableEq κ]

/-- Queues with room for `room` bytes. -/
def messageMachine (room : Nat) : System (Network ι κ β) (MessageEvent ι κ β) where
  enabled s e := match e with
    | .own d => privateMachine.enabled s.1 d
    | .send _ c _ n => (s.2 c).length + n ≤ room
    | .receive _ c _ n rest => s.2 c ≠ [] ∧ rest.length = n - (s.2 c).length
  step s e := match e with
    | .own d => (privateMachine.step s.1 d).map fun mems => (mems, s.2)
    | .send p c addr n =>
      (fetch (s.1 p) addr n).map fun bs => (s.1, Function.update s.2 c (s.2 c ++ bs))
    | .receive p c addr n rest =>
      (privateMachine.step s.1 (.store p [(addr, (s.2 c).take n ++ rest)])).map fun mems =>
        (mems, Function.update s.2 c ((s.2 c).drop n))

/-- The bytes that an event puts into the queue `c`. -/
def MessageEvent.puts (c : κ) (s : Network ι κ β) : MessageEvent ι κ β → List β
  | .send p c' addr n => if c' = c then (fetch (s.1 p) addr n).getD [] else []
  | _ => []

/-- The bytes that an event takes out of the queue `c`. -/
def MessageEvent.takes (c : κ) (s : Network ι κ β) : MessageEvent ι κ β → List β
  | .receive _ c' _ n _ => if c' = c then (s.2 c).take n else []
  | _ => []

end Paging
