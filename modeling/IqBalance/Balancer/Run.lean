import IqBalance.Balancer

/-!
Runs of an engine. A `Call` is one of the three things a caller may do; `call`
carries one out and `run` a list of them in order. A rejected cadence leaves
the engine as it was, and the run goes on.
-/

namespace IqBalance

/-- What a caller may do to a running engine. -/
inductive Call (α : Type) where
  | process (block : Block α)
  | setOptimalPoint (w : α)
  | configure (cadence : Cadence)
  deriving DecidableEq

/-- What a call gave back. -/
inductive Answer (α : Type) where
  | processed (block : Block α) (outcome : Outcome α)
  | retuned
  | configured (accepted : Bool)
  deriving DecidableEq

namespace Balancer

variable {α : Type} [Scalar α]

/-- Carry one call out. -/
def call (b : Balancer α) : Call α → Except Fault (Balancer α × Answer α)
  | .process block => do
    let done ← b.process block
    return (done.balancer, .processed done.block done.outcome)
  | .setOptimalPoint w => .ok (b.setOptimalPoint w, .retuned)
  | .configure cadence =>
    match b.configure cadence with
    | .ok b => .ok (b, .configured true)
    | .error _ => .ok (b, .configured false)

/-- Carry calls out in order. -/
def run (b : Balancer α) : List (Call α) → Except Fault (Balancer α × List (Answer α))
  | [] => .ok (b, [])
  | c :: rest => do
    let (b, answer) ← b.call c
    let (b, answers) ← b.run rest
    return (b, answer :: answers)

end Balancer

end IqBalance
