import IqBalance.Config.Validation
import IqBalance.Memory

/-!
Why something could not be set up: a tuning that is not accepted, a buffer
that cannot be had, or a fault.
-/

namespace IqBalance

/-- Why something could not be set up. -/
inductive Refusal (α : Type) where
  | invalid (cause : ConfigError α)
  | allocation (cause : AllocationError)
  | fault (cause : Fault)

end IqBalance
