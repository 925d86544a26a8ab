import EvmCheck.PositionSet
import EvmCheck.Rejection

/-!
# Outcomes of a validation

Code is either accepted, with the set of its jump destinations, or rejected for
one cause.
-/

namespace EvmCheck

/-- The result of validating code. -/
inductive Outcome
  /-- The code is valid; its jump destinations are the members of the set. -/
  | accepted (jumpdests : PositionSet)
  /-- The code is invalid. -/
  | rejected (cause : Rejection)
  deriving DecidableEq

namespace Outcome

/-- Whether the code was accepted. -/
def isAccepted : Outcome → Bool
  | accepted _ => true
  | rejected _ => false

/-- The outcome in one line. -/
def describe : Outcome → String
  | accepted jumpdests =>
      "valid, jumpdests " ++ Text.positions jumpdests.toList
  | rejected cause =>
      "invalid (" ++ cause.kind ++ "): " ++ cause.message

end Outcome
end EvmCheck
