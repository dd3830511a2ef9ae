import Overlay.Fragment
import Overlay.Number.Double

namespace Overlay.Scalar

open Number (Double)

/-- The whole number that a scalar stands for; a flag counts as 0 or 1. -/
def integer? : Scalar → Option Int
  | number literal => Number.integer? literal
  | flag value => some (if value then 1 else 0)
  | text _ => none

def double? : Scalar → Option Double
  | number literal => Number.double? literal
  | flag value => some (.ofInt (if value then 1 else 0))
  | text _ => none

def flag? : Scalar → Option Bool
  | flag value => some value
  | number literal =>
    match Number.integer? literal with
    | some 0 => some false
    | some 1 => some true
    | _ => none
  | text _ => none

end Overlay.Scalar
