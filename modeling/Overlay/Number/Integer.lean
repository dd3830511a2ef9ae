import Overlay.Number.Literal
import Overlay.Number.Power

namespace Overlay.Number

def digitValue (c : Char) : Nat :=
  if c.isDigit then c.toNat - '0'.toNat
  else if 'a' ≤ c ∧ c ≤ 'f' then c.toNat - 'a'.toNat + 10
  else c.toNat - 'A'.toNat + 10

def ofDigits (base : Nat) (ds : List Char) : Nat := ds.foldl (fun n d => n * base + digitValue d) 0

def fitsWord (n : Int) : Bool := -(twoTo 63 : Int) ≤ n && n < twoTo 63

def splitSign : List Char → Bool × List Char
  | '-' :: cs => (true, cs)
  | '+' :: cs => (false, cs)
  | cs => (false, cs)

def signed? (base : Nat) (isDigit : Char → Bool) (cs : List Char) : Option Int :=
  let (negative, ds) := splitSign cs
  if ds.isEmpty || !ds.all isDigit then none
  else
    let n : Int := ofDigits base ds
    let value := if negative then -n else n
    if fitsWord value then some value else none

def decimal? (cs : List Char) : Option Int := signed? 10 Char.isDigit cs

def hexBody? : List Char → Option Int
  | '0' :: x :: cs => if x = 'x' ∨ x = 'X' then signed? 16 isHexDigit cs else none
  | _ => none

/-- A hexadecimal number, whose minus stands before `0x`. The least word is its own negative. -/
def hex? : List Char → Option Int
  | '-' :: cs => (hexBody? cs).map fun n => Int.bmod (-n) (twoTo 64)
  | cs => hexBody? cs

/-- The whole number that a literal denotes, if it does and the number fits. -/
def integer? (literal : String) : Option Int :=
  hex? literal.toList <|> decimal? literal.toList

end Overlay.Number
