import Overlay.Number.Integer

namespace Overlay.Number

/-- A floating-point number; a finite one is `mantissa * 2 ^ exponent`. -/
inductive Double where
  | finite (negative : Bool) (mantissa : Nat) (exponent : Int)
  | infinite (negative : Bool)
  | nan (negative : Bool)
  deriving DecidableEq, Repr

namespace Double

def minExponent : Int := -1074

def maxExponent : Int := 971

def divRound (num den : Nat) : Nat :=
  let q := num / den
  let r := num % den
  if den < 2 * r ∨ (2 * r = den ∧ q % 2 = 1) then q + 1 else q

def scaled (num den : Nat) (e : Int) : Nat × Nat :=
  if 0 ≤ e then (num, den * twoTo e.toNat) else (num * twoTo (-e).toNat, den)

def exponentOf (num den : Nat) : Int :=
  -- at this exponent the quotient lies between `2 ^ 52` and `2 ^ 54`
  let guess : Int := (num.log2 : Int) - den.log2 - 53
  let (n, d) := scaled num den guess
  max minExponent (if d * twoTo 53 ≤ n then guess + 1 else guess)

def ofRatio (negative : Bool) (num den : Nat) : Double :=
  if num = 0 then finite negative 0 minExponent
  else
    let e := exponentOf num den
    let (n, d) := scaled num den e
    let m := divRound n d
    -- rounding up may give one bit too many
    let (m, e) := if m = twoTo 53 then (twoTo 52, e + 1) else (m, e)
    if maxExponent < e then infinite negative else finite negative m e

def ofInt (n : Int) : Double := ofRatio (n < 0) n.natAbs 1

/-- The number nearest to `n * 10 ^ k`. Powers far outside the range are not computed: the result
is infinite or zero there. -/
def ofDecimal (negative : Bool) (n : Nat) (k : Int) : Double :=
  if n = 0 then finite negative 0 minExponent
  -- even with `n = 1` this is beyond the largest number
  else if 400 < k then infinite negative
  else if 0 ≤ k then ofRatio negative (n * tenTo k.toNat) 1
  -- a power of ten with a negative exponent is below the same power of eight
  else if (n.log2 : Int) + 3 * k < -1100 then finite negative 0 minExponent
  else ofRatio negative n (tenTo (-k).toNat)

def readExponent? : List Char → Option Int
  | [] => some 0
  | e :: cs =>
    let (negative, ds) := splitSign cs
    if (e = 'e' ∨ e = 'E') ∧ !ds.isEmpty ∧ ds.all Char.isDigit then
      let n : Int := ofDigits 10 ds
      some (if negative then -n else n)
    else none

/-- A decimal without sign: digits with at most one point among or beside them, and possibly an
exponent. The pair `(n, k)` stands for `n * 10 ^ k`. -/
def readDecimal? (cs : List Char) : Option (Nat × Int) :=
  let whole := cs.takeWhile Char.isDigit
  let (fraction, rest) := match cs.dropWhile Char.isDigit with
    | '.' :: ds => (ds.takeWhile Char.isDigit, ds.dropWhile Char.isDigit)
    | ds => ([], ds)
  if whole.isEmpty && fraction.isEmpty then none
  else (readExponent? rest).map fun e => (ofDigits 10 (whole ++ fraction), e - fraction.length)

def read? (cs : List Char) : Option Double :=
  let (negative, body) := splitSign cs
  let word := String.ofList (body.map Char.toLower)
  if word = "inf" ∨ word = "infinity" then some (infinite negative)
  else if word = "nan" then some (nan negative)
  else (readDecimal? body).map fun (n, k) => ofDecimal negative n k

def bits : Double → Nat
  | finite negative m e =>
    -- with 53 bits the leading one is not stored, and the exponent counts from one
    let magnitude := if m < twoTo 52 then m
      else (e - minExponent + 1).toNat * twoTo 52 + (m - twoTo 52)
    if negative then twoTo 63 + magnitude else magnitude
  | infinite negative => (if negative then twoTo 63 else 0) + 2047 * twoTo 52
  | nan negative => (if negative then twoTo 63 else 0) + 2047 * twoTo 52 + twoTo 51

def isFinite : Double → Bool
  | finite _ _ _ => true
  | _ => false

end Double

def double? (literal : String) : Option Double :=
  match hex? literal.toList with
  | some n => some (.ofInt n)
  | none => Double.read? literal.toList

end Overlay.Number
