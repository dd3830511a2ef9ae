import Overlay.Number.Double
/-!
Decimal text of floating-point numbers: the fewest digits that read back as the number, and of
those the nearest.
-/

namespace Overlay.Number

/-- A positive number as a fraction, with the bounds of what rounds to it, all over one
denominator. The bounds themselves round to it exactly if the mantissa is even. -/
structure Neighbourhood where
  low : Nat
  value : Nat
  high : Nat
  den : Nat
  closed : Bool
  deriving Repr

def Neighbourhood.of (m : Nat) (e : Int) : Neighbourhood :=
  let below := if m = twoTo 52 ∧ Double.minExponent < e then 1 else 2
  let (num, den) := if 0 ≤ e then (twoTo e.toNat, 4) else (1, 4 * twoTo (-e).toNat)
  ⟨(4 * m - below) * num, 4 * m * num, (4 * m + 2) * num, den, m % 2 = 0⟩

def Neighbourhood.holds (b : Neighbourhood) (n d : Nat) : Bool :=
  if b.closed then b.low * d ≤ n * b.den && n * b.den ≤ b.high * d
  else b.low * d < n * b.den && n * b.den < b.high * d

def leadingPower (num den : Nat) : Int :=
  if den ≤ num then ((Nat.toDigits 10 (num / den)).length : Int) - 1
  else
    let j := (Nat.toDigits 10 (den / num)).length
    if den ≤ num * tenTo (j - 1) then -((j : Int) - 1) else -(j : Int)

def gridPoint (d : Nat) (p : Int) : Nat × Nat :=
  if 0 ≤ p then (d * tenTo p.toNat, 1) else (d, tenTo (-p).toNat)

/-- The neighbour of the number on the grid of the multiples of `10 ^ p` that reads back as the
number, the nearer one if both do, and the even one of two equally near. -/
def onGrid? (b : Neighbourhood) (p : Int) : Option (Nat × Int) :=
  let (num, den) := if 0 ≤ p then (b.value, b.den * tenTo p.toNat)
    else (b.value * tenTo (-p).toNat, b.den)
  let d := num / den
  let r := num % den
  let inside (d : Nat) : Bool := let (n, m) := gridPoint d p; b.holds n m
  -- twice the remainder against the denominator: below or above the middle
  let lowerFirst := 2 * r < den || (2 * r == den && d % 2 == 0)
  match inside d, inside (d + 1) with
  | true, true => some (if lowerFirst then d else d + 1, p)
  | true, false => some (d, p)
  | false, true => some (d + 1, p)
  | false, false => none

def dropZeros : (fuel : Nat) → Nat → Int → Nat × Int
  | 0, d, p => (d, p)
  | fuel + 1, d, p => if d ≠ 0 ∧ d % 10 = 0 then dropZeros fuel (d / 10) (p + 1) else (d, p)

/-- The decimal `d * 10 ^ p` with the fewest digits that reads back as `m * 2 ^ e`. Seventeen
digits always suffice. -/
def shortest (m : Nat) (e : Int) : Nat × Int :=
  if m = 0 then (0, 0)
  else
    let b := Neighbourhood.of m e
    let k := leadingPower b.value b.den
    -- one digit first, then more
    let found := (List.range 17).findSome? fun (n : Nat) => onGrid? b (k - n)
    let (d, p) := found.getD (0, 0)
    dropZeros 20 d p

/-- Where numbers leave positional notation: the powers of ten of the leading digit that are still
written without an exponent. -/
structure DecimalStyle where
  leastPositional : Int
  pastPositional : Int

def DecimalStyle.json : DecimalStyle := ⟨-5, 16⟩

def layOut (style : DecimalStyle) (d : Nat) (p : Int) : String :=
  let digits := toString d
  -- the power of ten of the leading digit
  let k := p + digits.length - 1
  let zeros (n : Int) : String := .ofList (List.replicate n.toNat '0')
  if style.leastPositional ≤ k ∧ k < style.pastPositional then
    if 0 ≤ p then digits ++ zeros p ++ ".0"
    else if 0 ≤ k then
      .ofList (digits.toList.take (k + 1).toNat ++ '.' :: digits.toList.drop (k + 1).toNat)
    else "0." ++ zeros (-k - 1) ++ digits
  else
    let mantissa := match digits.toList with
      | c :: (f :: fs) => String.ofList (c :: '.' :: f :: fs)
      | cs => .ofList cs
    mantissa ++ "e" ++ (if 0 ≤ k then "+" else "-") ++ toString k.natAbs

def Double.text? (style : DecimalStyle) : Double → Option String
  | finite negative m e =>
    let (d, p) := shortest m e
    some ((if negative then "-" else "") ++ layOut style d p)
  | _ => none

end Overlay.Number
