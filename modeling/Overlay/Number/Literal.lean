namespace Overlay.Number

def isHexDigit (c : Char) : Bool :=
  c.isDigit || ('a' ≤ c && c ≤ 'f') || ('A' ≤ c && c ≤ 'F')

def isWordChar (c : Char) : Bool := c.isAlphanum || c == '_'

def isLiteralChar (c : Char) : Bool := isWordChar c || c == '.'

/-- How far a scan went, and whether what it passed is a whole literal. -/
structure Reach where
  length : Nat
  complete : Bool
  deriving DecidableEq, Repr

def signLength : List Char → Nat
  | '+' :: _ | '-' :: _ => 1
  | _ => 0

def digitCount (cs : List Char) : Nat := (cs.takeWhile Char.isDigit).length

def exponentReach : List Char → Reach
  | [] => ⟨0, true⟩
  | e :: cs =>
    if e = 'e' ∨ e = 'E' then
      let sign := signLength cs
      let digits := digitCount (cs.drop sign)
      ⟨1 + sign + digits, 0 < digits⟩
    else ⟨0, true⟩

def decimalReach (cs : List Char) : Reach :=
  let whole := digitCount cs
  let (point, fraction) := match cs.drop whole with
    | '.' :: ds => (1, digitCount ds)
    | _ => (0, 0)
  -- a point belongs to the literal even if no digit follows it
  let mantissa := whole + point + fraction
  if whole + fraction = 0 then ⟨mantissa, false⟩
  else
    let exponent := exponentReach (cs.drop mantissa)
    ⟨mantissa + exponent.length, exponent.complete⟩

def unsignedReach : List Char → Reach
  | '0' :: x :: cs =>
    if x = 'x' ∨ x = 'X' then
      let digits := (cs.takeWhile isHexDigit).length
      ⟨2 + digits, 0 < digits⟩
    else decimalReach ('0' :: x :: cs)
  | cs => decimalReach cs

def reach (cs : List Char) : Reach :=
  let sign := signLength cs
  let body := unsignedReach (cs.drop sign)
  ⟨sign + body.length, body.complete⟩

/-- Reads the literal in front. A literal that is incomplete or runs into further word characters
is refused together with the rest of the word. -/
def readLiteral (cs : List Char) : Except (List Char) (List Char) :=
  let r := reach cs
  let rest := cs.drop r.length
  if r.complete && !rest.head?.any isLiteralChar then .ok (cs.take r.length)
  else .error (cs.take r.length ++ rest.takeWhile isLiteralChar)

end Overlay.Number
