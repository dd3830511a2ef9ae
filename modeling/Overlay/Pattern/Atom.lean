import Overlay.Number.Integer
import Overlay.Text.Blank

namespace Overlay.Pattern

structure Mode where
  spaced : Bool
  anyCase : Bool
  wide : Bool
  deriving DecidableEq, Repr

def Mode.plain : Mode := ⟨false, false, true⟩

def skipGap (inComment : Bool) : List Char → List Char
  | [] => []
  | c :: cs =>
    if inComment then skipGap (c ≠ '\n') cs
    else if c = '#' then skipGap true cs
    else if Text.isBlank c then skipGap false cs
    else c :: cs

def Mode.skip (m : Mode) (cs : List Char) : List Char := if m.spaced then skipGap false cs else cs

def Mode.peek? (m : Mode) (cs : List Char) : Option Char :=
  if m.spaced then
    match Text.trimStart cs with
    | '#' :: cs => (Text.trimStart cs).head?
    | cs => cs.head?
  else cs.head?

def isNarrow (c : Char) : Bool := c.toNat < 128

inductive Atom where
  /-- A character; `byte` if it is written as the number of a byte. -/
  | literal (c : Char) (byte : Bool)
  /-- The digits, the blanks or the characters of words, or all others. -/
  | shorthand (negated : Bool)
  | any
  /-- An edge of the text, or of a word. -/
  | edge (ofWord : Bool)
  deriving DecidableEq, Repr

namespace Atom

def allowed (m : Mode) : Atom → Bool
  | literal c byte => if m.wide then !m.anyCase else !byte || isNarrow c
  | shorthand negated => !m.wide && !negated
  | any => m.wide
  | edge ofWord => !m.wide || !ofWord

def allowedInSet (m : Mode) : Atom → Bool
  | literal c _ => if m.wide then !m.anyCase else isNarrow c
  | shorthand negated => !m.wide && !negated
  | any | edge _ => false

end Atom

def readHex (m : Mode) : (count : Nat) → Nat → List Char → Option (Char × List Char)
  | 0, n, cs => if n.isValidChar then some (Char.ofNat n, m.skip cs) else none
  | count + 1, n, cs =>
    match m.skip cs with
    | [] => none
    | d :: cs =>
      if Number.isHexDigit d then readHex m count (n * 16 + Number.digitValue d) cs else none

def control? : Char → Option Char
  | 'a' => some '\x07'
  | 'f' => some '\x0c'
  | 'n' => some '\n'
  | 'r' => some '\r'
  | 't' => some '\t'
  | 'v' => some '\x0b'
  | _ => none

def readEscape (m : Mode) : List Char → Option (Atom × List Char)
  | [] => none
  | 'x' :: cs => (readHex m 2 0 cs).map fun (c, rest) => (.literal c true, rest)
  | 'u' :: cs => (readHex m 4 0 cs).map fun (c, rest) => (.literal c false, rest)
  | 'U' :: cs => (readHex m 8 0 cs).map fun (c, rest) => (.literal c false, rest)
  | c :: cs =>
    if ['d', 's', 'w'].contains c then some (.shorthand false, cs)
    else if ['D', 'S', 'W'].contains c then some (.shorthand true, cs)
    else if ['A', 'z'].contains c then some (.edge false, cs)
    else if ['b', 'B', '<', '>'].contains c then some (.edge true, cs)
    else if isNarrow c && !c.isAlphanum then some (.literal c false, cs)
    else (control? c).map fun c => (.literal c false, cs)

end Overlay.Pattern
