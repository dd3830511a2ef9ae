import Overlay.Number.Power
import Overlay.Text.Blank
import Overlay.Text.CharLiteral
import Overlay.Text.Split
import Overlay.Version

namespace Overlay

namespace Version

inductive Part where
  | major
  | minor
  | patch
  | preRelease
  | build
  deriving DecidableEq, Repr

def Part.description : Part → String
  | major => "major version number"
  | minor => "minor version number"
  | patch => "patch version number"
  | preRelease => "pre-release identifier"
  | build => "build metadata"

inductive Fault where
  | empty
  | unexpectedEnd (part : Part)
  | unexpectedCharacter (part : Part) (c : Char)
  | unexpectedAfter (part : Part) (c : Char)
  | expectedComma (part : Part) (c : Char)
  | leadingZero (part : Part)
  | tooLarge (part : Part)
  | emptySegment (part : Part)
  | wildcardNotAlone (c : Char)
  | afterWildcard
  | tooManyComparators
  deriving DecidableEq, Repr

def Fault.message : Fault → String
  | empty => "version is empty"
  | unexpectedEnd part => s!"unexpected end of input while parsing {part.description}"
  | unexpectedCharacter part c =>
    s!"unexpected character {Text.charLiteral c} while parsing {part.description}"
  | unexpectedAfter part c => s!"unexpected character {Text.charLiteral c} after {part.description}"
  | expectedComma part c => s!"expected comma after {part.description}, found {Text.charLiteral c}"
  | leadingZero part => s!"invalid leading zero in {part.description}"
  | tooLarge part => s!"value of {part.description} exceeds u64::MAX"
  | emptySegment part => s!"empty identifier segment in {part.description}"
  | wildcardNotAlone c =>
    s!"wildcard req ({c}) must be the only comparator in the version req"
  | afterWildcard => "unexpected character after wildcard in version req"
  | tooManyComparators => "excessive number of version comparators"

def numberLimit : Nat := Number.twoTo 64

def hasLeadingZero (ds : List Char) : Bool := 1 < ds.length && ds.head? == some '0'

def readNumber (part : Part) (cs : List Char) : Except Fault (Nat × List Char) :=
  let ds := cs.takeWhile Char.isDigit
  let rest := cs.dropWhile Char.isDigit
  if ds.isEmpty then
    match rest with
    | [] => .error (.unexpectedEnd part)
    | c :: _ => .error (.unexpectedCharacter part c)
  else if hasLeadingZero ds then .error (.leadingZero part)
  else
    let n := Number.ofDigits 10 ds
    if n < numberLimit then .ok (n, rest) else .error (.tooLarge part)

def readDot (part : Part) : List Char → Except Fault (List Char)
  | '.' :: cs => .ok cs
  | c :: _ => .error (.unexpectedAfter part c)
  | [] => .error (.unexpectedEnd part)

def isSegmentChar (c : Char) : Bool := c.isAlphanum || c == '-'

def checkSegment (part : Part) (segment : List Char) : Except Fault String :=
  if segment.isEmpty then .error (.emptySegment part)
  else if part = .preRelease && segment.all Char.isDigit && hasLeadingZero segment then
    .error (.leadingZero part)
  else .ok (.ofList segment)

def readSegments (part : Part) (cs : List Char) : Except Fault (List String × List Char) := do
  let inSegments (c : Char) : Bool := isSegmentChar c || c == '.'
  let segments ← (Text.splitOn '.' (cs.takeWhile inSegments)).mapM (checkSegment part)
  return (segments, cs.dropWhile inSegments)

/-- Reads segments behind their mark, and tells the part that was read last. -/
def readMarked (mark : Char) (part last : Part) :
    List Char → Except Fault (List String × Part × List Char)
  | [] => .ok ([], last, [])
  | c :: cs =>
    if c = mark then do
      let (segments, rest) ← readSegments part cs
      return (segments, part, rest)
    else .ok ([], last, c :: cs)

def read (cs : List Char) : Except Fault Version := do
  let (major, cs) ← readNumber .major cs
  let cs ← readDot .major cs
  let (minor, cs) ← readNumber .minor cs
  let cs ← readDot .minor cs
  let (patch, cs) ← readNumber .patch cs
  let (pre, last, cs) ← readMarked '-' .preRelease .patch cs
  let (build, last, cs) ← readMarked '+' .build last cs
  match cs with
  | [] => return ⟨major, minor, patch, pre, build⟩
  | c :: _ => .error (.unexpectedAfter last c)

end Version

structure DeclaredVersion where
  raw : String
  version : Version
  deriving DecidableEq, Repr

namespace DeclaredVersion

def components? (cs : List Char) : Option (List Nat) :=
  (Text.splitOn '.' cs).mapM fun part =>
    let n := Number.ofDigits 10 part
    if !part.isEmpty && part.all Char.isDigit && n < Version.numberLimit then some n else none

/-- Numeric text is brought into the form of a version: components without leading zeros, and
three of them at least. Other text stays. -/
def normalize (cs : List Char) : List Char :=
  match components? cs with
  | none => cs
  | some ns =>
    Text.joinWith '.' ((ns ++ List.replicate (3 - ns.length) 0).map fun n => (toString n).toList)

def read (text : String) : Except Version.Fault DeclaredVersion := do
  let raw := Text.trim text
  if raw.isEmpty then .error .empty
  else
    let version ← Version.read (normalize raw.toList)
    return ⟨raw, version⟩

end DeclaredVersion

end Overlay
