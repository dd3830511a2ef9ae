import Overlay.Version.Read

namespace Overlay

open Version (Fault Part readNumber readMarked)

inductive Operator where
  | exact
  | greater
  | greaterEq
  | less
  | lessEq
  | tilde
  | caret
  | wildcard
  deriving DecidableEq, Repr

def Operator.text : Operator → String
  | exact => "="
  | greater => ">"
  | greaterEq => ">="
  | less => "<"
  | lessEq => "<="
  | tilde => "~"
  | caret => "^"
  | wildcard => ""

structure Comparator where
  operator : Operator
  major : Nat
  minor : Option Nat
  patch : Option Nat
  pre : List String
  deriving DecidableEq, Repr

namespace Comparator

def text (c : Comparator) : String :=
  let anyNumber := if c.operator = .wildcard then ".*" else ""
  let numbers := match c.minor, c.patch with
    | none, _ => s!"{c.major}" ++ anyNumber
    | some minor, none => s!"{c.major}.{minor}" ++ anyNumber
    | some minor, some patch =>
      s!"{c.major}.{minor}.{patch}" ++ (if c.pre.isEmpty then "" else "-" ++ Version.dotted c.pre)
  c.operator.text ++ numbers

def equals (c : Comparator) (v : Version) : Bool :=
  v.major = c.major && c.minor.all (v.minor = ·) && c.patch.all (v.patch = ·) && v.pre = c.pre

def exceeded (c : Comparator) (v : Version) : Bool :=
  if v.major ≠ c.major then c.major < v.major
  else match c.minor, c.patch with
    | none, _ => false
    | some minor, patch =>
      if v.minor ≠ minor then minor < v.minor
      else match patch with
        | none => false
        | some patch =>
          if v.patch ≠ patch then patch < v.patch else Version.comparePre v.pre c.pre = .gt

def notReached (c : Comparator) (v : Version) : Bool :=
  if v.major ≠ c.major then v.major < c.major
  else match c.minor, c.patch with
    | none, _ => false
    | some minor, patch =>
      if v.minor ≠ minor then v.minor < minor
      else match patch with
        | none => false
        | some patch =>
          if v.patch ≠ patch then v.patch < patch else Version.comparePre v.pre c.pre = .lt

def reachesPre (c : Comparator) (v : Version) : Bool := Version.comparePre v.pre c.pre != .lt

def withinTilde (c : Comparator) (v : Version) : Bool :=
  v.major = c.major && c.minor.all (v.minor = ·) &&
    match c.patch with
    | some patch => if v.patch ≠ patch then patch < v.patch else c.reachesPre v
    | none => c.reachesPre v

/-- All may grow that comes behind the first number other than zero. -/
def withinCaret (c : Comparator) (v : Version) : Bool :=
  v.major = c.major &&
    match c.minor, c.patch with
    | none, _ => true
    -- with a zero in front the second number is the one that stays
    | some minor, none => if 0 < c.major then minor ≤ v.minor else v.minor = minor
    | some minor, some patch =>
      if 0 < c.major then
        if v.minor ≠ minor then minor < v.minor
        else if v.patch ≠ patch then patch < v.patch
        else c.reachesPre v
      else if v.minor ≠ minor then false
      -- with two zeros in front nothing may change
      else if v.patch ≠ patch then 0 < minor && patch < v.patch
      else c.reachesPre v

/-- Whether a version meets the condition. -/
def isMetBy (c : Comparator) (v : Version) : Bool :=
  match c.operator with
  | .exact | .wildcard => c.equals v
  | .greater => c.exceeded v
  | .greaterEq => c.equals v || c.exceeded v
  | .less => c.notReached v
  | .lessEq => c.equals v || c.notReached v
  | .tilde => c.withinTilde v
  | .caret => c.withinCaret v

def admitsPre (c : Comparator) (v : Version) : Bool :=
  c.major = v.major && c.minor = some v.minor && c.patch = some v.patch && !c.pre.isEmpty

end Comparator

structure Requirement where
  comparators : List Comparator
  deriving DecidableEq, Repr

namespace Requirement

def text (r : Requirement) : String :=
  if r.comparators.isEmpty then "*" else ", ".intercalate (r.comparators.map Comparator.text)

/-- Whether a version meets all comparators. A pre-release has to be asked for, too. -/
def isMetBy (r : Requirement) (v : Version) : Bool :=
  r.comparators.all (·.isMetBy v) && (v.pre.isEmpty || r.comparators.any (·.admitsPre v))

def maxComparators : Nat := 32

def skipSpaces (cs : List Char) : List Char := cs.dropWhile (· = ' ')

def isWildcard (c : Char) : Bool := c == '*' || c == 'x' || c == 'X'

def readOperator : List Char → Option Operator × List Char
  | '=' :: cs => (some .exact, cs)
  | '>' :: '=' :: cs => (some .greaterEq, cs)
  | '>' :: cs => (some .greater, cs)
  | '<' :: '=' :: cs => (some .lessEq, cs)
  | '<' :: cs => (some .less, cs)
  | '~' :: cs => (some .tilde, cs)
  | '^' :: cs => (some .caret, cs)
  | cs => (none, cs)

inductive Place where
  | absent
  | wildcard
  | number (n : Nat)
  deriving DecidableEq, Repr

def Place.number? : Place → Option Nat
  | number n => some n
  | _ => none

def readPlace (part : Part) : List Char → Except Fault (Place × List Char)
  | '.' :: c :: cs =>
    if isWildcard c then .ok (.wildcard, cs)
    else do
      let (n, rest) ← readNumber part (c :: cs)
      return (.number n, rest)
  | ['.'] => do
    let (n, rest) ← readNumber part []
    return (.number n, rest)
  | cs => .ok (.absent, cs)

def readPatch (minor : Place) (cs : List Char) : Except Fault (Place × List Char) :=
  match minor, cs with
  | .wildcard, '.' :: c :: cs =>
    if isWildcard c then .ok (.wildcard, cs) else .error .afterWildcard
  | .wildcard, ['.'] => .error .afterWildcard
  | _, cs => readPlace .patch cs

def readSuffix (patch : Place) (last : Part) (cs : List Char) :
    Except Fault (List String × Part × List Char) :=
  match patch with
  | .number _ => do
    let (pre, last, cs) ← readMarked '-' .preRelease last cs
    let (_, last, cs) ← readMarked '+' .build last cs
    return (pre, last, cs)
  | _ => .ok ([], last, cs)

def lastPart (minor patch : Place) : Part :=
  match minor, patch with
  | _, .number _ | _, .wildcard => .patch
  | .number _, .absent | .wildcard, .absent => .minor
  | .absent, .absent => .major

/-- Reads one comparator, and tells the part of it that was read last. Without an operator, a
wildcard fixes the numbers given and other text means the caret. -/
def readComparator (cs : List Char) : Except Fault (Comparator × Part × List Char) := do
  let (operator, cs) := readOperator cs
  let (major, cs) ← readNumber .major (skipSpaces cs)
  let (minor, cs) ← readPlace .minor cs
  let (patch, cs) ← readPatch minor cs
  -- with an operator in front a wildcard just leaves the number open
  let default := if minor = .wildcard ∨ patch = .wildcard then .wildcard else .caret
  let (pre, last, cs) ← readSuffix patch (lastPart minor patch) cs
  return (⟨operator.getD default, major, minor.number?, patch.number?, pre⟩, last, skipSpaces cs)

/-- A wildcard that fails as a comparator but stands where one ends is told so. -/
def wildcardFault (cs : List Char) (fault : Fault) : Fault :=
  match cs with
  | c :: cs =>
    if isWildcard c && (skipSpaces cs).head?.all (· == ',') then .wildcardNotAlone c else fault
  | [] => fault

def readComparators : (room : Nat) → List Char → Except Fault (List Comparator)
  | 0, _ => .error .tooManyComparators
  | room + 1, cs =>
    match readComparator cs with
    | .error fault => .error (wildcardFault cs fault)
    | .ok (c, last, rest) =>
      match rest with
      | [] => .ok [c]
      | ',' :: rest => do
        let more ← readComparators room (skipSpaces rest)
        return c :: more
      | d :: _ => .error (.expectedComma last d)

def read (cs : List Char) : Except Fault Requirement :=
  let cs := skipSpaces cs
  match cs with
  | c :: rest =>
    if isWildcard c then
      match skipSpaces rest with
      | [] => .ok ⟨[]⟩
      | ',' :: _ => .error (.wildcardNotAlone c)
      | _ :: _ => .error .afterWildcard
    else (readComparators maxComparators cs).map Requirement.mk
  | [] => (readComparators maxComparators cs).map Requirement.mk

end Requirement

def DeclaredVersion.satisfies (v : DeclaredVersion) (r : Requirement) : Bool := r.isMetBy v.version

end Overlay
