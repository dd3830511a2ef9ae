import Overlay.Pattern.Atom

namespace Overlay.Pattern

def joinedDepth : List Nat → Nat
  | [] => 0
  | [depth] => depth
  | depths => 1 + depths.foldl max 0

/-- A bracket that is not closed: the depth of what stands in front of the last operator, if there
is one, and the depths of the parts behind it. It is fresh as long as dashes are only themselves. -/
structure Bracket where
  left : Option Nat
  parts : List Nat
  fresh : Bool
  deriving DecidableEq, Repr

namespace Bracket

def opened : Bracket := ⟨none, [], true⟩

def add (b : Bracket) (depth : Nat) : Bracket :=
  { b with parts := depth :: b.parts, fresh := false }

def depth (b : Bracket) : Nat :=
  match b.left with
  | none => joinedDepth b.parts
  | some left => 1 + max left (joinedDepth b.parts)

def operate (b : Bracket) : Bracket := ⟨some b.depth, [], false⟩

def isPlain (b : Bracket) (c : Char) : Bool :=
  b.fresh && (c = '-' || (c = ']' && b.parts.isEmpty))

end Bracket

def setNames : List String :=
  ["alnum", "alpha", "ascii", "blank", "cntrl", "digit", "graph", "lower", "print", "punct",
    "space", "upper", "word", "xdigit"]

def allowsSet (m : Mode) (named negated : Bool) : Bool :=
  if m.wide then !(named && m.anyCase) else !negated

def splitCaret : List Char → Bool × List Char
  | '^' :: cs => (true, cs)
  | cs => (false, cs)

def readNamed : List Char → Option (Bool × List Char)
  | ':' :: cs =>
    let (negated, cs) := splitCaret cs
    let name := cs.takeWhile (· ≠ ':')
    match cs.drop name.length with
    | ':' :: ']' :: rest => if setNames.contains (.ofList name) then some (negated, rest) else none
    | _ => none
  | _ => none

def readMember (m : Mode) : List Char → Option (Atom × List Char)
  | [] => none
  | '\\' :: cs => readEscape m cs
  | c :: cs => some (.literal c false, cs)

def readRange (m : Mode) (cs : List Char) : Option (List Char) := do
  let (first, rest) ← readMember m cs
  if !first.allowedInSet m then none
  else
    match m.skip rest with
    | '-' :: more =>
      -- a dash in front of another one or of the end makes no range
      if m.peek? more = some ']' || m.peek? more = some '-' then some ('-' :: more)
      else
        let (last, rest) ← readMember m (m.skip more)
        match first, last with
        | .literal a _, .literal z _ => if a ≤ z && last.allowedInSet m then some rest else none
        | _, _ => none
    | rest => some rest

def readOpening (m : Mode) (cs : List Char) : Option (List Char) :=
  let (negated, rest) := splitCaret (m.skip cs)
  if allowsSet m false negated then some rest else none

/-- Reads the rest of a set, of which some brackets are open, the innermost first. Each step passes
a character, so their number is fuel enough. The result is the depth of the set. -/
def readSet (m : Mode) : (fuel : Nat) → List Bracket → List Char → Option (Nat × List Char)
  | 0, _, _ | _, [], _ => none
  | fuel + 1, b :: outer, cs =>
    match m.skip cs with
    | [] => none
    | c :: cs =>
      if b.isPlain c then
        if (Atom.literal c false).allowedInSet m then
          readSet m fuel ({ b.add 0 with fresh := c = '-' } :: outer) cs
        else none
      else if c = '[' then
        match readNamed cs with
        | some (negated, rest) =>
          if allowsSet m true negated then readSet m fuel (b.add 0 :: outer) rest else none
        | none => do readSet m fuel (.opened :: b :: outer) (← readOpening m cs)
      else if c = ']' then
        let depth := 1 + b.depth
        match outer with
        | [] => some (depth, cs)
        | b :: outer => readSet m fuel (b.add depth :: outer) cs
      else if ['&', '-', '~'].contains c && cs.head? = some c then
        readSet m fuel (b.operate :: outer) cs.tail
      else do readSet m fuel (b.add 0 :: outer) (← readRange m (c :: cs))

end Overlay.Pattern
