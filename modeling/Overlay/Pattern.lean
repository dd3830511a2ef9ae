import Overlay.Pattern.Set
import Overlay.Text.Alphanumeric

namespace Overlay.Pattern

inductive Part where
  | modes
  | piece (depth : Nat)
  deriving DecidableEq, Repr

def Part.depth : Part → Nat
  | modes => 0
  | piece depth => depth

/-- What a group holds so far: the depths of the alternatives that are complete, and the parts of
the present one, the last first. -/
structure Content where
  alternatives : List Nat
  parts : List Part
  deriving DecidableEq, Repr

namespace Content

def empty : Content := ⟨[], []⟩

def add (c : Content) (p : Part) : Content := { c with parts := p :: c.parts }

def alternate (c : Content) : Content :=
  ⟨joinedDepth (c.parts.map Part.depth) :: c.alternatives, []⟩

def depth (c : Content) : Nat := joinedDepth c.alternate.alternatives

def repeatLast? (c : Content) : Option Content :=
  match c.parts with
  | .piece depth :: parts => some { c with parts := .piece (depth + 1) :: parts }
  | _ => none

end Content

def maxDepth : Nat := 250

def modeLetters : List Char := ['i', 'm', 's', 'U', 'u', 'R', 'x']

def Mode.set? (m : Mode) (letters : List Char) : Option Mode :=
  let on := letters.takeWhile (· ≠ '-')
  let off := (letters.drop on.length).drop 1
  let known := (on ++ off).all modeLetters.contains && (on ++ off).Nodup
  if !known || (off.isEmpty && letters.contains '-') then none
  else
    let state (letter : Char) (now : Bool) : Bool :=
      on.contains letter || (now && !off.contains letter)
    some ⟨state 'x' m.spaced, state 'i' m.anyCase, state 'u' m.wide⟩

def isGroupName : List Char → Bool
  | [] => false
  | c :: cs =>
    (c = '_' || Text.isAlphabetic c) &&
      cs.all fun c => ['_', '.', '[', ']'].contains c || Text.isAlphanumeric c

inductive Opening where
  | modes (m : Mode)
  | group (m : Mode) (name : Option (List Char))
  deriving DecidableEq, Repr

def readName (m : Mode) (cs : List Char) : Option (Opening × List Char) :=
  let name := cs.takeWhile (· ≠ '>')
  match cs.drop name.length with
  | _ :: rest => if isGroupName name then some (.group m (some name), rest) else none
  | [] => none

def readModes (m : Mode) (cs : List Char) : Option (Opening × List Char) := do
  let letters := cs.takeWhile fun c => c ≠ ':' && c ≠ ')'
  let changed ← m.set? letters
  match cs.drop letters.length with
  | ':' :: rest => some (.group changed none, rest)
  | _ :: rest => if letters.isEmpty then none else some (.modes changed, rest)
  | [] => none

def readGroup (m : Mode) (cs : List Char) : Option (Opening × List Char) :=
  match m.skip cs with
  | '?' :: 'P' :: '<' :: cs | '?' :: '<' :: cs => readName m cs
  | '?' :: cs => readModes m cs
  | cs => some (.group m none, cs)

def readAtom (m : Mode) : List Char → Option (Atom × List Char)
  | [] => none
  | '\\' :: cs => readEscape m cs
  | '.' :: cs => some (.any, cs)
  | c :: cs => some (if c = '^' || c = '$' then .edge false else .literal c false, cs)

/-- Reads the rest of a pattern: in a mode, behind groups of some names, in groups that are open,
the innermost first, each with the mode that holds again behind it. Each step passes a character,
so their number is fuel enough. -/
def read (m : Mode) (names : List (List Char)) (outer : List (Mode × Content))
    (content : Content) : (fuel : Nat) → List Char → Bool
  | 0, _ => false
  | fuel + 1, cs =>
    match m.skip cs with
    | [] => outer.isEmpty && content.depth ≤ maxDepth
    | '(' :: cs =>
      match readGroup m cs with
      | none => false
      | some (.modes m, rest) => read m names outer (content.add .modes) fuel rest
      | some (.group inner none, rest) => read inner names ((m, content) :: outer) .empty fuel rest
      | some (.group inner (some name), rest) =>
        !names.contains name && read inner (name :: names) ((m, content) :: outer) .empty fuel rest
    | ')' :: cs =>
      match outer with
      | [] => false
      | (m, before) :: outer => read m names outer (before.add (.piece (content.depth + 1))) fuel cs
    | '|' :: cs => read m names outer content.alternate fuel cs
    | '[' :: cs =>
      match (readOpening m cs).bind (readSet m cs.length [.opened]) with
      | none => false
      | some (depth, rest) => read m names outer (content.add (.piece depth)) fuel rest
    -- what a brace begins would be a count
    | '\x7b' :: _ => false
    | c :: cs =>
      if ['?', '*', '+'].contains c then
        match content.repeatLast? with
        | none => false
        | some content =>
          read m names outer content fuel (if cs.head? = some '?' then cs.tail else cs)
      else
        match readAtom m (c :: cs) with
        | none => false
        | some (atom, rest) =>
          atom.allowed m && read m names outer (content.add (.piece 0)) fuel rest

def isPattern (cs : List Char) : Bool := read .plain [] [] .empty (cs.length + 1) cs

end Overlay.Pattern
