import Overlay.Fragment.Reading
import Overlay.Text.Blank
import Overlay.Text.Split
import Overlay.Tree

namespace Overlay

inductive Kind where
  | text
  | number
  | array
  deriving DecidableEq, Repr

def Kind.description : Kind → String
  | text => "a string"
  | number => "a number"
  | array => "an array"

inductive QueryError where
  | invalidPath (path : String)
  | notFound (path : String)
  | mismatch (path : String) (kind : Kind)
  deriving DecidableEq, Repr

def QueryError.message : QueryError → String
  | invalidPath path => s!"invalid query path '{path}'"
  | notFound path => s!"'{path}' not found"
  | mismatch path kind => s!"'{path}' is not {kind.description}"

inductive Entry where
  | group (c : Class)
  | value (v : Value)
  deriving DecidableEq, Repr

namespace Tree

/-- The segments of a dotted path, without blanks around them. None of them may be empty. -/
def segments (path : String) : Except QueryError (List String) :=
  let parts := (Text.splitOn '.' (Text.trimChars path.toList)).map Text.trimChars
  if parts.any List.isEmpty then .error (.invalidPath path) else .ok (parts.map String.ofList)

def orNotFound {α : Type} (path : String) : Option α → Except QueryError α
  | some a => .ok a
  | none => .error (.notFound path)

def entry? (c : Class) (key : String) : Option Entry :=
  match c.property? key with
  | some m => some (.value m.value)
  | none => (c.child? key).map .group

def entryAt? (c : Class) : List String → Option Entry
  | [] => none
  | [key] => entry? c key
  | key :: path => (c.child? key).bind fun d => entryAt? d path

def lookup (t : Tree) (path : String) : Except QueryError Entry := do
  let names ← segments path
  orNotFound path (entryAt? t.root (names.map nameKey))

def get (t : Tree) (path : String) : Except QueryError Value := do
  match ← t.lookup path with
  | .value v => return v
  | .group _ => .error (.notFound path)

def classAt (t : Tree) (path : String) : Except QueryError Class := do
  let names ← segments path
  orNotFound path (t.at? (names.map nameKey))

def ofKind {α : Type} (path : String) (kind : Kind) : Option α → Except QueryError α
  | some a => .ok a
  | none => .error (.mismatch path kind)

def getText (t : Tree) (path : String) : Except QueryError String := do
  ofKind path .text ((← t.get path).scalar?.bind Scalar.text?)

def getNumber (t : Tree) (path : String) : Except QueryError Number.Double := do
  ofKind path .number ((← t.get path).scalar?.bind Scalar.double?)

def getArray (t : Tree) (path : String) : Except QueryError (List Scalar) := do
  ofKind path .array (← t.get path).array?

end Tree

end Overlay
