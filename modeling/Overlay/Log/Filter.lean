import Overlay.Log.Event
import Overlay.Number.Double
import Overlay.Pattern
import Overlay.Text.Bytes
import Overlay.Text.Split

namespace Overlay

def Level.rank : Level → Nat
  | trace => 0
  | debug => 1
  | info => 2
  | warn => 3
  | error => 4

/-- The least level that is shown of some targets; nothing if none is. Directives on spans say
nothing about events. -/
structure Directive where
  target : Option String
  onSpans : Bool
  field : Option String
  least : Option Level
  deriving DecidableEq, Repr

abbrev Filter := List Directive

def messageField : String := "message"

namespace Directive

/-- The parts of a directive: what stands in front, what the brackets hold, which may be the name of
a span and a field in braces, and what stands behind the equals sign. -/
structure Parts where
  front : List Char
  brackets : Option (List Char × Option (List Char))
  level : Option (List Char)

def levelNames : List (String × Option Level) :=
  [("off", none), ("error", some .error), ("warn", some .warn), ("info", some .info),
    ("debug", some .debug), ("trace", some .trace)]

def numberedLevel? (cs : List Char) : Option (Option Level) :=
  let ds := match cs with
    | '+' :: ds => ds
    | ds => ds
  if ds.isEmpty || !ds.all Char.isDigit then none
  else levelNames[Number.ofDigits 10 ds]?.map Prod.snd

def level? (cs : List Char) : Option (Option Level) :=
  (numberedLevel? cs).or (levelNames.lookup (String.ofList (cs.map Char.toLower)))

def startsTarget (c : Char) : Bool := Text.isAlphanumeric c || c == '-' || c == ':' || c == '_'

def readBrackets (cs : List Char) : Option ((List Char × Option (List Char)) × List Char) :=
  let name := cs.takeWhile fun c => c ≠ ']' && c ≠ '\x7b'
  match cs.drop name.length with
  | ']' :: rest => some ((name, none), rest)
  | '\x7b' :: cs =>
    let field := cs.takeWhile (· ≠ '\x7d')
    match cs.drop field.length with
    | '\x7d' :: ']' :: rest => if field.isEmpty then none else some ((name, some field), rest)
    | _ => none
  | _ => none

def readLevel : List Char → Option (Option (List Char))
  | '=' :: cs => some (some cs)
  | cs => if cs.all Text.isBlank then some none else none

def readParts (cs : List Char) : Option Parts :=
  let front := cs.takeWhile fun c => c ≠ '=' && c ≠ '['
  if !front.head?.all startsTarget then none
  else
    match cs.drop front.length with
    | [] => if front.isEmpty then none else some ⟨front, none, none⟩
    | '[' :: rest => do
      let (brackets, rest) ← readBrackets rest
      return ⟨front, some brackets, ← readLevel rest⟩
    | rest => if front.isEmpty then none else (readLevel rest).map fun level => ⟨front, none, level⟩

def isFieldValue (cs : List Char) : Bool := (Number.Double.read? cs).isSome || Pattern.isPattern cs

def readField (field : List Char) : Option (String × Bool) :=
  match Text.splitOn '=' field with
  | name :: value :: _ => if isFieldValue value then some (.ofList name, true) else none
  | _ => some (.ofList field, false)

/-- The directive of some parts. What stands alone may be a level; without a level all is shown. A
directive with a name, or with a value asked of a field, is about spans. -/
def ofParts? (p : Parts) : Option Directive := do
  let target := if p.front.isEmpty then none else some (String.ofList p.front)
  match p.brackets, p.level with
  | none, none =>
    return match level? p.front with
    | some least => ⟨none, false, none, least⟩
    | none => ⟨target, false, none, some .trace⟩
  | brackets, level =>
    let least ← match level.getD [] with
      | [] => some (some .trace)
      | name => level? name
    let (name, field) := brackets.getD ([], none)
    match field with
    | none => return ⟨target, brackets.isSome, none, least⟩
    | some field =>
      let (fieldName, valued) ← readField field
      return ⟨target, !name.isEmpty || valued, some fieldName, least⟩

/-- The field of a text with blanks in front. Its place is found without them, but taken with
them. -/
def shiftedField (text : List Char) (p : Parts) : Option (List Char) := do
  let (name, field) ← p.brackets
  let field ← field
  return Text.takeBytes (Text.byteCount field)
    (Text.dropBytes (Text.byteCount p.front + Text.byteCount name + 2) text)

def read? (text : String) : Option Directive := do
  let cs := Text.trimStart text.toList
  let parts ← readParts cs
  if cs.length = text.length then ofParts? parts
  else if parts.level.isSome then none
  else
    let field ← (shiftedField text.toList parts).mapM readField
    return ⟨some text, false, field.map Prod.fst, some .trace⟩

/-- How closely a directive fits an event with a target, if it does. -/
def fit? (d : Directive) (target : String) : Option Nat :=
  if d.onSpans || d.field.any (· ≠ messageField) then none
  else
    let fieldFit := if d.field.isSome then 1 else 0
    match d.target with
    | none => some fieldFit
    | some start =>
      if target.startsWith start then some (2 * (start.length + 1) + fieldFit) else none

end Directive

namespace Filter

def atLeast (least : Level) : Filter := [⟨none, false, none, some least⟩]

def read? (text : String) : Option Filter :=
  let parts := ((Text.splitOn ',' text.toList).map String.ofList).filter fun part => !part.isEmpty
  parts.mapM Directive.read?

def closer (target : String) (best : Option (Nat × Option Level)) (d : Directive) :
    Option (Nat × Option Level) :=
  match d.fit? target, best with
  | none, _ => best
  | some fit, none => some (fit, d.least)
  | some fit, some (other, least) =>
    -- of directives that fit equally well the last one counts
    if other ≤ fit then some (fit, d.least) else some (other, least)

def leastFor (f : Filter) (target : String) : Option Level :=
  (f.foldl (closer target) none).bind Prod.snd

def shows (f : Filter) (e : Event) : Bool :=
  match f.leastFor e.target.text with
  | some least => least.rank ≤ e.level.rank
  | none => false

end Filter

end Overlay
