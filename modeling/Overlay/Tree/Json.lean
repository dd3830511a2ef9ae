import Overlay.Json
import Overlay.Tree.Query

namespace Overlay

/-- A number is a JSON number if it can be: as a whole number, else as a floating-point number,
else its literal is a string. -/
def Scalar.json : Scalar → Json
  | .text value => .text value
  | .flag value => .bool value
  | .number literal =>
    match Number.integer? literal with
    | some n => .integer n
    | none =>
      match Number.double? literal with
      | some d => if d.isFinite then .float d else .text literal
      | none => .text literal

def Value.json : Value → Json
  | .scalar s => s.json
  | .array items => .array (items.map Scalar.json)

namespace Class

mutual

def json : Class → Json
  | ⟨_, base, properties, children⟩ =>
    .ofMembers [
      ("parent", (base.map .text).getD .null),
      ("properties", .ofMembers (properties.map fun m => (m.name, m.value.json))),
      ("classes", .ofMembers (membersOf children))]

def membersOf : List Class → List (String × Json)
  | [] => []
  | c :: cs => (c.name, json c) :: membersOf cs

end

end Class

def Tree.json (t : Tree) : Json := .ofMembers (Class.membersOf t.root.children)

def Entry.json : Entry → Json
  | .value v => v.json
  | .group c => c.json

end Overlay
