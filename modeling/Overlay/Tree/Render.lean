import Overlay.Text.Lines
import Overlay.Tree.Query

namespace Overlay

namespace Class

def indent : String := "    "

def propertyLine (m : Member) : String :=
  let brackets := if m.value.isArray then "[]" else ""
  s!"{m.name}{brackets} = {m.value.written};"

def header (name : String) : Option String → String
  | none => s!"class {name}"
  | some base => s!"class {name} /* inherits {base} */"

mutual

def lines (pad : String) : Class → List String
  | ⟨name, base, properties, children⟩ =>
    if properties.isEmpty && children.isEmpty then
      [pad ++ header name base ++ " \x7b\x7d;"]
    else
      [pad ++ header name base, pad ++ "\x7b"] ++
        properties.map (fun m => pad ++ indent ++ propertyLine m) ++
        linesOfAll (pad ++ indent) children ++
        [pad ++ "\x7d;"]

def linesOfAll (pad : String) : List Class → List String
  | [] => []
  | c :: cs => lines pad c ++ linesOfAll pad cs

end

end Class

def Tree.text (t : Tree) : String := Text.unlines (Class.linesOfAll "" t.root.children)

def Entry.text : Entry → String
  | .value v => v.written ++ "\n"
  | .group c => Text.unlines (c.lines "")

end Overlay
