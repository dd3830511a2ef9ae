import Overlay.Entries
import Overlay.Number.Shortest

namespace Overlay

inductive Json where
  | null
  | bool (value : Bool)
  | integer (n : Int)
  | float (d : Number.Double)
  | text (value : String)
  | array (items : List Json)
  | object (members : List (String × Json))

namespace Json

def ofMembers (members : List (String × Json)) : Json := .object (Entries.ofList members)

def controlEscape (c : Char) : List Char :=
  let ds := Nat.toDigits 16 c.toNat
  "\\u".toList ++ List.replicate (4 - ds.length) '0' ++ ds

def escaped (c : Char) : List Char :=
  if c = '"' then ['\\', '"']
  else if c = '\\' then ['\\', '\\']
  else if c = '\x08' then ['\\', 'b']
  else if c = '\x0c' then ['\\', 'f']
  else if c = '\n' then ['\\', 'n']
  else if c = '\r' then ['\\', 'r']
  else if c = '\t' then ['\\', 't']
  else if c.toNat < 0x20 then controlEscape c
  else [c]

def stringText (s : String) : String := "\"" ++ .ofList (s.toList.flatMap escaped) ++ "\""

def atomText : Json → String
  | null => "null"
  | bool true => "true"
  | bool false => "false"
  | integer n => toString n
  | float d => (d.text? .json).getD "null"
  | text value => stringText value
  | array _ => "[]"
  | object _ => "\x7b\x7d"

mutual

def compact : Json → String
  | array items => "[" ++ compactItems items ++ "]"
  | object members => "\x7b" ++ compactMembers members ++ "\x7d"
  | atom => atomText atom

def compactItems : List Json → String
  | [] => ""
  | [item] => compact item
  | item :: items => compact item ++ "," ++ compactItems items

def compactMembers : List (String × Json) → String
  | [] => ""
  | [(name, value)] => stringText name ++ ":" ++ compact value
  | (name, value) :: members =>
    stringText name ++ ":" ++ compact value ++ "," ++ compactMembers members

end

mutual

def pretty (pad : String) : Json → String
  | array (item :: items) =>
    "[\n" ++ prettyItems (pad ++ "  ") (item :: items) ++ pad ++ "]"
  | object (member :: members) =>
    "\x7b\n" ++ prettyMembers (pad ++ "  ") (member :: members) ++ pad ++ "\x7d"
  | atom => atomText atom

def prettyItems (pad : String) : List Json → String
  | [] => ""
  | [item] => pad ++ pretty pad item ++ "\n"
  | item :: items => pad ++ pretty pad item ++ ",\n" ++ prettyItems pad items

def prettyMembers (pad : String) : List (String × Json) → String
  | [] => ""
  | [(name, value)] => pad ++ stringText name ++ ": " ++ pretty pad value ++ "\n"
  | (name, value) :: members =>
    pad ++ stringText name ++ ": " ++ pretty pad value ++ ",\n" ++ prettyMembers pad members

end

end Json

end Overlay
