import Overlay.Text.Position

namespace Overlay

open Text (Position)

/-- A token. Words are identifiers and keywords; numbers stand as written; texts are string
literals without their quotes. -/
inductive Token where
  | word (name : String)
  | number (literal : String)
  | text (value : String)
  | openBrace
  | closeBrace
  | openBracket
  | closeBracket
  | colon
  | semicolon
  | comma
  | assign
  | append
  deriving DecidableEq, Repr

def quoted (value : String) : String :=
  "\"" ++ .ofList (value.toList.flatMap fun c => if c = '"' then ['"', '"'] else [c]) ++ "\""

namespace Token

def written : Token → String
  | word name => name
  | number literal => literal
  | text value => quoted value
  | openBrace => "\x7b"
  | closeBrace => "\x7d"
  | openBracket => "["
  | closeBracket => "]"
  | colon => ":"
  | semicolon => ";"
  | comma => ","
  | assign => "="
  | append => "+="

def description : Token → String
  | word name => s!"identifier '{name}'"
  | number literal => s!"number '{literal}'"
  | text _ => "string literal"
  | t => s!"'{t.written}'"

end Token

def endDescription : String := "end of input"

structure Lexeme where
  token : Token
  position : Position
  deriving DecidableEq, Repr

structure Lexemes where
  list : List Lexeme
  stop : Position
  deriving DecidableEq, Repr

end Overlay
