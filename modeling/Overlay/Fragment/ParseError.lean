import Overlay.Token

namespace Overlay

open Text (Position)

inductive Expected where
  | className
  | baseName
  | braceOrSemicolon
  | classEnd
  | member
  | closeBracket
  | marker
  | markerOrBrackets
  | openBrace
  | commaOrBrace
  | scalar
  | semicolon
  | classKeyword
  deriving DecidableEq, Repr

def Expected.description : Expected → String
  | className => "class name"
  | baseName => "base class name"
  | braceOrSemicolon => "'\x7b' or ';'"
  | classEnd => "';' after class body"
  | member => "property or 'class'"
  | closeBracket => "']'"
  | marker => "'=' or '+='"
  | markerOrBrackets => "'=' or '[]'"
  | openBrace => "'\x7b'"
  | commaOrBrace => "',' or '\x7d'"
  | scalar => "number, string or boolean"
  | semicolon => "';'"
  | classKeyword => "'class'"

inductive ParseError.Reason where
  | unexpectedToken (found : Token) (expected : Expected)
  | unexpectedEnd (expected : Expected)
  | unexpectedCharacter (c : Char)
  | unterminatedString
  | unterminatedComment
  | unmatchedBrace
  | unclosedBrace
  | invalidNumber (literal : String)
  | appendOnScalar (property : String)
  | repeatedMarker (property : String)
  deriving DecidableEq, Repr

def ParseError.Reason.message : ParseError.Reason → String
  | unexpectedToken found expected =>
    s!"unexpected {found.description}, expected {expected.description}"
  | unexpectedEnd expected => s!"unexpected {endDescription}, expected {expected.description}"
  | unexpectedCharacter c => s!"unexpected character '{c}'"
  | unterminatedString => "unterminated string literal"
  | unterminatedComment => "unterminated block comment"
  | unmatchedBrace => "unbalanced braces: '\x7d' without matching '\x7b'"
  | unclosedBrace => "unbalanced braces: '\x7b' is never closed"
  | invalidNumber literal => s!"invalid number literal '{literal}'"
  | appendOnScalar property => s!"append marker '+=' used on non-array property '{property}'"
  | repeatedMarker property => s!"repeated assignment marker on array property '{property}'"

structure ParseError where
  position : Position
  reason : ParseError.Reason
  deriving DecidableEq, Repr

def ParseError.message (e : ParseError) : String :=
  s!"{e.reason.message} at {e.position.text}"

end Overlay
