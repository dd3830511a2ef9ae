import Overlay.Text.Blank
import Overlay.Number.Literal
import Overlay.Fragment.ParseError
/-!
Cutting a text into tokens. A text is a sequence of pieces, each a token or something that may
stand between tokens; `Piece.read` finds the piece in front, and `lex` goes from piece to piece.
The place of a token is the place behind the characters in front of it.
-/

namespace Overlay

open Text (Position isBlank)
open Number (isWordChar readLiteral)

/-- A stretch of text: a token, or blanks and comments between tokens. -/
inductive Piece where
  | gap
  | token (t : Token)
  deriving DecidableEq, Repr

namespace Piece

def commentLength? : List Char → Option Nat
  | '*' :: '/' :: _ => some 2
  | _ :: cs => (commentLength? cs).map (· + 1)
  | [] => none

/-- The text behind an opening quote and the characters it takes, with the closing quote. Two
quotes stand for one; the text ends on its line. -/
def readText? : List Char → Option (List Char × Nat)
  | '"' :: '"' :: cs => (readText? cs).map fun (value, n) => ('"' :: value, n + 2)
  | '"' :: _ => some ([], 1)
  | c :: cs =>
    if c = '\n' then none else (readText? cs).map fun (value, n) => (c :: value, n + 1)
  | [] => none

def single? : Char → Option Token
  | '\x7b' => some .openBrace
  | '\x7d' => some .closeBrace
  | '[' => some .openBracket
  | ']' => some .closeBracket
  | ':' => some .colon
  | ';' => some .semicolon
  | ',' => some .comma
  | '=' => some .assign
  | _ => none

/-- A number starts with a digit, or with a sign or point before a digit or point. -/
def startsNumber (c : Char) (cs : List Char) : Bool :=
  c.isDigit || ((c == '-' || c == '+' || c == '.') && cs.head?.any fun d => d.isDigit || d == '.')

def startsWord (c : Char) : Bool := c.isAlpha || c == '_'

/-- The piece in front of `c :: cs`, and how many characters of `cs` belong to it. -/
def read (c : Char) (cs : List Char) : Except ParseError.Reason (Piece × Nat) :=
  if isBlank c then .ok (gap, 0)
  -- such a comment takes the end of its line along, if there is one
  else if c = '/' ∧ cs.head? = some '/' then
    .ok (gap, (cs.takeWhile (· ≠ '\n')).length + 1)
  else if c = '/' ∧ cs.head? = some '*' then
    match commentLength? (cs.drop 1) with
    | some n => .ok (gap, n + 1)
    | none => .error .unterminatedComment
  else if c = '+' ∧ cs.head? = some '=' then .ok (token .append, 1)
  else if c = '"' then
    match readText? cs with
    | some (value, n) => .ok (token (.text (.ofList value)), n)
    | none => .error .unterminatedString
  else if startsNumber c cs then
    match readLiteral (c :: cs) with
    -- `c` is the first character of the literal, the others are of `cs`
    | .ok literal => .ok (token (.number (.ofList literal)), literal.length - 1)
    | .error word => .error (.invalidNumber (.ofList word))
  else if startsWord c then
    let more := cs.takeWhile isWordChar
    .ok (token (.word (.ofList (c :: more))), more.length)
  else
    match single? c with
    | some t => .ok (token t, 0)
    | none => .error (.unexpectedCharacter c)

end Piece

def lexFrom (p : Position) : List Char → Except ParseError Lexemes
  | [] => .ok ⟨[], p⟩
  | c :: cs =>
    match Piece.read c cs with
    | .error reason => .error ⟨p, reason⟩
    | .ok (piece, n) =>
      match lexFrom (p.advance (c :: cs.take n)) (cs.drop n) with
      | .error e => .error e
      | .ok ⟨list, stop⟩ =>
        match piece with
        | .gap => .ok ⟨list, stop⟩
        | .token t => .ok ⟨⟨t, p⟩ :: list, stop⟩
termination_by cs => cs.length
decreasing_by simp only [List.length_drop, List.length_cons]; omega

def lex (text : String) : Except ParseError Lexemes := lexFrom .start text.toList

end Overlay
