namespace Overlay.Text

inductive Colour where
  | red
  | green
  | yellow
  | dim
  deriving DecidableEq, Repr

namespace Colour

def parameter : Colour → String
  | red => "31"
  | green => "32"
  | yellow => "33"
  | dim => "2"

def paint (colour : Colour) (text : String) : String :=
  s!"\x1b[{colour.parameter}m{text}\x1b[0m"

def isParameter (c : Char) : Bool := c.isDigit || c == ';'

def afterCode? (cs : List Char) : Option (List Char) :=
  match cs.dropWhile isParameter with
  | 'm' :: rest => some rest
  | _ => none

/-- A code takes at least one character, so looking for codes ends. -/
theorem length_of_afterCode? {cs rest : List Char} (h : afterCode? cs = some rest) :
    rest.length < cs.length := by
  have hd := (List.dropWhile_suffix isParameter (l := cs)).length_le
  unfold afterCode? at h
  split at h
  · next heq =>
    rw [heq, List.length_cons] at hd
    cases h
    omega
  · cases h

/-- Takes out every code. What comes together where one was is not looked at again. -/
def strip : List Char → List Char
  | [] => []
  | '\x1b' :: '[' :: cs =>
    match h : afterCode? cs with
    | some rest =>
      have := length_of_afterCode? h
      strip rest
    | none => '\x1b' :: '[' :: strip cs
  | c :: cs => c :: strip cs
termination_by cs => cs.length

def plain (text : String) : String := .ofList (strip text.toList)

end Colour

end Overlay.Text
