namespace Overlay.Text

/-- The parts between the separators; there is always one more part than separators. -/
def splitOn (separator : Char) : List Char → List (List Char)
  | [] => [[]]
  | c :: cs =>
    if c = separator then [] :: splitOn separator cs
    else
      match splitOn separator cs with
      | part :: parts => (c :: part) :: parts
      | [] => [[c]]

def joinWith (separator : Char) : List (List Char) → List Char
  | [] => []
  | [part] => part
  | part :: parts => part ++ separator :: joinWith separator parts

theorem splitOn_ne_nil (separator : Char) (cs : List Char) : splitOn separator cs ≠ [] := by
  cases cs with
  | nil => simp [splitOn]
  | cons c cs =>
    simp only [splitOn]
    split
    · simp
    · split <;> simp

theorem joinWith_splitOn (separator : Char) (cs : List Char) :
    joinWith separator (splitOn separator cs) = cs := by
  induction cs with
  | nil => rfl
  | cons c cs ih =>
    simp only [splitOn]
    split
    · next h =>
      cases hs : splitOn separator cs with
      | nil => exact absurd hs (splitOn_ne_nil separator cs)
      | cons part parts => simp [joinWith, ← hs, ih, h]
    · cases hs : splitOn separator cs with
      | nil => exact absurd hs (splitOn_ne_nil separator cs)
      | cons part parts =>
        rw [hs] at ih
        cases parts with
        | nil => simpa [joinWith] using ih
        | cons p ps => simpa [joinWith] using ih

end Overlay.Text
