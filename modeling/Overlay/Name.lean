namespace Overlay

/-- The lower-case form by which names are compared. -/
def nameKey (name : String) : String := name.map Char.toLower

class Named (α : Type) where
  name : α → String

def keyOf {α : Type} [Named α] (a : α) : String := nameKey (Named.name a)

namespace Roster

variable {α : Type} [Named α]

def find? (key : String) (members : List α) : Option α :=
  members.find? fun a => keyOf a = key

def change (key : String) (f : α → α) : List α → List α
  | [] => []
  | a :: as => if keyOf a = key then f a :: as else a :: change key f as

/-- Joins a newcomer to the first member of the same key; without one it goes to the end. -/
def absorb (join : α → α) (newcomer : α) : List α → List α
  | [] => [newcomer]
  | a :: as =>
    if keyOf a = keyOf newcomer then join a :: as else a :: absorb join newcomer as

def keys (members : List α) : List String := members.map keyOf

end Roster

end Overlay
