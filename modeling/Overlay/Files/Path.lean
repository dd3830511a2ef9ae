import Overlay.Text.Split

namespace Overlay

inductive Component where
  | root
  | current
  | parent
  | name (s : String)
  deriving DecidableEq, Repr

namespace Component

def rank : Component → Nat
  | root => 0
  | current => 1
  | parent => 2
  | name _ => 3

def compare : Component → Component → Ordering
  | name a, name b => Ord.compare a b
  | a, b => Ord.compare a.rank b.rank

end Component

namespace Path

def segments (path : String) : List String := (Text.splitOn '/' path.toList).map String.ofList

def inner? (segment : String) : Option Component :=
  if segment = "" ∨ segment = "." then none
  else if segment = ".." then some .parent
  else some (.name segment)

def components (path : String) : List Component :=
  match segments path with
  | [] => []
  | first :: rest =>
    -- the first part tells a path from the root, and keeps its dot
    let start := if first = "." then [.current]
      else if first = "" ∧ rest ≠ [] then [.root]
      else (inner? first).toList
    start ++ rest.filterMap inner?

/-- Component by component; of two paths of which one continues the other, the longer is
greater. -/
def compareComponents : List Component → List Component → Ordering
  | [], [] => .eq
  | [], _ :: _ => .lt
  | _ :: _, [] => .gt
  | a :: as, b :: bs => (a.compare b).then (compareComponents as bs)

def compare (a b : String) : Ordering := compareComponents (components a) (components b)

def fileName (path : String) : String := (segments path).getLastD ""

def parent (path : String) : String :=
  let above := "/".intercalate (segments path).dropLast
  if above.isEmpty && path.startsWith "/" then "/" else above

def maxBytes : Nat := 4095

def maxNameBytes : Nat := 255

def isLong (path : String) : Bool := maxBytes < path.utf8ByteSize

def isLongName (name : String) : Bool := maxNameBytes < name.utf8ByteSize

def join (base path : String) : String :=
  if path.startsWith "/" || base.isEmpty then path
  else if base.endsWith "/" then base ++ path
  else base ++ "/" ++ path

/-- What follows the last point of a file's name. A point at the beginning does not count. -/
def extension? (fileName : String) : Option String :=
  match (Text.splitOn '.' fileName.toList).reverse with
  | _ :: [] => none
  -- the only point is the first character
  | _ :: [[]] => none
  | last :: _ :: _ => some (.ofList last)
  | [] => none

end Path

end Overlay
