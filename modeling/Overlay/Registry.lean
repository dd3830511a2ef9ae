import Overlay.Fragment.Error
import Overlay.Record
/-!
The registry: one record for each identity, in ascending order of the keys. Of two records that
claim an identity the one that comes earlier among the inputs holds it, whichever is put in first.
-/

namespace Overlay

structure Registry where
  records : List Record
  deriving DecidableEq, Repr

namespace Registry

def empty : Registry := ⟨[]⟩

def size (r : Registry) : Nat := r.records.length

def isEmpty (r : Registry) : Bool := r.records.isEmpty

def find? (r : Registry) (identity : String) : Option Record :=
  Roster.find? (nameKey identity) r.records

def duplicate (loser holder : Record) : FragmentError :=
  ⟨loser.source, loser.index, .duplicate loser.identity holder.source⟩

/-- Puts a record into its place among records in ascending order; the record that loses its
identity is reported. -/
def place (x : Record) : List Record → List Record × Option FragmentError
  | [] => ([x], none)
  | r :: rs =>
    if keyOf x < keyOf r then (x :: r :: rs, none)
    else if keyOf x = keyOf r then
      -- the holder gives way to an earlier input
      if x.index < r.index then (x :: rs, some (duplicate r x))
      else (r :: rs, some (duplicate x r))
    else
      let (rest, loser) := place x rs
      (r :: rest, loser)

def insert (r : Registry) (x : Record) : Registry × Option FragmentError :=
  let (records, loser) := place x r.records
  (⟨records⟩, loser)

def insertAll (r : Registry) : List Record → Registry × List FragmentError
  | [] => (r, [])
  | x :: xs =>
    let (next, loser) := r.insert x
    let (last, errors) := next.insertAll xs
    (last, loser.toList ++ errors)

end Registry

end Overlay
