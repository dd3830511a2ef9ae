import Overlay.Number.Integer

namespace Overlay

structure Version where
  major : Nat
  minor : Nat
  patch : Nat
  pre : List String
  build : List String
  deriving DecidableEq, Repr

namespace Version

def dotted (segments : List String) : String := ".".intercalate segments

def text (v : Version) : String :=
  s!"{v.major}.{v.minor}.{v.patch}" ++
    (if v.pre.isEmpty then "" else "-" ++ dotted v.pre) ++
    (if v.build.isEmpty then "" else "+" ++ dotted v.build)

def isNumeric (segment : String) : Bool := segment.toList.all Char.isDigit

/-- Numbers come before words; numbers compare by value, with leading zeros as a last resort. -/
def compareSegment (a b : String) : Ordering :=
  match isNumeric a, isNumeric b with
  | true, true =>
    (compare (Number.ofDigits 10 a.toList) (Number.ofDigits 10 b.toList)).then
      (compare a.length b.length)
  | true, false => .lt
  | false, true => .gt
  | false, false => compare a b

def compareSegments : List String → List String → Ordering
  | [], [] => .eq
  | [], _ :: _ => .lt
  | _ :: _, [] => .gt
  | a :: as, b :: bs => (compareSegment a b).then (compareSegments as bs)

/-- A release comes after all its pre-releases. -/
def comparePre : List String → List String → Ordering
  | [], [] => .eq
  | [], _ :: _ => .gt
  | _ :: _, [] => .lt
  | a :: as, b :: bs => compareSegments (a :: as) (b :: bs)

instance : Ord Version where
  compare a b :=
    (compare a.major b.major).then <| (compare a.minor b.minor).then <|
      (compare a.patch b.patch).then <| (comparePre a.pre b.pre).then <|
        compareSegments a.build b.build

end Version

end Overlay
