import Overlay.Tree.Merge
/-!
Merging fragments as far as they go. The bodies of a fragment are entered one after the other, outer
ones first. The first that names an unknown base ends the fragment, and the tree stays as the bodies
in front of it have left it; the next fragment goes on from there.
-/

namespace Overlay

structure Heading where
  scope : List String
  name : String
  base : Option String
  properties : List Property
  deriving DecidableEq, Repr

namespace Declaration

mutual

def headings (scope : List String) : Declaration → List Heading
  | .forward _ _ => []
  | .body name base properties children _ =>
    ⟨scope, name, base, properties⟩ :: headingsOfAll (scope ++ [nameKey name]) children

def headingsOfAll (scope : List String) : List Declaration → List Heading
  | [] => []
  | d :: ds => headings scope d ++ headingsOfAll scope ds

end

end Declaration

/-- How far merging has come, with the fault that ended it, if there was one. -/
structure Advance where
  tree : Tree
  fault : Option UnknownBase
  deriving DecidableEq, Repr

def Advance.result (a : Advance) : Except UnknownBase Tree :=
  match a.fault with
  | none => .ok a.tree
  | some fault => .error fault

namespace Tree

/-- Enters bodies one after the other, up to the first that names an unknown base. -/
def advance (t : Tree) : List Heading → Advance
  | [] => ⟨t, none⟩
  | h :: hs =>
    match t.enter h.scope h.name h.base h.properties with
    | .ok next => next.advance hs
    | .error fault => ⟨t, some fault⟩

def attempt (t : Tree) (forest : Forest) : Advance :=
  t.advance (Declaration.headingsOfAll [] forest)

def attemptAll (t : Tree) : List Forest → Tree
  | [] => t
  | forest :: rest => (t.attempt forest).tree.attemptAll rest

/-- Bodies in a row are entered in a row, and a fault in the first ones ends all. -/
theorem result_advance_append (t : Tree) (hs more : List Heading) :
    (t.advance (hs ++ more)).result =
      (t.advance hs).result >>= fun next => (next.advance more).result := by
  induction hs generalizing t with
  | nil => rfl
  | cons h hs ih =>
    rw [List.cons_append, advance, advance]
    cases t.enter h.scope h.name h.base h.properties with
    | error fault => rfl
    | ok next => exact ih next

mutual

/-- To merge a declaration is to enter its bodies. -/
theorem result_advance_headings (t : Tree) (scope : List String) :
    (d : Declaration) → (t.advance (d.headings scope)).result = t.declare scope d
  | .forward _ _ => by
    rw [Declaration.headings, declare]
    rfl
  | .body name base properties children _ => by
    rw [Declaration.headings, declare, advance]
    dsimp only
    cases t.enter scope name base properties with
    | error fault => rfl
    | ok next => exact result_advance_headingsOfAll next (scope ++ [nameKey name]) children

/-- To enter the bodies of declarations is to merge the declarations. -/
theorem result_advance_headingsOfAll (t : Tree) (scope : List String) :
    (ds : List Declaration) →
      (t.advance (Declaration.headingsOfAll scope ds)).result = t.declareAll scope ds
  | [] => by
    rw [Declaration.headingsOfAll, declareAll]
    rfl
  | d :: ds => by
    rw [Declaration.headingsOfAll, declareAll, result_advance_append,
      result_advance_headings t scope d]
    exact congrArg _ (funext fun next => result_advance_headingsOfAll next scope ds)

end

/-- Merging a fragment succeeds with the tree to which it can be merged to its end. -/
theorem apply_eq_attempt (t : Tree) (source : String) (forest : Forest) :
    t.apply source forest = (t.attempt forest).result.mapError fun fault => ⟨source, fault⟩ := by
  rw [apply, attempt, result_advance_headingsOfAll]

end Tree

end Overlay
