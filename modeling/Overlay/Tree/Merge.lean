import Overlay.Attempt
import Overlay.Tree
/-!
Merging fragments into a tree. A class that is declared with a body and does not exist is created;
with a base it starts as a copy of what the base is at that moment. Properties replace what is
there, or extend it if they are marked so and both are arrays. An announced class changes nothing.
-/

namespace Overlay

structure UnknownBase where
  path : List String
  base : String
  deriving DecidableEq, Repr

structure MergeError where
  source : String
  fault : UnknownBase
  deriving DecidableEq, Repr

def MergeError.message (e : MergeError) : String :=
  let path := ".".intercalate e.fault.path
  s!"{e.source}: class '{path}' inherits from unknown class '{e.fault.base}'"

def Value.update (current : Value) (append : Bool) (declared : Value) : Value :=
  match append, current, declared with
  | true, .array items, .array more => .array (items ++ more)
  | _, _, _ => declared

def Member.update (m : Member) (p : Property) : Member :=
  { m with value := m.value.update p.append p.value }

namespace Class

def assign (c : Class) (p : Property) : Class :=
  { c with properties := Roster.absorb (fun m => m.update p) ⟨p.name, p.value⟩ c.properties }

/-- Takes over the head of a body: the base, if it names one, and its properties. -/
def takeOver (c : Class) (base : Option String) (properties : List Property) : Class :=
  properties.foldl assign { c with base := base <|> c.base }

def seeded (name : String) : Option Class → Class
  | none => empty name
  | some seed => ⟨name, none, seed.properties, seed.children⟩

/-- Takes over the head of a body among the children: in the child of that name if there is one,
else in a new child. -/
def admitBody (level : Class) (name : String) (base : Option String) (seed : Option Class)
    (properties : List Property) : Class :=
  { level with
    children := Roster.absorb (fun c => c.takeOver base properties)
      ((seeded name seed).takeOver base properties) level.children }

end Class

namespace Tree

def levels (scope : List String) : List (List String) :=
  (List.range (scope.length + 1)).reverse.map scope.take

/-- The class that a base names, seen from a scope: the innermost one of that key, but at the
scope itself not the class that is being declared. -/
def base? (t : Tree) (scope : List String) (self base : String) : Option Class :=
  (levels scope).findSome? fun path =>
    -- a class is not its own base, but may bear the name of one further out
    if path = scope ∧ base = self then none else (t.at? path).bind fun level => level.child? base

def seed (t : Tree) (scope : List String) (name : String) :
    Option String → Except UnknownBase (Option Class)
  | none => .ok none
  | some base =>
    match t.base? scope (nameKey name) (nameKey base) with
    | some c => .ok (some c)
    | none => .error ⟨t.root.spell scope ++ [name], base⟩

def enter (t : Tree) (scope : List String) (name : String) (base : Option String)
    (properties : List Property) : Except UnknownBase Tree := do
  let seed ← t.seed scope name base
  return t.alter scope fun level => level.admitBody name base seed properties

mutual

def declare (t : Tree) (scope : List String) : Declaration → Except UnknownBase Tree
  | .forward _ _ => .ok t
  | .body name base properties children _ =>
    t.enter scope name base properties >>= fun t => declareAll t (scope ++ [nameKey name]) children

def declareAll (t : Tree) (scope : List String) : List Declaration → Except UnknownBase Tree
  | [] => .ok t
  | d :: ds => declare t scope d >>= fun t => declareAll t scope ds

end

def apply (t : Tree) (source : String) (forest : Forest) : Except MergeError Tree :=
  (t.declareAll [] forest).mapError fun fault => ⟨source, fault⟩

def applyAll (t : Tree) : List (String × Forest) → Except MergeError Tree
  | [] => .ok t
  | (source, forest) :: rest => t.apply source forest >>= fun t => t.applyAll rest

def merge (fragments : List (String × Forest)) : Except MergeError Tree := empty.applyAll fragments

end Tree

end Overlay
