import Overlay.Fragment
/-!
The merged tree: classes with properties and child classes, each level in the order in which its
members came up. A place in the tree is a path of keys from the root.
-/

namespace Overlay

structure Member where
  name : String
  value : Value
  deriving DecidableEq, Repr

instance : Named Member := ⟨Member.name⟩

/-- A merged class. The base is the name that the class was last declared to build on. -/
structure Class where
  name : String
  base : Option String
  properties : List Member
  children : List Class
  deriving Repr

instance : Named Class := ⟨Class.name⟩

namespace Class

mutual

def decEq : (a b : Class) → Decidable (a = b)
  | ⟨name₁, base₁, properties₁, children₁⟩, ⟨name₂, base₂, properties₂, children₂⟩ =>
    have := decEqAll children₁ children₂
    decidable_of_iff
      (name₁ = name₂ ∧ base₁ = base₂ ∧ properties₁ = properties₂ ∧ children₁ = children₂)
      (by simp)

def decEqAll : (as bs : List Class) → Decidable (as = bs)
  | [], [] => isTrue rfl
  | [], _ :: _ => isFalse (by simp)
  | _ :: _, [] => isFalse (by simp)
  | a :: as, b :: bs =>
    have := decEq a b
    have := decEqAll as bs
    decidable_of_iff (a = b ∧ as = bs) (by simp)

end

instance : DecidableEq Class := decEq

def empty (name : String) : Class := ⟨name, none, [], []⟩

def isEmpty (c : Class) : Bool := c.properties.isEmpty && c.children.isEmpty

def child? (c : Class) (key : String) : Option Class := Roster.find? key c.children

def property? (c : Class) (key : String) : Option Member := Roster.find? key c.properties

def at? (c : Class) : List String → Option Class
  | [] => some c
  | key :: path => (c.child? key).bind fun d => d.at? path

def alter (f : Class → Class) : List String → Class → Class
  | [], c => f c
  | key :: path, c => { c with children := Roster.change key (alter f path) c.children }

def spell (c : Class) : List String → List String
  | [] => []
  | key :: path =>
    match c.child? key with
    | some d => d.name :: d.spell path
    | none => key :: c.spell path

end Class

/-- A merged tree: a nameless root whose children are the outermost classes. -/
structure Tree where
  root : Class
  deriving DecidableEq, Repr

namespace Tree

def empty : Tree := ⟨.empty ""⟩

def isEmpty (t : Tree) : Bool := t.root.isEmpty

def at? (t : Tree) (path : List String) : Option Class := t.root.at? path

def alter (t : Tree) (path : List String) (f : Class → Class) : Tree := ⟨t.root.alter f path⟩

end Tree

end Overlay
