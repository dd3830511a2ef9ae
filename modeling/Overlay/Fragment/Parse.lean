import Overlay.Fragment.Statement
import Overlay.Fragment.Fold

namespace Overlay

open Text (Position)
open Attempt (bind_eq_ok pure_eq_ok)

namespace Fragment

structure OpenClass where
  name : String
  base : Option String
  properties : List Property
  children : List Declaration
  position : Position
  brace : Position
  deriving Repr

def OpenClass.declaration (o : OpenClass) : Declaration :=
  .body o.name o.base o.properties o.children o.position

/-- What has been read: the open classes, innermost first, and the finished outermost ones. -/
structure Draft where
  pending : List OpenClass
  forest : Forest
  deriving Repr

namespace Draft

def empty : Draft := ⟨[], []⟩

def declare (draft : Draft) (d : Declaration) : Draft :=
  match draft.pending with
  | [] => { draft with forest := Declaration.fold draft.forest d }
  | o :: os => { draft with pending := { o with children := Declaration.fold o.children d } :: os }

/-- Starts a class at the given place; an announced class is complete at once. -/
def start (draft : Draft) (position : Position) : Head → Draft
  | .forward name => draft.declare (.forward name position)
  | .opening name base brace =>
    { draft with pending := ⟨name, base, [], [], position, brace⟩ :: draft.pending }

def statement (stop : Position) (draft : Draft) (l : Lexeme) (ls : List Lexeme) :
    Except ParseError (Draft × List Lexeme) :=
  match l.token with
  | .word word =>
    if word = classKeyword then do
      let (head, ls) ← readHead stop ls
      return (draft.start l.position head, ls)
    else
      match draft.pending with
      | [] => .error (unexpected stop .classKeyword (l :: ls))
      | o :: os => do
        let (p, ls) ← readProperty stop word l.position ls
        return ({ draft with
          pending := { o with properties := Property.fold o.properties p } :: os }, ls)
  | .closeBrace =>
    match draft.pending with
    | [] => .error ⟨l.position, .unmatchedBrace⟩
    | o :: os => do
      let ls ← readClassEnd stop ls
      return ({ draft with pending := os }.declare o.declaration, ls)
  | _ =>
    match draft.pending with
    | [] => .error (unexpected stop .classKeyword (l :: ls))
    | _ :: _ => .error (unexpected stop .member (l :: ls))

def finish (draft : Draft) : Except ParseError Forest :=
  match draft.pending with
  | [] => .ok draft.forest
  | o :: _ => .error ⟨o.brace, .unclosedBrace⟩

/-- A statement takes its first lexeme at least, which is why reading ends. -/
theorem length_of_statement {stop : Position} {draft next : Draft} {l : Lexeme}
    {ls rest : List Lexeme} (h : statement stop draft l ls = .ok (next, rest)) :
    rest.length ≤ ls.length := by
  unfold statement at h
  split at h
  · split at h
    · obtain ⟨⟨head, ls₁⟩, h₁, h⟩ := bind_eq_ok.1 h
      obtain ⟨-, rfl⟩ := Prod.mk.inj (pure_eq_ok.1 h)
      exact length_of_readHead h₁
    · split at h
      · simp at h
      · obtain ⟨⟨p, ls₁⟩, h₁, h⟩ := bind_eq_ok.1 h
        obtain ⟨-, rfl⟩ := Prod.mk.inj (pure_eq_ok.1 h)
        exact length_of_readProperty h₁
  · split at h
    · simp at h
    · obtain ⟨ls₁, h₁, h⟩ := bind_eq_ok.1 h
      obtain ⟨-, rfl⟩ := Prod.mk.inj (pure_eq_ok.1 h)
      exact length_of_readClassEnd h₁
  · split at h <;> simp at h

def read (stop : Position) (draft : Draft) (ls : List Lexeme) : Except ParseError Forest :=
  match ls with
  | [] => draft.finish
  | l :: ls =>
    match _h : statement stop draft l ls with
    | .error e => .error e
    | .ok (next, rest) => read stop next rest
termination_by ls.length
decreasing_by
  have := length_of_statement _h
  simp only [List.length_cons]
  omega

end Draft

def parse (text : String) : Except ParseError Forest := do
  let ls ← lex text
  Draft.read ls.stop .empty ls.list

end Fragment

end Overlay
