import Overlay.Token.Lex
import Overlay.Fragment
import Overlay.Attempt

namespace Overlay

open Text (Position)
open Attempt (bind_eq_ok pure_eq_ok)

namespace Fragment

def classKeyword : String := "class"

def unexpected (stop : Position) (expected : Expected) : List Lexeme → ParseError
  | [] => ⟨stop, .unexpectedEnd expected⟩
  | l :: _ => ⟨l.position, .unexpectedToken l.token expected⟩

def expect (stop : Position) (t : Token) (expected : Expected) :
    List Lexeme → Except ParseError (List Lexeme)
  | [] => .error (unexpected stop expected [])
  | l :: ls => if l.token = t then .ok ls else .error (unexpected stop expected (l :: ls))

def readName (stop : Position) (expected : Expected) :
    List Lexeme → Except ParseError (String × List Lexeme)
  | ⟨.word name, p⟩ :: ls =>
    if name = classKeyword then .error (unexpected stop expected (⟨.word name, p⟩ :: ls))
    else .ok (name, ls)
  | ls => .error (unexpected stop expected ls)

def scalar? : Token → Option Scalar
  | .number literal => some (.number literal)
  | .text value => some (.text value)
  | .word name =>
    if name = flagText true then some (.flag true)
    else if name = flagText false then some (.flag false)
    else none
  | _ => none

def readScalar (stop : Position) : List Lexeme → Except ParseError (Scalar × List Lexeme)
  | [] => .error (unexpected stop .scalar [])
  | l :: ls =>
    match scalar? l.token with
    | some s => .ok (s, ls)
    | none => .error (unexpected stop .scalar (l :: ls))

def readItems (stop : Position) : List Lexeme → Except ParseError (List Scalar × List Lexeme)
  | [] => .error (unexpected stop .scalar [])
  | l :: ls =>
    if l.token = .closeBrace then .ok ([], ls)
    else
      match scalar? l.token with
      | none => .error (unexpected stop .scalar (l :: ls))
      | some s =>
        match ls with
        | [] => .error (unexpected stop .commaOrBrace [])
        | m :: ms =>
          -- behind a comma the array may end, too
          if m.token = .comma then
            match readItems stop ms with
            | .ok (items, rest) => .ok (s :: items, rest)
            | .error e => .error e
          else if m.token = .closeBrace then .ok ([s], ms)
          else .error (unexpected stop .commaOrBrace (m :: ms))

def readMarker (stop : Position) : List Lexeme → Except ParseError (Bool × List Lexeme)
  | ⟨.assign, _⟩ :: ls => .ok (false, ls)
  | ⟨.append, _⟩ :: ls => .ok (true, ls)
  | ls => .error (unexpected stop .marker ls)

def readArray (stop : Position) (name : String) :
    List Lexeme → Except ParseError (List Scalar × List Lexeme)
  | ⟨.assign, p⟩ :: _ => .error ⟨p, .repeatedMarker name⟩
  | ⟨.append, p⟩ :: _ => .error ⟨p, .repeatedMarker name⟩
  | ls => do readItems stop (← expect stop .openBrace .openBrace ls)

def readProperty (stop : Position) (name : String) (position : Position) :
    List Lexeme → Except ParseError (Property × List Lexeme)
  | ⟨.openBracket, _⟩ :: ls => do
    let ls ← expect stop .closeBracket .closeBracket ls
    let (append, ls) ← readMarker stop ls
    let (items, ls) ← readArray stop name ls
    let ls ← expect stop .semicolon .semicolon ls
    return (⟨name, .array items, append, position⟩, ls)
  | ⟨.assign, _⟩ :: ls => do
    let (s, ls) ← readScalar stop ls
    let ls ← expect stop .semicolon .semicolon ls
    return (⟨name, .scalar s, false, position⟩, ls)
  | ⟨.append, p⟩ :: _ => .error ⟨p, .appendOnScalar name⟩
  | ls => .error (unexpected stop .markerOrBrackets ls)

inductive Head where
  | forward (name : String)
  | opening (name : String) (base : Option String) (brace : Position)
  deriving DecidableEq, Repr

def readBrace (stop : Position) : List Lexeme → Except ParseError (Position × List Lexeme)
  | ⟨.openBrace, p⟩ :: ls => .ok (p, ls)
  | ls => .error (unexpected stop .braceOrSemicolon ls)

def readHeadEnd (stop : Position) (name : String) :
    List Lexeme → Except ParseError (Head × List Lexeme)
  | ⟨.semicolon, _⟩ :: ls => .ok (.forward name, ls)
  | ⟨.colon, _⟩ :: ls => do
    let (base, ls) ← readName stop .baseName ls
    let (brace, ls) ← readBrace stop ls
    return (.opening name (some base) brace, ls)
  | ls => do
    let (brace, ls) ← readBrace stop ls
    return (.opening name none brace, ls)

def readHead (stop : Position) (ls : List Lexeme) : Except ParseError (Head × List Lexeme) := do
  let (name, ls) ← readName stop .className ls
  readHeadEnd stop name ls

def readClassEnd (stop : Position) : List Lexeme → Except ParseError (List Lexeme)
  | [] => .ok []
  | ⟨.semicolon, _⟩ :: ls => .ok ls
  | ls => .error (unexpected stop .classEnd ls)

/-- No reader hands back more lexemes than it was given. -/
theorem length_of_expect {stop : Position} {t : Token} {e : Expected} {ls rest : List Lexeme}
    (h : expect stop t e ls = .ok rest) : rest.length ≤ ls.length := by
  cases ls with
  | nil => simp [expect] at h
  | cons l ls =>
    by_cases ht : l.token = t
    · simp [expect, ht] at h
      simp [← h]
    · simp [expect, ht] at h

theorem length_of_readName {stop : Position} {e : Expected} {ls rest : List Lexeme}
    {name : String} (h : readName stop e ls = .ok (name, rest)) : rest.length ≤ ls.length := by
  unfold readName at h
  split at h
  · split at h
    · simp at h
    · simp only [Except.ok.injEq, Prod.mk.injEq] at h
      simp [← h.2]
  · simp at h

theorem length_of_readScalar {stop : Position} {ls rest : List Lexeme} {s : Scalar}
    (h : readScalar stop ls = .ok (s, rest)) : rest.length ≤ ls.length := by
  unfold readScalar at h
  split at h
  · simp at h
  · split at h
    · simp only [Except.ok.injEq, Prod.mk.injEq] at h
      simp [← h.2]
    · simp at h

/-- Also an array, which is read element by element, only takes lexemes from the front. -/
theorem length_of_readItems {stop : Position} {ls rest : List Lexeme} {items : List Scalar}
    (h : readItems stop ls = .ok (items, rest)) : rest.length ≤ ls.length := by
  fun_induction readItems stop ls generalizing items rest with
  | case1 => simp at h
  | case2 l ls hl =>
    simp only [Except.ok.injEq, Prod.mk.injEq] at h
    simp [← h.2]
  | case3 => simp at h
  | case4 => simp at h
  | case5 l hl s hs m ms hm items' rest' hr ih =>
    simp only [Except.ok.injEq, Prod.mk.injEq] at h
    have := ih hr
    simp only [List.length_cons, ← h.2]
    omega
  | case6 => simp at h
  | case7 l hl s hs m ms _ hm =>
    simp only [Except.ok.injEq, Prod.mk.injEq] at h
    simp only [List.length_cons, ← h.2]
    omega
  | case8 => simp at h

theorem length_of_readMarker {stop : Position} {ls rest : List Lexeme} {append : Bool}
    (h : readMarker stop ls = .ok (append, rest)) : rest.length ≤ ls.length := by
  unfold readMarker at h
  split at h <;> simp_all

theorem length_of_readArray {stop : Position} {name : String} {ls rest : List Lexeme}
    {items : List Scalar} (h : readArray stop name ls = .ok (items, rest)) :
    rest.length ≤ ls.length := by
  unfold readArray at h
  split at h
  · simp at h
  · simp at h
  · obtain ⟨mid, hm, hr⟩ := bind_eq_ok.1 h
    exact Nat.le_trans (length_of_readItems hr) (length_of_expect hm)

theorem length_of_readProperty {stop position : Position} {name : String}
    {ls rest : List Lexeme} {p : Property}
    (h : readProperty stop name position ls = .ok (p, rest)) : rest.length ≤ ls.length := by
  unfold readProperty at h
  split at h
  · obtain ⟨ls₁, h₁, h⟩ := bind_eq_ok.1 h
    obtain ⟨⟨append, ls₂⟩, h₂, h⟩ := bind_eq_ok.1 h
    obtain ⟨⟨items, ls₃⟩, h₃, h⟩ := bind_eq_ok.1 h
    obtain ⟨ls₄, h₄, h⟩ := bind_eq_ok.1 h
    obtain ⟨-, rfl⟩ := Prod.mk.inj (pure_eq_ok.1 h)
    -- no part leaves more than it was given
    have := length_of_expect h₁
    have := length_of_readMarker h₂
    have := length_of_readArray h₃
    have := length_of_expect h₄
    simp only [List.length_cons]
    omega
  · obtain ⟨⟨s, ls₁⟩, h₁, h⟩ := bind_eq_ok.1 h
    obtain ⟨ls₂, h₂, h⟩ := bind_eq_ok.1 h
    obtain ⟨-, rfl⟩ := Prod.mk.inj (pure_eq_ok.1 h)
    have := length_of_readScalar h₁
    have := length_of_expect h₂
    simp only [List.length_cons]
    omega
  · simp at h
  · simp at h

theorem length_of_readBrace {stop : Position} {ls rest : List Lexeme} {p : Position}
    (h : readBrace stop ls = .ok (p, rest)) : rest.length ≤ ls.length := by
  unfold readBrace at h
  split at h <;> simp_all

theorem length_of_readHead {stop : Position} {ls rest : List Lexeme} {head : Head}
    (h : readHead stop ls = .ok (head, rest)) : rest.length ≤ ls.length := by
  obtain ⟨⟨name, ls₁⟩, h₁, h⟩ := bind_eq_ok.1 h
  refine Nat.le_trans ?_ (length_of_readName h₁)
  simp only at h
  unfold readHeadEnd at h
  split at h
  · simp only [Except.ok.injEq, Prod.mk.injEq] at h
    simp [← h.2]
  · obtain ⟨⟨base, ls₂⟩, h₂, h⟩ := bind_eq_ok.1 h
    obtain ⟨⟨brace, ls₃⟩, h₃, h⟩ := bind_eq_ok.1 h
    obtain ⟨-, rfl⟩ := Prod.mk.inj (pure_eq_ok.1 h)
    have := length_of_readName h₂
    have := length_of_readBrace h₃
    simp only [List.length_cons]
    omega
  · obtain ⟨⟨brace, ls₂⟩, h₂, h⟩ := bind_eq_ok.1 h
    obtain ⟨-, rfl⟩ := Prod.mk.inj (pure_eq_ok.1 h)
    exact length_of_readBrace h₂

theorem length_of_readClassEnd {stop : Position} {ls rest : List Lexeme}
    (h : readClassEnd stop ls = .ok rest) : rest.length ≤ ls.length := by
  unfold readClassEnd at h
  split at h <;> simp_all

end Fragment

end Overlay
