import Overlay.Fragment.Statement
import Mathlib.Tactic.Common

namespace Overlay.Fragment
open Attempt (bind_eq_ok pure_eq_ok)
open Text (Position)

def tokensOf (ls : List Lexeme) : List Token := ls.map Lexeme.token

/-- Tokens can stand anywhere. -/
theorem tokensOf_map (p : Position) (ts : List Token) :
    tokensOf (ts.map fun t => ⟨t, p⟩) = ts := by
  rw [tokensOf, List.map_map]
  exact List.map_id ts

/-- The elements of an array and its closing brace, with a comma behind the last one or without. -/
inductive Items : List Token → List Scalar → Prop
  | close : Items [.closeBrace] []
  | last {t : Token} {s : Scalar} (hs : scalar? t = some s) : Items [t, .closeBrace] [s]
  | more {t : Token} {s : Scalar} {ts : List Token} {items : List Scalar}
      (hs : scalar? t = some s) (hi : Items ts items) : Items (t :: .comma :: ts) (s :: items)

def marker (append : Bool) : Token := if append then .append else .assign

inductive Assignment : List Token → Value → Bool → Prop
  | scalar {t : Token} {s : Scalar} (hs : scalar? t = some s) :
      Assignment [.assign, t, .semicolon] (.scalar s) false
  | array {ts : List Token} {items : List Scalar} {append : Bool} (hi : Items ts items) :
      Assignment (.openBracket :: .closeBracket :: marker append :: .openBrace ::
        (ts ++ [.semicolon])) (.array items) append

inductive Heads : List Lexeme → Head → Prop
  | forward {name : String} {p q : Position} (hn : name ≠ classKeyword) :
      Heads [⟨.word name, p⟩, ⟨.semicolon, q⟩] (.forward name)
  | plain {name : String} {p q : Position} (hn : name ≠ classKeyword) :
      Heads [⟨.word name, p⟩, ⟨.openBrace, q⟩] (.opening name none q)
  | derived {name base : String} {p q r s : Position} (hn : name ≠ classKeyword)
      (hb : base ≠ classKeyword) :
      Heads [⟨.word name, p⟩, ⟨.colon, q⟩, ⟨.word base, r⟩, ⟨.openBrace, s⟩]
        (.opening name (some base) s)

variable {stop : Position} {ls rest : List Lexeme}

/-- The token that is expected stands in front, and nothing else is taken. -/
theorem expect_eq_ok {t : Token} {e : Expected} :
    expect stop t e ls = .ok rest ↔ ∃ p, ls = ⟨t, p⟩ :: rest := by
  cases ls with
  | nil => simp [expect]
  | cons l ls =>
    obtain ⟨token, p⟩ := l
    by_cases ht : token = t
    · simp [expect, ht]
    · simp [expect, ht]

theorem readName_eq_ok {e : Expected} {name : String} :
    readName stop e ls = .ok (name, rest) ↔
      name ≠ classKeyword ∧ ∃ p, ls = ⟨.word name, p⟩ :: rest := by
  rw [readName.eq_def]
  split
  · rename_i word p ls
    split_ifs with hw
    · simp only [false_iff, not_and, not_exists]
      rintro hn q he
      simp only [List.cons.injEq, Lexeme.mk.injEq, Token.word.injEq] at he
      exact hn (he.1.1 ▸ hw)
    · simp only [Except.ok.injEq, Prod.mk.injEq, List.cons.injEq, Lexeme.mk.injEq,
        Token.word.injEq]
      constructor
      · rintro ⟨rfl, rfl⟩
        exact ⟨hw, p, ⟨rfl, rfl⟩, rfl⟩
      · rintro ⟨_, q, ⟨rfl, _⟩, rfl⟩
        exact ⟨rfl, rfl⟩
  · rename_i hls
    simp only [reduceCtorEq, false_iff, not_and, not_exists]
    rintro _ p rfl
    exact hls _ _ _ rfl

theorem readScalar_eq_ok {s : Scalar} :
    readScalar stop ls = .ok (s, rest) ↔ ∃ l, scalar? l.token = some s ∧ ls = l :: rest := by
  cases ls with
  | nil => simp [readScalar]
  | cons l ls =>
    cases hs : scalar? l.token with
    | none => simp [readScalar, hs]
    | some s' => simp [readScalar, hs]

theorem readMarker_eq_ok {append : Bool} :
    readMarker stop ls = .ok (append, rest) ↔ ∃ p, ls = ⟨marker append, p⟩ :: rest := by
  rw [readMarker.eq_def]
  split
  · cases append <;> simp [marker]
  · cases append <;> simp [marker]
  · rename_i hassign happend
    simp only [reduceCtorEq, false_iff, not_exists]
    rintro p rfl
    cases append with
    | false => exact hassign _ _ rfl
    | true => exact happend _ _ rfl

theorem readBrace_eq_ok {p : Position} :
    readBrace stop ls = .ok (p, rest) ↔ ls = ⟨.openBrace, p⟩ :: rest := by
  rw [readBrace.eq_def]
  split
  · simp
  · rename_i hls
    simp only [reduceCtorEq, false_iff]
    rintro rfl
    exact hls _ _ rfl

/-- A class ends with a semicolon, or with the end of the text. -/
theorem readClassEnd_eq_ok : readClassEnd stop ls = .ok rest ↔
    (ls = [] ∧ rest = []) ∨ ∃ p, ls = ⟨.semicolon, p⟩ :: rest := by
  rw [readClassEnd.eq_def]
  split
  · constructor
    · rintro h
      exact Or.inl ⟨rfl, (Except.ok.inj h).symm⟩
    · rintro (⟨_, rfl⟩ | ⟨p, h⟩)
      · rfl
      · exact absurd h (List.cons_ne_nil _ _).symm
  · simp
  · rename_i hnil hls
    simp only [reduceCtorEq, false_iff, not_or, not_and, not_exists]
    refine ⟨fun h => absurd h hnil, ?_⟩
    rintro p rfl
    exact hls _ _ rfl

theorem scalar_ne_closeBrace {t : Token} {s : Scalar} (h : scalar? t = some s) :
    t ≠ .closeBrace := by
  rintro rfl
  simp [scalar?] at h

/-- The elements that are read stand in front, with their closing brace. -/
theorem items_of_readItems {items : List Scalar} (h : readItems stop ls = .ok (items, rest)) :
    ∃ front, Items (tokensOf front) items ∧ ls = front ++ rest := by
  fun_induction readItems stop ls generalizing items rest with
  | case1 => simp at h
  | case2 l ls hl =>
    simp only [Except.ok.injEq, Prod.mk.injEq] at h
    obtain ⟨rfl, rfl⟩ := h
    exact ⟨[l], by rw [tokensOf, List.map_singleton, hl]; exact .close, rfl⟩
  | case3 => simp at h
  | case4 => simp at h
  | case5 l hl s hs m ms hm more rest' hr ih =>
    simp only [Except.ok.injEq, Prod.mk.injEq] at h
    obtain ⟨rfl, rfl⟩ := h
    obtain ⟨front, hf, rfl⟩ := ih hr
    refine ⟨l :: m :: front, ?_, rfl⟩
    rw [tokensOf, List.map_cons, List.map_cons, hm]
    exact .more hs hf
  | case6 => simp at h
  | case7 l hl s hs m ms hcomma hm =>
    simp only [Except.ok.injEq, Prod.mk.injEq] at h
    obtain ⟨rfl, rfl⟩ := h
    refine ⟨[l, m], ?_, rfl⟩
    rw [tokensOf, List.map_cons, List.map_singleton, hm]
    exact .last hs
  | case8 => simp at h

/-- Conversely, elements in front are read, whatever is behind their brace. -/
theorem readItems_of_items {ts : List Token} {items : List Scalar} (h : Items ts items)
    {front : List Lexeme} (hf : tokensOf front = ts) :
    readItems stop (front ++ rest) = .ok (items, rest) := by
  induction h generalizing front with
  | close =>
    obtain ⟨l, rfl, hl⟩ := List.map_eq_singleton_iff.mp hf
    rw [List.singleton_append, readItems, if_pos hl]
  | @last t s hs =>
    obtain ⟨l, ms, rfl, hl, hms⟩ := List.map_eq_cons_iff.mp hf
    obtain ⟨m, rfl, hm⟩ := List.map_eq_singleton_iff.mp hms
    -- a scalar is no closing brace, so an element is read
    have hclose := scalar_ne_closeBrace hs
    rw [← hl] at hs hclose
    rw [List.cons_append, List.singleton_append, readItems, if_neg hclose]
    simp [hs, hm]
  | @more t s ts items hs _ ih =>
    obtain ⟨l, ms, rfl, hl, hms⟩ := List.map_eq_cons_iff.mp hf
    obtain ⟨m, more, rfl, hm, hmore⟩ := List.map_eq_cons_iff.mp hms
    have hclose := scalar_ne_closeBrace hs
    rw [← hl] at hs hclose
    rw [List.cons_append, List.cons_append, readItems, if_neg hclose]
    simp only [hs, hm, if_true, ih hmore]

theorem readArray_eq_ok {name : String} {items : List Scalar} :
    readArray stop name ls = .ok (items, rest) ↔ ∃ p front, Items (tokensOf front) items ∧
      ls = ⟨.openBrace, p⟩ :: (front ++ rest) := by
  rw [readArray.eq_def]
  split
  · simp
  · simp
  · rw [bind_eq_ok]
    constructor
    · rintro ⟨mid, he, hi⟩
      obtain ⟨p, rfl⟩ := expect_eq_ok.mp he
      obtain ⟨front, hf, rfl⟩ := items_of_readItems hi
      exact ⟨p, front, hf, rfl⟩
    · rintro ⟨p, front, hf, rfl⟩
      exact ⟨front ++ rest, expect_eq_ok.mpr ⟨p, rfl⟩, readItems_of_items hf rfl⟩

/-- What is read behind the name of a property stands in front. -/
theorem assignment_of_readProperty {name : String} {position : Position} {p : Property}
    (h : readProperty stop name position ls = .ok (p, rest)) :
    p.name = name ∧ ∃ front, Assignment (tokensOf front) p.value p.append ∧ ls = front ++ rest := by
  unfold readProperty at h
  -- brackets announce an array, the sign of assignment a scalar
  split at h
  · rename_i p₁ ls₀
    obtain ⟨ls₁, h₁, h⟩ := bind_eq_ok.mp h
    obtain ⟨⟨append, ls₂⟩, h₂, h⟩ := bind_eq_ok.mp h
    obtain ⟨⟨items, ls₃⟩, h₃, h⟩ := bind_eq_ok.mp h
    obtain ⟨ls₄, h₄, h⟩ := bind_eq_ok.mp h
    obtain ⟨rfl, rfl⟩ := Prod.mk.inj (pure_eq_ok.mp h)
    obtain ⟨p₂, rfl⟩ := expect_eq_ok.mp h₁
    obtain ⟨p₃, rfl⟩ := readMarker_eq_ok.mp h₂
    obtain ⟨p₄, front, hf, rfl⟩ := readArray_eq_ok.mp h₃
    obtain ⟨p₅, rfl⟩ := expect_eq_ok.mp h₄
    refine ⟨rfl, ⟨.openBracket, p₁⟩ :: ⟨.closeBracket, p₂⟩ :: ⟨marker append, p₃⟩ ::
      ⟨.openBrace, p₄⟩ :: (front ++ [⟨.semicolon, p₅⟩]), ?_, by simp⟩
    rw [tokensOf, List.map_cons, List.map_cons, List.map_cons, List.map_cons, List.map_append]
    exact .array hf
  · rename_i p₁ ls₀
    obtain ⟨⟨s, ls₁⟩, h₁, h⟩ := bind_eq_ok.mp h
    obtain ⟨ls₂, h₂, h⟩ := bind_eq_ok.mp h
    obtain ⟨rfl, rfl⟩ := Prod.mk.inj (pure_eq_ok.mp h)
    obtain ⟨l, hs, rfl⟩ := readScalar_eq_ok.mp h₁
    obtain ⟨p₂, rfl⟩ := expect_eq_ok.mp h₂
    exact ⟨rfl, [⟨.assign, p₁⟩, l, ⟨.semicolon, p₂⟩], .scalar hs, rfl⟩
  · simp at h
  · simp at h

/-- Conversely, what is assigned to a property is read, whatever is behind it. -/
theorem readProperty_of_assignment {ts : List Token} {value : Value} {append : Bool}
    (h : Assignment ts value append) {front : List Lexeme} (hf : tokensOf front = ts)
    (name : String) (position : Position) : readProperty stop name position (front ++ rest) =
      .ok (⟨name, value, append, position⟩, rest) := by
  cases h with
  | @scalar t s hs =>
    obtain ⟨⟨_, p₁⟩, ls₁, rfl, rfl, h₁⟩ := List.map_eq_cons_iff.mp hf
    obtain ⟨l, ls₂, rfl, rfl, h₂⟩ := List.map_eq_cons_iff.mp h₁
    obtain ⟨⟨_, p₂⟩, rfl, rfl⟩ := List.map_eq_singleton_iff.mp h₂
    have hexpect : expect stop .semicolon .semicolon (⟨.semicolon, p₂⟩ :: rest) = .ok rest :=
      expect_eq_ok.mpr ⟨p₂, rfl⟩
    have hread : readScalar stop (l :: ⟨.semicolon, p₂⟩ :: rest) =
        .ok (s, ⟨.semicolon, p₂⟩ :: rest) := readScalar_eq_ok.mpr ⟨l, hs, rfl⟩
    exact bind_eq_ok.mpr ⟨_, hread, bind_eq_ok.mpr ⟨_, hexpect, rfl⟩⟩
  | @array ts items append hi =>
    obtain ⟨⟨_, p₁⟩, ls₁, rfl, rfl, h₁⟩ := List.map_eq_cons_iff.mp hf
    obtain ⟨⟨_, p₂⟩, ls₂, rfl, rfl, h₂⟩ := List.map_eq_cons_iff.mp h₁
    obtain ⟨⟨_, p₃⟩, ls₃, rfl, rfl, h₃⟩ := List.map_eq_cons_iff.mp h₂
    obtain ⟨⟨_, p₄⟩, ls₄, rfl, rfl, h₄⟩ := List.map_eq_cons_iff.mp h₃
    obtain ⟨inner, ls₅, rfl, hinner, h₅⟩ := List.map_eq_append_iff.mp h₄
    obtain ⟨⟨_, p₅⟩, rfl, rfl⟩ := List.map_eq_singleton_iff.mp h₅
    -- from the end of the statement to its start, each reader leaves what the next one is given
    have hend : expect stop .semicolon .semicolon (⟨.semicolon, p₅⟩ :: rest) = .ok rest :=
      expect_eq_ok.mpr ⟨p₅, rfl⟩
    have harray : readArray stop name
        (⟨.openBrace, p₄⟩ :: (inner ++ ⟨.semicolon, p₅⟩ :: rest)) =
          .ok (items, ⟨.semicolon, p₅⟩ :: rest) :=
      readArray_eq_ok.mpr ⟨p₄, inner, by rw [tokensOf, hinner]; exact hi, rfl⟩
    have hmarker : readMarker stop (⟨marker append, p₃⟩ :: ⟨.openBrace, p₄⟩ ::
        (inner ++ ⟨.semicolon, p₅⟩ :: rest)) =
          .ok (append, ⟨.openBrace, p₄⟩ :: (inner ++ ⟨.semicolon, p₅⟩ :: rest)) :=
      readMarker_eq_ok.mpr ⟨p₃, rfl⟩
    have hbracket : expect stop .closeBracket .closeBracket (⟨.closeBracket, p₂⟩ ::
        ⟨marker append, p₃⟩ :: ⟨.openBrace, p₄⟩ :: (inner ++ ⟨.semicolon, p₅⟩ :: rest)) =
          .ok (⟨marker append, p₃⟩ :: ⟨.openBrace, p₄⟩ :: (inner ++ ⟨.semicolon, p₅⟩ :: rest)) :=
      expect_eq_ok.mpr ⟨p₂, rfl⟩
    have hall : readProperty stop name position (⟨.openBracket, p₁⟩ :: ⟨.closeBracket, p₂⟩ ::
        ⟨marker append, p₃⟩ :: ⟨.openBrace, p₄⟩ :: (inner ++ ⟨.semicolon, p₅⟩ :: rest)) =
          .ok (⟨name, .array items, append, position⟩, rest) :=
      bind_eq_ok.mpr ⟨_, hbracket, bind_eq_ok.mpr ⟨_, hmarker, bind_eq_ok.mpr ⟨_, harray,
        bind_eq_ok.mpr ⟨_, hend, rfl⟩⟩⟩⟩
    simpa using hall

/-- What stands in front is the head of a class exactly if it is read as one. -/
theorem readHead_eq_ok {head : Head} :
    readHead stop ls = .ok (head, rest) ↔ ∃ front, Heads front head ∧ ls = front ++ rest := by
  rw [readHead, bind_eq_ok]
  constructor
  · rintro ⟨⟨name, ls₁⟩, h₁, h⟩
    obtain ⟨hn, p, rfl⟩ := readName_eq_ok.mp h₁
    simp only at h
    -- behind the name stand a semicolon, a colon with a base, or the brace
    unfold readHeadEnd at h
    split at h
    · rename_i q ls₂
      simp only [Except.ok.injEq, Prod.mk.injEq] at h
      obtain ⟨rfl, rfl⟩ := h
      exact ⟨[⟨.word name, p⟩, ⟨.semicolon, q⟩], .forward hn, rfl⟩
    · rename_i q ls₂
      obtain ⟨⟨base, ls₃⟩, h₃, h⟩ := bind_eq_ok.mp h
      obtain ⟨⟨brace, ls₄⟩, h₄, h⟩ := bind_eq_ok.mp h
      obtain ⟨rfl, rfl⟩ := Prod.mk.inj (pure_eq_ok.mp h)
      obtain ⟨hb, r, rfl⟩ := readName_eq_ok.mp h₃
      obtain rfl := readBrace_eq_ok.mp h₄
      exact ⟨[⟨.word name, p⟩, ⟨.colon, q⟩, ⟨.word base, r⟩, ⟨.openBrace, brace⟩],
        .derived hn hb, rfl⟩
    · obtain ⟨⟨brace, ls₄⟩, h₄, h⟩ := bind_eq_ok.mp h
      obtain ⟨rfl, rfl⟩ := Prod.mk.inj (pure_eq_ok.mp h)
      obtain rfl := readBrace_eq_ok.mp h₄
      exact ⟨[⟨.word name, p⟩, ⟨.openBrace, brace⟩], .plain hn, rfl⟩
  · rintro ⟨front, hf, rfl⟩
    cases hf with
    | forward hn => exact ⟨_, readName_eq_ok.mpr ⟨hn, _, rfl⟩, rfl⟩
    | plain hn =>
      refine ⟨_, readName_eq_ok.mpr ⟨hn, _, rfl⟩, ?_⟩
      exact bind_eq_ok.mpr ⟨_, readBrace_eq_ok.mpr rfl, rfl⟩
    | derived hn hb =>
      refine ⟨_, readName_eq_ok.mpr ⟨hn, _, rfl⟩, ?_⟩
      exact bind_eq_ok.mpr ⟨_, readName_eq_ok.mpr ⟨hb, _, rfl⟩,
        bind_eq_ok.mpr ⟨_, readBrace_eq_ok.mpr rfl, rfl⟩⟩

end Overlay.Fragment
