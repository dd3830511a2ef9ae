import Overlay.Proofs.Number
import Overlay.Token.Lex

namespace Overlay
open Text (Stops isBlank)
open Number (isWordChar isLiteralChar IsLiteral readLiteral)

def IsWord (name : String) : Prop :=
  ∃ c cs, name.toList = c :: cs ∧ Piece.startsWord c = true ∧ ∀ d ∈ cs, isWordChar d = true

theorem isWord_iff {name : String} : IsWord name ↔
    name.toList.head?.any Piece.startsWord = true ∧ name.toList.tail.all isWordChar = true := by
  rw [IsWord]
  cases name.toList with
  | nil => simp
  | cons c cs => simp

instance (name : String) : Decidable (IsWord name) := decidable_of_iff _ isWord_iff.symm

def IsLine (value : String) : Prop := '\n' ∉ value.toList

instance (value : String) : Decidable (IsLine value) := inferInstanceAs (Decidable (¬ _))

namespace Token

/-- A token of a form in which it can be written. -/
def Proper : Token → Prop
  | word name => IsWord name
  | number literal => IsLiteral literal.toList
  | text value => IsLine value
  | _ => True

/-- The characters that, directly behind a token, would belong to it. -/
def goesOn : Token → Char → Bool
  | word _ => isWordChar
  | number _ => isLiteralChar
  | text _ => fun c => c == '"'
  | _ => fun _ => false

end Token

namespace Piece

theorem isBlank_of_isLiteralChar {c : Char} (h : isLiteralChar c = true) : isBlank c = false := by
  by_contra hb
  rw [Bool.not_eq_false] at hb
  have hrange := Text.toNat_of_isBlank hb
  rcases Number.isLiteralChar_iff.mp h with h | h | h | rfl | rfl
  · omega
  · omega
  · omega
  · revert hb
    decide
  · revert hb
    decide

theorem isLiteralChar_of_startsWord {c : Char} (h : startsWord c = true) :
    isLiteralChar c = true := by
  rw [startsWord, Bool.or_eq_true] at h
  rw [isLiteralChar, isWordChar, Char.isAlphanum]
  rcases h with h | h <;> simp [h]

/-- The start of a word is the start of nothing else. -/
theorem startsWord_only {c : Char} (h : startsWord c = true) :
    isBlank c = false ∧ c ≠ '/' ∧ c ≠ '+' ∧ c ≠ '"' ∧ ∀ cs, startsNumber c cs = false := by
  have hne (d : Char) (hd : startsWord d = false) : c ≠ d := by
    rintro rfl
    exact absurd h (by simp [hd])
  have hdigit : c.isDigit = false := by
    by_contra hd
    rw [Bool.not_eq_false, Number.isDigit_iff] at hd
    rw [startsWord, Bool.or_eq_true, Number.isAlpha_iff] at h
    rcases h with (hu | hl) | hunderscore
    · omega
    · omega
    · rw [beq_iff_eq] at hunderscore
      subst hunderscore
      revert hd
      decide
  refine ⟨isBlank_of_isLiteralChar (isLiteralChar_of_startsWord h), hne _ (by decide),
    hne _ (by decide), hne _ (by decide), ?_⟩
  intro cs
  have hminus : c ≠ '-' := hne _ (by decide)
  have hplus : c ≠ '+' := hne _ (by decide)
  have hpoint : c ≠ '.' := hne _ (by decide)
  simp [startsNumber, hdigit, hminus, hplus, hpoint]

theorem read_word {name : String} {c : Char} {cs rest : List Char} (hn : name.toList = c :: cs)
    (hc : startsWord c = true) (hcs : ∀ d ∈ cs, isWordChar d = true) (hr : Stops isWordChar rest) :
    read c (cs ++ rest) = .ok (.token (.word name), cs.length) := by
  obtain ⟨hb, hslash, hplus, hquote, hnumber⟩ := startsWord_only hc
  have hname : String.ofList (c :: cs) = name := by rw [← hn, String.ofList_toList]
  simp only [read, hb, hslash, hplus, hquote, hnumber, hc, false_and, if_false, if_true,
    Bool.false_eq_true, Text.takeWhile_run hcs hr, hname]

/-- A quoted text is read up to its closing quote, with doubled quotes for single ones. -/
theorem readText_quoted {value rest : List Char} (hv : '\n' ∉ value) (hr : Stops (· == '"') rest) :
    readText? ((value.flatMap fun c => if c = '"' then ['"', '"'] else [c]) ++ '"' :: rest) =
      some (value, (value.flatMap fun c => if c = '"' then ['"', '"'] else [c]).length + 1) := by
  -- the quote behind the value must not be taken for the first half of a doubled one
  induction value with
  | nil =>
    cases rest with
    | nil => rfl
    | cons c cs =>
      have hc : c ≠ '"' := by simpa using hr
      rw [List.flatMap_nil, List.nil_append, readText?]
      · rfl
      · rintro cs' h
        exact hc (List.cons.inj h).1
  | cons c cs ih =>
    rw [List.mem_cons, not_or] at hv
    have ih := ih hv.2
    by_cases hc : c = '"'
    · subst hc
      simp only [List.flatMap_cons, if_true, List.cons_append, List.nil_append, readText?, ih,
        Option.map_some, List.length_cons]
    · simp only [List.flatMap_cons, hc, if_false, List.cons_append, List.nil_append,
        List.length_cons]
      rw [readText?, if_neg (Ne.symm hv.1), ih]
      · rfl
      · exact fun cs' h _ => hc h
      · exact hc

/-- The start of a number is the start of nothing that is tried before numbers. -/
theorem startsNumber_only {c : Char} {cs : List Char} (h : startsNumber c cs = true) :
    isBlank c = false ∧ c ≠ '/' ∧ c ≠ '"' ∧ ¬(c = '+' ∧ cs.head? = some '=') := by
  rw [startsNumber, Bool.or_eq_true, Bool.and_eq_true] at h
  refine ⟨?_, ?_, ?_, ?_⟩
  · rcases h with hc | ⟨hc, -⟩
    · exact isBlank_of_isLiteralChar (by simp [isLiteralChar, isWordChar, Char.isAlphanum, hc])
    · have hc : (c = '-' ∨ c = '+') ∨ c = '.' := by simpa using hc
      rcases hc with (rfl | rfl) | rfl <;> decide
  · rintro rfl
    revert h
    simp
  · rintro rfl
    revert h
    simp
  · rintro ⟨rfl, he⟩
    revert h
    rw [he]
    decide

/-- Where a number starts, what stands in front is a literal or refused as one. -/
theorem read_of_startsNumber {c : Char} {cs : List Char} (h : startsNumber c cs = true) :
    read c cs = match readLiteral (c :: cs) with
      | .ok literal => .ok (.token (.number (.ofList literal)), literal.length - 1)
      | .error word => .error (.invalidNumber (.ofList word)) := by
  obtain ⟨hb, hslash, hquote, happend⟩ := startsNumber_only h
  cases hread : readLiteral (c :: cs) with
  | ok literal =>
    simp only [read, hb, hslash, hquote, happend, h, hread, false_and, if_false, if_true,
      Bool.false_eq_true]
  | error word =>
    simp only [read, hb, hslash, hquote, happend, h, hread, false_and, if_false, if_true,
      Bool.false_eq_true]

/-- Every literal starts a number, whatever stands behind it. -/
theorem startsNumber_of_literal {literal : List Char} (h : IsLiteral literal) (rest : List Char) :
    ∃ c cs, literal = c :: cs ∧ startsNumber c (cs ++ rest) = true := by
  obtain ⟨c, cs, rfl, hc⟩ := Number.literal_first h
  refine ⟨c, cs, rfl, ?_⟩
  rw [startsNumber, Bool.or_eq_true, Bool.and_eq_true]
  rcases hc with hc | ⟨hc, d, hd, hdigit⟩
  · exact Or.inl hc
  · obtain ⟨ds, rfl⟩ := List.head?_eq_some_iff.mp hd
    refine Or.inr ⟨?_, by simpa using hdigit⟩
    simpa [Number.isSign, or_comm, or_assoc, or_left_comm] using hc

/-- A literal is read if nothing behind it goes on with it. -/
theorem read_number {literal rest : List Char} (h : IsLiteral literal)
    (hr : Stops isLiteralChar rest) : ∃ c cs, literal = c :: cs ∧
      read c (cs ++ rest) = .ok (.token (.number (.ofList literal)), cs.length) := by
  have hread := Number.readLiteral_eq_ok h hr
  obtain ⟨c, cs, rfl, hstart⟩ := startsNumber_of_literal h rest
  refine ⟨c, cs, rfl, ?_⟩
  rw [read_of_startsNumber hstart, ← List.cons_append, hread]
  rfl

/-- A proper token is read in front of whatever does not go on with it. -/
theorem read_written {t : Token} {rest : List Char} (ht : t.Proper) (hr : Stops t.goesOn rest) :
    ∃ c cs, t.written.toList = c :: cs ∧ read c (cs ++ rest) = .ok (.token t, cs.length) := by
  cases t with
  | word name =>
    obtain ⟨c, cs, hn, hc, hcs⟩ := ht
    exact ⟨c, cs, hn, read_word hn hc hcs hr⟩
  | number literal =>
    obtain ⟨c, cs, hl, hread⟩ := read_number ht hr
    rw [String.ofList_toList] at hread
    exact ⟨c, cs, hl, hread⟩
  | text value =>
    refine ⟨'"', (value.toList.flatMap fun c => if c = '"' then ['"', '"'] else [c]) ++ ['"'],
      ?_, ?_⟩
    · simp [Token.written, quoted]
    · have hread := readText_quoted ht hr
      rw [List.append_assoc, List.singleton_append, read]
      simp only [hread, String.ofList_toList, List.length_append, List.length_singleton]
      rfl
  | openBrace => exact ⟨_, [], rfl, rfl⟩
  | closeBrace => exact ⟨_, [], rfl, rfl⟩
  | openBracket => exact ⟨_, [], rfl, rfl⟩
  | closeBracket => exact ⟨_, [], rfl, rfl⟩
  | colon => exact ⟨_, [], rfl, rfl⟩
  | semicolon => exact ⟨_, [], rfl, rfl⟩
  | comma => exact ⟨_, [], rfl, rfl⟩
  | assign => exact ⟨_, [], rfl, rfl⟩
  | append => exact ⟨_, ['='], rfl, rfl⟩

theorem line_of_readText {cs value : List Char} {n : Nat} (h : readText? cs = some (value, n)) :
    '\n' ∉ value := by
  fun_induction readText? cs generalizing value n with
  | case1 cs ih =>
    obtain ⟨⟨more, m⟩, hm, he⟩ := Option.map_eq_some_iff.mp h
    obtain ⟨rfl, -⟩ := Prod.mk.inj he
    rw [List.mem_cons, not_or]
    exact ⟨by decide, ih hm⟩
  | case2 cs hcs =>
    obtain ⟨rfl, -⟩ := Prod.mk.inj (Option.some.inj h)
    exact List.not_mem_nil
  | case3 cs => simp at h
  | case4 c cs hquotes hquote hc ih =>
    obtain ⟨⟨more, m⟩, hm, he⟩ := Option.map_eq_some_iff.mp h
    obtain ⟨rfl, -⟩ := Prod.mk.inj he
    rw [List.mem_cons, not_or]
    exact ⟨Ne.symm hc, ih hm⟩
  | case5 => simp at h

/-- Every token that is read is proper. -/
theorem proper_of_read {c : Char} {cs : List Char} {t : Token} {n : Nat}
    (h : read c cs = .ok (.token t, n)) : t.Proper := by
  rw [read] at h
  split_ifs at h with hb hline hblock happend hquote hnumber hword
  -- gaps are no tokens
  · simp at h
  · simp at h
  · split at h <;> simp at h
  · simp only [Except.ok.injEq, Prod.mk.injEq, token.injEq] at h
    rw [← h.1]
    trivial
  · split at h
    · rename_i value m hv
      simp only [Except.ok.injEq, Prod.mk.injEq, token.injEq] at h
      rw [← h.1, Token.Proper, IsLine, String.toList_ofList]
      exact line_of_readText hv
    · simp at h
  · split at h
    · rename_i literal hl
      simp only [Except.ok.injEq, Prod.mk.injEq, token.injEq] at h
      rw [← h.1, Token.Proper, String.toList_ofList]
      exact (Number.literal_of_read hl).1
    · simp at h
  · simp only [Except.ok.injEq, Prod.mk.injEq, token.injEq] at h
    rw [← h.1]
    exact ⟨c, cs.takeWhile isWordChar, String.toList_ofList, hword,
      fun d hd => List.mem_takeWhile_imp hd⟩
  · split at h
    · rename_i t' hs
      simp only [Except.ok.injEq, Prod.mk.injEq, token.injEq] at h
      rw [← h.1]
      unfold single? at hs
      split at hs <;> first | (obtain rfl := Option.some.inj hs; trivial) | simp at hs
    · simp at h

end Piece

end Overlay
