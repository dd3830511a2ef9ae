import Overlay.Proofs.Token

namespace Overlay.Number
open Text (Stops)

/-- A literal stands in front, and no literal character follows it. -/
def StandsAlone (literal cs : List Char) : Prop :=
  IsLiteral literal ∧ ∃ rest, cs = literal ++ rest ∧ Stops isLiteralChar rest

variable {literal word cs : List Char}

/-- The reader finds the literal that stands alone in front, if there is one. -/
theorem readLiteral_eq_ok_iff : readLiteral cs = .ok literal ↔ StandsAlone literal cs := by
  constructor
  · exact literal_of_read
  · rintro ⟨hl, rest, rfl, hr⟩
    exact readLiteral_eq_ok hl hr

/-- Only one literal can stand in front by itself: it is the one that is read. -/
theorem StandsAlone.unique {other : List Char} (h : StandsAlone literal cs)
    (ho : StandsAlone other cs) : literal = other := by
  have hread := readLiteral_eq_ok_iff.mpr h
  rw [readLiteral_eq_ok_iff.mpr ho] at hread
  exact (Except.ok.inj hread).symm

/-- A refused word goes as far as literal characters do. -/
theorem word_of_refused (h : readLiteral cs = .error word) :
    ∃ rest, cs = word ++ rest ∧ Stops isLiteralChar rest := by
  rw [readLiteral] at h
  split_ifs at h with hc
  have hw := Except.error.inj h
  refine ⟨(cs.drop (reach cs).length).dropWhile isLiteralChar, ?_, Text.stops_dropWhile _ _⟩
  rw [← hw, List.append_assoc, List.takeWhile_append_dropWhile, List.take_append_drop]

end Overlay.Number

namespace Overlay.Piece
open Text (Stops)
open Number (isLiteralChar StandsAlone)

/-- Where a number starts, exactly the literals that stand alone are read. There is one of them at
most, and without one the word in front is refused. -/
theorem literal_read_exactly (c : Char) (cs : List Char) (h : startsNumber c cs = true) :
    (∀ literal, read c cs = .ok (.token (.number (.ofList literal)), literal.length - 1) ↔
        StandsAlone literal (c :: cs)) ∧
      (∀ literal other, StandsAlone literal (c :: cs) → StandsAlone other (c :: cs) →
        literal = other) ∧
      ((∀ literal, ¬ StandsAlone literal (c :: cs)) → ∃ word rest, c :: cs = word ++ rest ∧
        Stops isLiteralChar rest ∧ read c cs = .error (.invalidNumber (.ofList word))) := by
  rw [read_of_startsNumber h]
  refine ⟨?_, fun _ _ => StandsAlone.unique, ?_⟩
  · intro literal
    rw [← Number.readLiteral_eq_ok_iff]
    cases hread : Number.readLiteral (c :: cs) with
    | error word => simp
    | ok found =>
      constructor
      · intro he
        simp only [Except.ok.injEq, Prod.mk.injEq, token.injEq, Token.number.injEq,
          String.ofList_inj] at he
        rw [he.1]
      · intro he
        rw [Except.ok.inj he]
  · intro hnone
    cases hread : Number.readLiteral (c :: cs) with
    | ok literal => exact absurd (Number.readLiteral_eq_ok_iff.mp hread) (hnone literal)
    | error word =>
      obtain ⟨rest, hrest, hstop⟩ := Number.word_of_refused hread
      exact ⟨word, rest, hrest, hstop, rfl⟩

theorem literal_read_signed :
    startsNumber '+' ".5e-3;".toList = true ∧ StandsAlone "+.5e-3".toList "+.5e-3;".toList ∧
      read '+' ".5e-3;".toList = .ok (.token (.number "+.5e-3"), 5) := by
  have hstart : startsNumber '+' ".5e-3;".toList = true := by decide
  have halone : StandsAlone "+.5e-3".toList "+.5e-3;".toList :=
    ⟨by decide, [';'], by decide, Text.stops_cons.mpr (by decide)⟩
  have hread := ((literal_read_exactly '+' ".5e-3;".toList hstart).1 "+.5e-3".toList).mpr halone
  rw [String.ofList_toList] at hread
  exact ⟨hstart, halone, hread⟩

end Overlay.Piece
