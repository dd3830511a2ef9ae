import Overlay.Attempt
import Overlay.Version.Read
import Overlay.Proofs.Number.Decimal

namespace Overlay.Version
open Attempt (bind_eq_ok pure_eq_ok)
open Number (Digits ofDigits)
open Text (Stops)

structure IsNumber (ds : List Char) : Prop where
  digits : Digits ds
  ne_nil : ds ≠ []
  plain : hasLeadingZero ds = false
  small : ofDigits 10 ds < numberLimit

def IsSuffix (cs : List Char) (pre build : List String) : Prop :=
  ∃ last rest last', readMarked '-' .preRelease .patch cs = .ok (pre, last, rest) ∧
    readMarked '+' .build last rest = .ok (build, last', [])

/-- The texts of a version. -/
inductive Spells : List Char → Version → Prop
  | intro {a b c suffix : List Char} {pre build : List String} (ha : IsNumber a) (hb : IsNumber b)
      (hc : IsNumber c) (hs : IsSuffix suffix pre build) (hstop : Stops Char.isDigit suffix) :
      Spells (a ++ '.' :: (b ++ '.' :: (c ++ suffix)))
        ⟨ofDigits 10 a, ofDigits 10 b, ofDigits 10 c, pre, build⟩

variable {cs ds rest : List Char} {part : Part} {n : Nat} {v : Version}

theorem stops_point (cs : List Char) : Stops Char.isDigit ('.' :: cs) :=
  Text.stops_cons.mpr (by decide)

/-- Digits are refused if a zero is in front of them, or if they denote too large a number. -/
theorem readNumber_digits (part : Part) (hd : Digits ds) (hn : ds ≠ [])
    (hr : Stops Char.isDigit rest) : readNumber part (ds ++ rest) =
      if hasLeadingZero ds then .error (.leadingZero part)
      else if ofDigits 10 ds < numberLimit then .ok (ofDigits 10 ds, rest)
      else .error (.tooLarge part) := by
  have hempty : ¬ ds.isEmpty = true := by rwa [List.isEmpty_iff]
  simp only [readNumber, Text.takeWhile_run hd hr, Text.dropWhile_run hd hr]
  rw [if_neg hempty]

theorem IsNumber.read (h : IsNumber ds) (part : Part) (hr : Stops Char.isDigit rest) :
    readNumber part (ds ++ rest) = .ok (ofDigits 10 ds, rest) := by
  rw [readNumber_digits part h.digits h.ne_nil hr, if_neg (by simp [h.plain]), if_pos h.small]

/-- Where no digit is in front, no number is read. -/
theorem readNumber_stop (part : Part) (hr : Stops Char.isDigit rest) :
    readNumber part rest = .error (rest.head?.elim (.unexpectedEnd part)
      (.unexpectedCharacter part)) := by
  simp only [readNumber, Text.takeWhile_stop hr, Text.dropWhile_stop hr, List.isEmpty_nil, if_true]
  cases rest <;> rfl

/-- A number is read as far as its digits go, and has no needless zero. -/
theorem readNumber_eq_ok : readNumber part cs = .ok (n, rest) ↔
    ∃ ds, cs = ds ++ rest ∧ IsNumber ds ∧ Stops Char.isDigit rest ∧ ofDigits 10 ds = n := by
  constructor
  · intro h
    obtain ⟨ds, behind, rfl, hd, hr⟩ := Text.exists_run Char.isDigit cs
    by_cases hn : ds = []
    · subst hn
      rw [List.nil_append, readNumber_stop part hr] at h
      simp at h
    · rw [readNumber_digits part hd hn hr] at h
      split_ifs at h with hz hs
      obtain ⟨rfl, rfl⟩ := Prod.mk.inj (Except.ok.inj h)
      exact ⟨ds, rfl, ⟨hd, hn, by simpa using hz, hs⟩, hr, rfl⟩
  · rintro ⟨ds, rfl, hds, hr, rfl⟩
    exact hds.read part hr

theorem readDot_eq_ok : readDot part cs = .ok rest ↔ cs = '.' :: rest := by
  rw [readDot.eq_def]
  split
  · simp
  · rename_i c cs hc
    have hne : c ≠ '.' := hc
    simp [hne]
  · simp

/-- Exactly the texts of a version are read, as that version. -/
theorem read_eq_ok : read cs = .ok v ↔ Spells cs v := by
  constructor
  · intro h
    obtain ⟨⟨major, cs₁⟩, hmajor, h⟩ := bind_eq_ok.mp h
    obtain ⟨cs₂, hdot, h⟩ := bind_eq_ok.mp h
    obtain ⟨⟨minor, cs₃⟩, hminor, h⟩ := bind_eq_ok.mp h
    obtain ⟨cs₄, hdot', h⟩ := bind_eq_ok.mp h
    obtain ⟨⟨patch, suffix⟩, hpatch, h⟩ := bind_eq_ok.mp h
    obtain ⟨⟨pre, last, cs₅⟩, hpre, h⟩ := bind_eq_ok.mp h
    obtain ⟨⟨build, last', cs₆⟩, hbuild, h⟩ := bind_eq_ok.mp h
    cases cs₆ with
    -- nothing may stand behind the last part
    | cons c cs => exact absurd h (by simp)
    | nil =>
      obtain ⟨a, rfl, ha, -, rfl⟩ := readNumber_eq_ok.mp hmajor
      obtain rfl := readDot_eq_ok.mp hdot
      obtain ⟨b, rfl, hb, -, rfl⟩ := readNumber_eq_ok.mp hminor
      obtain rfl := readDot_eq_ok.mp hdot'
      obtain ⟨c, rfl, hc, hstop, rfl⟩ := readNumber_eq_ok.mp hpatch
      rw [← pure_eq_ok.mp h]
      exact .intro ha hb hc ⟨last, cs₅, last', hpre, hbuild⟩ hstop
  · intro h
    cases h with
    | @intro a b c suffix pre build ha hb hc hs hstop =>
      obtain ⟨last, rest, last', hpre, hbuild⟩ := hs
      refine bind_eq_ok.mpr ⟨_, ha.read .major (stops_point _), ?_⟩
      refine bind_eq_ok.mpr ⟨_, rfl, ?_⟩
      refine bind_eq_ok.mpr ⟨_, hb.read .minor (stops_point _), ?_⟩
      refine bind_eq_ok.mpr ⟨_, rfl, ?_⟩
      refine bind_eq_ok.mpr ⟨_, hc.read .patch hstop, ?_⟩
      refine bind_eq_ok.mpr ⟨_, hpre, ?_⟩
      exact bind_eq_ok.mpr ⟨_, hbuild, rfl⟩

theorem isSuffix_nil : IsSuffix [] [] [] := ⟨.patch, [], .patch, rfl, rfl⟩

/-- Three numbers alone are a version. -/
theorem spells_numbers {a b c : List Char} (ha : IsNumber a) (hb : IsNumber b) (hc : IsNumber c) :
    Spells (a ++ '.' :: (b ++ '.' :: c))
      ⟨ofDigits 10 a, ofDigits 10 b, ofDigits 10 c, [], []⟩ := by
  have h := Spells.intro ha hb hc isSuffix_nil Text.stops_nil
  rwa [List.append_nil] at h

theorem isNumber_toString (hn : n < numberLimit) : IsNumber (toString n).toList := by
  refine ⟨Number.digits_toString n, Number.toString_ne_nil n, ?_, ?_⟩
  · cases n with
    | zero => rfl
    | succ n =>
      rw [hasLeadingZero, Bool.and_eq_false_iff]
      exact .inr (beq_false_of_ne (Number.head_toString n.succ_pos))
  · rwa [Number.ofDigits_toString]

end Overlay.Version
