import Overlay.Number.Literal
import Overlay.Proofs.Text
import Mathlib.Tactic.Common

namespace Overlay.Number
open Text (Stops)

def isSign (c : Char) : Bool := c == '+' || c == '-'

def Sign (cs : List Char) : Prop := cs = [] ∨ ∃ c, isSign c = true ∧ cs = [c]

def Digits (cs : List Char) : Prop := ∀ c ∈ cs, c.isDigit = true

inductive Exponent : List Char → Prop
  | absent : Exponent []
  | present {e : Char} {sign digits : List Char} (he : e = 'e' ∨ e = 'E') (hs : Sign sign)
      (hd : Digits digits) (hn : digits ≠ []) : Exponent (e :: (sign ++ digits))

/-- Digits with at most one point among or beside them. -/
inductive Mantissa : List Char → Prop
  | whole {digits : List Char} (hd : Digits digits) (hn : digits ≠ []) : Mantissa digits
  | pointed {digits fraction : List Char} (hd : Digits digits) (hf : Digits fraction)
      (hn : digits ≠ [] ∨ fraction ≠ []) : Mantissa (digits ++ '.' :: fraction)

inductive Unsigned : List Char → Prop
  | hexadecimal {x : Char} {digits : List Char} (hx : x = 'x' ∨ x = 'X')
      (hd : ∀ c ∈ digits, isHexDigit c = true) (hn : digits ≠ []) : Unsigned ('0' :: x :: digits)
  | decimal {mantissa exponent : List Char} (hm : Mantissa mantissa) (he : Exponent exponent) :
      Unsigned (mantissa ++ exponent)

inductive IsLiteral : List Char → Prop
  | signed {sign body : List Char} (hs : Sign sign) (hb : Unsigned body) : IsLiteral (sign ++ body)

variable {cs rest : List Char}

theorem stops_digit (h : Stops isLiteralChar rest) : Stops Char.isDigit rest := by
  apply h.mono
  intro c hc
  simp [isLiteralChar, isWordChar, Char.isAlphanum, hc]

theorem isAlpha_iff {c : Char} : c.isAlpha = true ↔
    (65 ≤ c.toNat ∧ c.toNat ≤ 90) ∨ (97 ≤ c.toNat ∧ c.toNat ≤ 122) := by
  have hupper : c.isUpper = true ↔ 65 ≤ c.toNat ∧ c.toNat ≤ 90 := decide_eq_true_iff
  have hlower : c.isLower = true ↔ 97 ≤ c.toNat ∧ c.toNat ≤ 122 :=
    (Bool.and_eq_true_iff).trans (and_congr decide_eq_true_iff decide_eq_true_iff)
  rw [← hupper, ← hlower, ← Bool.or_eq_true]
  rfl

theorem isDigit_iff {c : Char} : c.isDigit = true ↔ 48 ≤ c.toNat ∧ c.toNat ≤ 57 :=
  Char.isDigit_iff_toNat

theorem isLiteralChar_iff {c : Char} : isLiteralChar c = true ↔
    (65 ≤ c.toNat ∧ c.toNat ≤ 90) ∨ (97 ≤ c.toNat ∧ c.toNat ≤ 122) ∨
      (48 ≤ c.toNat ∧ c.toNat ≤ 57) ∨ c = '_' ∨ c = '.' := by
  simp only [isLiteralChar, isWordChar, Char.isAlphanum, Bool.or_eq_true, isAlpha_iff, isDigit_iff,
    beq_iff_eq, or_assoc]

theorem isLiteralChar_of_isHexDigit {c : Char} (h : isHexDigit c = true) :
    isLiteralChar c = true := by
  simp only [isHexDigit, Char.isDigit, Bool.or_eq_true, Bool.and_eq_true, decide_eq_true_eq,
    Char.le_def, UInt32.le_iff_toNat_le, ge_iff_le] at h
  apply isLiteralChar_iff.mpr
  rcases h with (hd | hl) | hu
  · exact Or.inr (Or.inr (Or.inl hd))
  · have hl : 97 ≤ c.toNat ∧ c.toNat ≤ 102 := hl
    omega
  · have hu : 65 ≤ c.toNat ∧ c.toNat ≤ 70 := hu
    omega

theorem not_isSign_of_isDigit {c : Char} (h : c.isDigit = true) : isSign c = false := by
  have hp : c ≠ '+' := by rintro rfl; exact absurd h (by decide)
  have hm : c ≠ '-' := by rintro rfl; exact absurd h (by decide)
  simp [isSign, hp, hm]

theorem signLength_eq {sign : List Char} (hs : Sign sign) (hr : Stops isSign rest) :
    signLength (sign ++ rest) = sign.length := by
  rcases hs with rfl | ⟨c, hc, rfl⟩
  · cases rest with
    | nil => rfl
    | cons c cs =>
      have hc : c ≠ '+' ∧ c ≠ '-' := by simpa [isSign] using hr
      rw [List.nil_append, signLength]
      · rfl
      · exact fun cs' h => hc.1 (List.cons.inj h).1
      · exact fun cs' h => hc.2 (List.cons.inj h).1
  · have hc : c = '+' ∨ c = '-' := by simpa [isSign] using hc
    rcases hc with rfl | rfl <;> rfl

theorem exists_sign (cs : List Char) : ∃ sign rest, cs = sign ++ rest ∧ Sign sign ∧
    signLength cs = sign.length := by
  cases cs with
  | nil => exact ⟨[], [], rfl, Or.inl rfl, rfl⟩
  | cons c cs =>
    by_cases hc : isSign c = true
    · have hs : Sign [c] := Or.inr ⟨c, hc, rfl⟩
      have hc : c = '+' ∨ c = '-' := by simpa [isSign] using hc
      refine ⟨[c], cs, rfl, hs, ?_⟩
      rcases hc with rfl | rfl <;> rfl
    · refine ⟨[], c :: cs, rfl, Or.inl rfl, ?_⟩
      exact signLength_eq (Or.inl rfl) (by simpa using hc)

theorem digitCount_run {digits : List Char} (hd : Digits digits) (hr : Stops Char.isDigit rest) :
    digitCount (digits ++ rest) = digits.length := by
  rw [digitCount, Text.takeWhile_run hd hr]

/-- An exponent is passed as a whole if nothing behind it goes on with the literal. -/
theorem exponentReach_eq {exponent : List Char} (he : Exponent exponent)
    (hr : Stops isLiteralChar rest) :
    exponentReach (exponent ++ rest) = ⟨exponent.length, true⟩ := by
  cases he with
  | absent =>
    cases rest with
    | nil => rfl
    | cons c cs =>
      have hc : ¬(c = 'e' ∨ c = 'E') := by
        rintro (rfl | rfl) <;> exact absurd (Text.stops_cons.mp hr) (by decide)
      simp [exponentReach, hc]
  | @present e sign digits he hs hd hn =>
    have hsign : signLength (sign ++ (digits ++ rest)) = sign.length := by
      apply signLength_eq hs
      cases digits with
      | nil => exact absurd rfl hn
      | cons d ds => exact Text.stops_cons.mpr (not_isSign_of_isDigit (hd d List.mem_cons_self))
    have hdrop : (sign ++ (digits ++ rest)).drop sign.length = digits ++ rest := List.drop_left
    have hpos : 0 < digits.length := List.length_pos_iff.mpr hn
    rw [List.cons_append, List.append_assoc, exponentReach, if_pos he]
    simp only [hsign, hdrop, digitCount_run hd (stops_digit hr), List.length_cons,
      List.length_append, hpos, decide_true]
    congr 1
    omega

theorem drop_pointed (digits fraction rest : List Char) :
    (digits ++ '.' :: (fraction ++ rest)).drop (digits.length + 1 + fraction.length) = rest := by
  have hdrop : (digits ++ '.' :: (fraction ++ rest)).drop digits.length =
      '.' :: (fraction ++ rest) := List.drop_left
  rw [Nat.add_assoc, ← List.drop_drop, hdrop, Nat.add_comm, List.drop_succ_cons]
  exact List.drop_left

theorem decimalReach_eq {mantissa exponent : List Char} (hm : Mantissa mantissa)
    (he : Exponent exponent) (hr : Stops isLiteralChar rest) :
    decimalReach (mantissa ++ (exponent ++ rest)) = ⟨(mantissa ++ exponent).length, true⟩ := by
  have hexponent := exponentReach_eq he hr
  -- neither an exponent nor what stops a literal goes on with the mantissa
  have hfirst (c : Char) (hc : c ∈ (exponent ++ rest).head?) : c.isDigit = false ∧ c ≠ '.' := by
    cases he with
    | absent =>
      have hl : isLiteralChar c = false := hr c hc
      have hd := stops_digit hr c hc
      refine ⟨hd, ?_⟩
      rintro rfl
      exact absurd hl (by decide)
    | @present e sign digits he hs hd hn =>
      obtain rfl : e = c := by simpa using hc
      rcases he with rfl | rfl <;> decide
  have hstop : Stops Char.isDigit (exponent ++ rest) := fun c hc => (hfirst c hc).1
  cases hm with
  | whole hd hn =>
    have hpos : ¬ mantissa.length = 0 := by simpa using hn
    have hdrop : (mantissa ++ (exponent ++ rest)).drop mantissa.length = exponent ++ rest :=
      List.drop_left
    rw [decimalReach]
    simp only [digitCount_run hd hstop, hdrop]
    split
    · rename_i ds hds
      exact absurd rfl (hfirst '.' (by rw [hds]; rfl)).2
    · simp only [Nat.add_zero, hpos, if_false, hdrop, hexponent, List.length_append]
  | @pointed digits fraction hd hf hn =>
    have hpoint : Stops Char.isDigit ('.' :: (fraction ++ (exponent ++ rest))) := by
      rw [Text.stops_cons]
      decide
    have hpos : ¬ digits.length + fraction.length = 0 := by
      rcases hn with hn | hn
      · have := List.length_pos_iff.mpr hn
        omega
      · have := List.length_pos_iff.mpr hn
        omega
    have hdrop : (digits ++ '.' :: (fraction ++ (exponent ++ rest))).drop digits.length =
        '.' :: (fraction ++ (exponent ++ rest)) := List.drop_left
    rw [List.append_assoc, List.cons_append, decimalReach]
    simp only [digitCount_run hd hpoint, hdrop, digitCount_run hf hstop, hpos, if_false,
      drop_pointed, hexponent, List.length_append, List.length_cons, Reach.mk.injEq, and_true]
    omega

/-- Behind the first character of a decimal literal there is no hexadecimal mark. -/
theorem second_of_decimal {mantissa exponent : List Char} (hm : Mantissa mantissa)
    (he : Exponent exponent) (hr : Stops isLiteralChar rest) {c x : Char} {cs : List Char}
    (h : mantissa ++ (exponent ++ rest) = c :: x :: cs) : ¬(x = 'x' ∨ x = 'X') := by
  have hdigit (ds : List Char) (hd : Digits ds) (y : Char) (hy : y ∈ ds) :
      ¬(y = 'x' ∨ y = 'X') := by
    rintro (rfl | rfl) <;> exact absurd (hd _ hy) (by decide)
  have hmantissa (y : Char) (hy : y ∈ mantissa) : ¬(y = 'x' ∨ y = 'X') := by
    cases hm with
    | whole hd hn => exact hdigit _ hd y hy
    | pointed hd hf hn =>
      rcases List.mem_append.mp hy with hy | hy
      · exact hdigit _ hd y hy
      · rcases List.mem_cons.mp hy with rfl | hy
        · decide
        · exact hdigit _ hf y hy
  have hexponent (y : Char) (hy : y ∈ (exponent ++ rest).head?) : ¬(y = 'x' ∨ y = 'X') := by
    cases he with
    | absent =>
      rintro (rfl | rfl) <;> exact absurd (hr _ hy) (by decide)
    | present he hs hd hn =>
      obtain rfl := Option.mem_some.mp hy
      rcases he with rfl | rfl <;> decide
  have hne : mantissa ≠ [] := by
    cases hm with
    | whole hd hn => exact hn
    | pointed hd hf hn => simp
  -- the second character is the next one of the mantissa or, if there is none, the first one behind
  obtain ⟨m, ms, rfl⟩ := List.exists_cons_of_ne_nil hne
  obtain ⟨-, hrest⟩ := List.cons.inj h
  cases ms with
  | nil =>
    have hrest : exponent ++ rest = x :: cs := hrest
    exact hexponent x (by rw [hrest]; rfl)
  | cons y ys =>
    obtain ⟨rfl, -⟩ := List.cons.inj hrest
    exact hmantissa y (by simp)

/-- Without a mark for hexadecimal digits in the second place, what is looked for is a decimal. -/
theorem unsignedReach_of_second (h : ∀ c x cs', cs = c :: x :: cs' → ¬(x = 'x' ∨ x = 'X')) :
    unsignedReach cs = decimalReach cs := by
  rw [unsignedReach.eq_def]
  split
  · rename_i x cs'
    rw [if_neg (h '0' x cs' rfl)]
  · rfl

theorem unsignedReach_eq {body : List Char} (hb : Unsigned body) (hr : Stops isLiteralChar rest) :
    unsignedReach (body ++ rest) = ⟨body.length, true⟩ := by
  cases hb with
  | @hexadecimal x digits hx hd hn =>
    have hstop : Stops isHexDigit rest := hr.mono fun c => isLiteralChar_of_isHexDigit
    have hpos : 0 < digits.length := List.length_pos_iff.mpr hn
    simp only [List.cons_append, unsignedReach, hx, if_true, Text.takeWhile_run hd hstop, hpos,
      decide_true, List.length_cons, Reach.mk.injEq, and_true]
    omega
  | @decimal mantissa exponent hm he =>
    rw [List.append_assoc, unsignedReach_of_second, decimalReach_eq hm he hr]
    intro c x cs' h
    exact second_of_decimal hm he hr h

/-- A literal without sign begins with a digit, or with a point in front of one. -/
theorem unsigned_first {body : List Char} (hb : Unsigned body) :
    ∃ c cs, body = c :: cs ∧ (c.isDigit = true ∨ c = '.' ∧ ∃ d ∈ cs.head?, d.isDigit = true) := by
  cases hb with
  | hexadecimal hx hd hn => exact ⟨_, _, rfl, Or.inl (by decide)⟩
  | decimal hm he =>
    cases hm with
    | whole hd hn =>
      obtain ⟨d, ds, rfl⟩ := List.exists_cons_of_ne_nil hn
      exact ⟨d, _, rfl, Or.inl (hd d List.mem_cons_self)⟩
    | @pointed digits fraction hd hf hn =>
      cases digits with
      | cons d ds => exact ⟨d, _, rfl, Or.inl (hd d List.mem_cons_self)⟩
      | nil =>
        obtain ⟨f, fs, rfl⟩ := List.exists_cons_of_ne_nil (hn.resolve_left (by simp))
        exact ⟨'.', _, rfl, Or.inr ⟨rfl, f, rfl, hf f List.mem_cons_self⟩⟩

/-- A literal starts with a digit, or with a sign or point before a digit or point. -/
theorem literal_first {literal : List Char} (h : IsLiteral literal) :
    ∃ c cs, literal = c :: cs ∧ (c.isDigit = true ∨
      (isSign c = true ∨ c = '.') ∧ ∃ d ∈ cs.head?, d.isDigit = true ∨ d = '.') := by
  cases h with
  | signed hs hb =>
    obtain ⟨b, bs, rfl, hfirst⟩ := unsigned_first hb
    rcases hs with rfl | ⟨c, hc, rfl⟩
    · refine ⟨b, bs, rfl, ?_⟩
      rcases hfirst with hdigit | ⟨hp, d, hd, hdigit⟩
      · exact Or.inl hdigit
      · exact Or.inr ⟨Or.inr hp, d, hd, Or.inl hdigit⟩
    · refine ⟨c, b :: bs, rfl, Or.inr ⟨Or.inl hc, b, rfl, ?_⟩⟩
      rcases hfirst with hdigit | ⟨hp, _⟩
      · exact Or.inl hdigit
      · exact Or.inr hp

/-- A literal is read as a whole where no further literal character follows it. -/
theorem readLiteral_eq_ok {literal : List Char} (h : IsLiteral literal)
    (hr : Stops isLiteralChar rest) : readLiteral (literal ++ rest) = .ok literal := by
  cases h with
  | @signed sign body hs hb =>
    have hsign : signLength (sign ++ (body ++ rest)) = sign.length := by
      apply signLength_eq hs
      -- what follows a sign starts with a digit or a point, so it is no other sign
      obtain ⟨c, cs, rfl, hc⟩ := unsigned_first hb
      rw [List.cons_append, Text.stops_cons]
      rcases hc with hc | ⟨rfl, _⟩
      · exact not_isSign_of_isDigit hc
      · decide
    have hdrop : (sign ++ (body ++ rest)).drop sign.length = body ++ rest := List.drop_left
    have hreach : reach (sign ++ body ++ rest) = ⟨(sign ++ body).length, true⟩ := by
      rw [reach, List.append_assoc]
      simp only [hsign, hdrop, unsignedReach_eq hb hr, List.length_append]
    have hrest : (sign ++ body ++ rest).drop (sign ++ body).length = rest := List.drop_left
    have htake : (sign ++ body ++ rest).take (sign ++ body).length = sign ++ body := List.take_left
    rw [readLiteral]
    simp only [hreach, hrest, htake, Text.stops_iff.mp hr, Bool.not_false, Bool.and_self, if_true]

theorem exponent_of_reach {n : Nat} (h : exponentReach cs = ⟨n, true⟩) : Exponent (cs.take n) := by
  cases cs with
  | nil =>
    rw [List.take_nil]
    exact .absent
  | cons e cs =>
    rw [exponentReach] at h
    split_ifs at h with he
    · obtain ⟨sign, behind, rfl, hs, hsign⟩ := exists_sign cs
      obtain ⟨digits, rest, rfl, hd, hr⟩ := Text.exists_run Char.isDigit behind
      have hdrop : (sign ++ (digits ++ rest)).drop sign.length = digits ++ rest := List.drop_left
      simp only [hsign, hdrop, digitCount_run hd hr, Reach.mk.injEq, decide_eq_true_eq] at h
      obtain ⟨rfl, hn⟩ := h
      have htake : (e :: (sign ++ (digits ++ rest))).take (1 + sign.length + digits.length) =
          e :: (sign ++ digits) := by
        rw [← List.append_assoc, ← List.cons_append]
        exact List.take_left' (by simp only [List.length_cons, List.length_append]; omega)
      rw [htake]
      exact .present he hs hd (List.length_pos_iff.mp hn)
    · simp only [Reach.mk.injEq, and_true] at h
      rw [← h, List.take_zero]
      exact .absent

theorem decimal_of_reach {n : Nat} (h : decimalReach cs = ⟨n, true⟩) : Unsigned (cs.take n) := by
  -- the mantissa is found, and the exponent behind it gives the rest of the reach
  have hfinish (mantissa behind : List Char) (hm : Mantissa mantissa)
      (he : mantissa.length + (exponentReach behind).length = n)
      (hc : (exponentReach behind).complete = true) : Unsigned ((mantissa ++ behind).take n) := by
    rw [← he, List.take_length_add_append]
    exact .decimal hm (exponent_of_reach (by rw [← hc]))
  obtain ⟨digits, behind, rfl, hd, hr⟩ := Text.exists_run Char.isDigit cs
  have hdrop : (digits ++ behind).drop digits.length = behind := List.drop_left
  rw [decimalReach] at h
  simp only [digitCount_run hd hr, hdrop] at h
  split at h
  · rename_i ds
    obtain ⟨fraction, rest, rfl, hf, hr'⟩ := Text.exists_run Char.isDigit ds
    simp only [digitCount_run hf hr', drop_pointed] at h
    split_ifs at h with hz
    · simp at h
    · simp only [Reach.mk.injEq] at h
      have hn : digits ≠ [] ∨ fraction ≠ [] := by
        by_contra hne
        rw [not_or, not_not, not_not] at hne
        exact hz (by rw [hne.1, hne.2]; rfl)
      have hcs : digits ++ '.' :: (fraction ++ rest) = (digits ++ '.' :: fraction) ++ rest := by
        simp
      rw [hcs]
      refine hfinish _ rest (.pointed hd hf hn) ?_ h.2
      rw [← h.1, List.length_append, List.length_cons]
      omega
  · simp only [Nat.add_zero, hdrop] at h
    split_ifs at h with hz
    · simp at h
    · simp only [Reach.mk.injEq] at h
      exact hfinish digits behind (.whole hd (List.length_pos_iff.mp (by omega))) h.1 h.2

/-- Conversely, what is passed as a whole literal is one. -/
theorem unsigned_of_reach {n : Nat} (h : unsignedReach cs = ⟨n, true⟩) : Unsigned (cs.take n) := by
  rw [unsignedReach.eq_def] at h
  split at h
  · rename_i x cs
    split_ifs at h with hx
    · simp only [Reach.mk.injEq, decide_eq_true_eq] at h
      obtain ⟨rfl, hn⟩ := h
      have htake : cs.take (cs.takeWhile isHexDigit).length = cs.takeWhile isHexDigit :=
        (List.prefix_iff_eq_take.mp (List.takeWhile_prefix _)).symm
      rw [Nat.add_comm, List.take_succ_cons, List.take_succ_cons, htake]
      exact .hexadecimal hx (fun c hc => List.mem_takeWhile_imp hc) (List.length_pos_iff.mp hn)
    · exact decimal_of_reach h
  · exact decimal_of_reach h

/-- What is read is a literal, the text behind it stops, and nothing is left out. -/
theorem literal_of_read {literal : List Char} (h : readLiteral cs = .ok literal) :
    IsLiteral literal ∧ ∃ rest, cs = literal ++ rest ∧ Stops isLiteralChar rest := by
  rw [readLiteral] at h
  split_ifs at h with hc
  rw [Bool.and_eq_true, Bool.not_eq_true'] at hc
  have hl : cs.take (reach cs).length = literal := by simpa using h
  obtain ⟨sign, body, rfl, hs, hsign⟩ := exists_sign cs
  have hdrop : (sign ++ body).drop sign.length = body := List.drop_left
  have hreach : reach (sign ++ body) =
      ⟨sign.length + (unsignedReach body).length, (unsignedReach body).complete⟩ := by
    rw [reach]
    simp only [hsign, hdrop]
  rw [hreach] at hl hc
  refine ⟨?_, (sign ++ body).drop (reach (sign ++ body)).length, ?_, ?_⟩
  · rw [← hl, List.take_length_add_append]
    exact .signed hs (unsigned_of_reach (by rw [← hc.1]))
  · rw [← hl, hreach, List.take_append_drop]
  · rw [hreach]
    exact Text.stops_iff.mpr hc.2

/-- Texts that are literals are those that the reader takes as they are. -/
theorem isLiteral_iff : IsLiteral cs ↔ (readLiteral cs).toOption = some cs := by
  constructor
  · intro h
    have hread := readLiteral_eq_ok h Text.stops_nil
    rw [List.append_nil] at hread
    rw [hread]
    rfl
  · intro h
    cases hread : readLiteral cs with
    | error word => simp [hread, Except.toOption] at h
    | ok literal =>
      obtain rfl : literal = cs := by simpa [hread, Except.toOption] using h
      exact (literal_of_read hread).1

instance (cs : List Char) : Decidable (IsLiteral cs) := decidable_of_iff _ isLiteral_iff.symm

end Overlay.Number
