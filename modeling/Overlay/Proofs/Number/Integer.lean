import Mathlib.Data.List.Induction
import Mathlib.Data.Nat.Digits.Defs
import Overlay.Fragment.Reading
import Overlay.Proofs.Number.Decimal
import Overlay.Proofs.Token.Lex

namespace Overlay.Number
open Text (Stops)

def figures : List Char := "0123456789abcdef".toList

def magnitude (base : Nat) (digits : List Char) : Nat :=
  Nat.ofDigits base (digits.reverse.map fun c => figures.idxOf c.toLower)

def withSign (sign : List Char) (n : Nat) : Int := if sign = ['-'] then -n else n

/-- A hexadecimal literal, taken apart. -/
structure Hexadecimal (sign digits cs : List Char) : Prop where
  isSign : Sign sign
  areDigits : ∀ c ∈ digits, isHexDigit c = true
  ne_nil : digits ≠ []
  marked : ∃ x, (x = 'x' ∨ x = 'X') ∧ cs = sign ++ '0' :: x :: digits

/-- A literal with neither a point nor an exponent stands for a whole number. -/
inductive Denotes (cs : List Char) : Int → Prop
  | decimal {sign digits : List Char} (hs : Sign sign) (hd : Digits digits) (hn : digits ≠ [])
      (he : cs = sign ++ digits) : Denotes cs (withSign sign (magnitude 10 digits))
  | hexadecimal {sign digits : List Char} (h : Hexadecimal sign digits cs) :
      Denotes cs (withSign sign (magnitude 16 digits))

/-- Hexadecimal literals with a plus, and those too large for a word even without their sign. -/
def Unread (cs : List Char) : Prop :=
  ∃ sign digits, Hexadecimal sign digits cs ∧ (sign = ['+'] ∨ 2 ^ 63 ≤ magnitude 16 digits)

variable {sign digits cs rest : List Char} {base : Nat} {n : Int}

theorem isSign_iff {c : Char} : isSign c = true ↔ c = '+' ∨ c = '-' := by
  rw [isSign, Bool.or_eq_true, beq_iff_eq, beq_iff_eq]

theorem isHexDigit_of_isDigit {c : Char} (h : c.isDigit = true) : isHexDigit c = true := by
  rw [isHexDigit, h, Bool.true_or, Bool.true_or]

theorem digitValue_eq_idxOf {c : Char} (h : isHexDigit c = true) :
    digitValue c = figures.idxOf c.toLower := by
  have hall : ∀ n < 128, isHexDigit (Char.ofNat n) = true →
      digitValue (Char.ofNat n) = figures.idxOf (Char.ofNat n).toLower := by decide
  have hsmall : c.toNat < 128 := by
    rcases isLiteralChar_iff.mp (isLiteralChar_of_isHexDigit h) with h | h | h | rfl | rfl
    · omega
    · omega
    · omega
    · decide
    · decide
  rw [← Char.ofNat_toNat c] at h ⊢
  exact hall c.toNat hsmall h

/-- Adding up digits from the front gives what they stand for at their places. -/
theorem ofDigits_eq_magnitude (hd : ∀ c ∈ digits, isHexDigit c = true) :
    ofDigits base digits = magnitude base digits := by
  induction digits using List.reverseRecOn with
  | nil => rfl
  | append_singleton ds d ih =>
    obtain ⟨hds, hlast⟩ := List.forall_mem_append.mp hd
    have hlast := digitValue_eq_idxOf (hlast d List.mem_cons_self)
    have hds : ds.foldl (fun n d => n * base + digitValue d) 0 = magnitude base ds := ih hds
    calc ofDigits base (ds ++ [d])
        = magnitude base ds * base + figures.idxOf d.toLower := by
          rw [ofDigits, List.foldl_append, List.foldl_cons, List.foldl_nil, hds, hlast]
      _ = magnitude base (ds ++ [d]) := by
          rw [magnitude, magnitude, List.reverse_append, List.reverse_singleton,
            List.singleton_append, List.map_cons, Nat.ofDigits_cons, Nat.mul_comm, Nat.add_comm]

theorem fitsWord_iff : fitsWord n = true ↔ -2 ^ 63 ≤ n ∧ n ≤ 2 ^ 63 - 1 := by
  have hword : (twoTo 63 : Int) = 2 ^ 63 := rfl
  rw [fitsWord, Bool.and_eq_true, decide_eq_true_iff, decide_eq_true_iff, hword]
  omega

theorem fitsWord_withSign (sign : List Char) {m : Nat} (hm : ¬2 ^ 63 ≤ m) :
    fitsWord (withSign sign m) = true := by
  rw [fitsWord_iff, withSign]
  split_ifs <;> omega

/-- A sign in front is taken off, and only a minus is remembered. -/
theorem splitSign_eq (hs : Sign sign) (hr : Stops isSign rest) :
    splitSign (sign ++ rest) = (decide (sign = ['-']), rest) := by
  rcases hs with rfl | ⟨c, hc, rfl⟩
  · cases rest with
    | nil => rfl
    | cons c cs =>
      have hc : c ≠ '+' ∧ c ≠ '-' := by simpa [isSign] using hr
      rw [List.nil_append, splitSign.eq_def]
      split
      · exact absurd (List.cons.inj ‹_›).1 hc.2
      · exact absurd (List.cons.inj ‹_›).1 hc.1
      · rfl
  · rcases isSign_iff.mp hc with rfl | rfl <;> rfl

/-- Every text is a sign, possibly none, and what is behind it. -/
theorem splitSign_spec (cs : List Char) : ∃ sign rest, cs = sign ++ rest ∧ Sign sign ∧
    splitSign cs = (decide (sign = ['-']), rest) := by
  rw [splitSign.eq_def]
  split
  · exact ⟨['-'], _, rfl, .inr ⟨'-', rfl, rfl⟩, rfl⟩
  · exact ⟨['+'], _, rfl, .inr ⟨'+', rfl, rfl⟩, rfl⟩
  · exact ⟨[], _, rfl, .inl rfl, rfl⟩

theorem stops_sign {isDigit : Char → Bool} (hp : ∀ c, isDigit c = true → isHexDigit c = true)
    (hd : ∀ c ∈ digits, isDigit c = true) : Stops isSign digits := by
  intro c hc
  have hdigit := hp c (hd c (List.mem_of_mem_head? hc))
  by_contra hsign
  rw [Bool.not_eq_false] at hsign
  rcases isSign_iff.mp hsign with rfl | rfl <;> exact absurd hdigit (by decide)

theorem stops_unsigned {body : List Char} (hb : Unsigned body) : Stops isSign body := by
  obtain ⟨c, cs, rfl, hc⟩ := unsigned_first hb
  rw [Text.stops_cons]
  rcases hc with hc | ⟨rfl, -⟩
  · exact not_isSign_of_isDigit hc
  · decide

/-- A sign and digits are read if the number fits into a word, and nothing else is. -/
theorem signed_eq_some_iff {isDigit : Char → Bool}
    (hp : ∀ c, isDigit c = true → isHexDigit c = true) :
    signed? base isDigit cs = some n ↔ ∃ sign digits, cs = sign ++ digits ∧ Sign sign ∧
      (∀ c ∈ digits, isDigit c = true) ∧ digits ≠ [] ∧ n = withSign sign (magnitude base digits) ∧
      fitsWord n = true := by
  -- on digits, what is computed is the magnitude with its sign
  have hread (sign digits : List Char) (hd : ∀ c ∈ digits, isDigit c = true) :
      (if decide (sign = ['-']) then -(ofDigits base digits : Int) else ofDigits base digits) =
        withSign sign (magnitude base digits) := by
    rw [ofDigits_eq_magnitude fun c hc => hp c (hd c hc), withSign]
    simp only [decide_eq_true_eq]
  constructor
  · intro h
    obtain ⟨sign, digits, rfl, hs, hsplit⟩ := splitSign_spec cs
    rw [signed?, hsplit] at h
    simp only at h
    rw [Option.ite_none_left_eq_some] at h
    obtain ⟨hbad, h⟩ := h
    rw [Bool.or_eq_true, List.isEmpty_iff, Bool.not_eq_true', not_or, Bool.not_eq_false,
      List.all_eq_true] at hbad
    obtain ⟨hn, hd⟩ := hbad
    rw [hread sign digits hd, Option.ite_none_right_eq_some, Option.some_inj] at h
    obtain ⟨hfits, rfl⟩ := h
    exact ⟨sign, digits, rfl, hs, hd, hn, rfl, hfits⟩
  · rintro ⟨sign, digits, rfl, hs, hd, hn, rfl, hfits⟩
    have hgood : ¬(digits.isEmpty || !digits.all isDigit) = true := by
      rw [Bool.or_eq_true, List.isEmpty_iff, Bool.not_eq_true', not_or, Bool.not_eq_false,
        List.all_eq_true]
      exact ⟨hn, hd⟩
    rw [signed?, splitSign_eq hs (stops_sign hp hd)]
    simp only
    rw [if_neg hgood, hread sign digits hd, if_pos hfits]

/-- What is read as a decimal whole number: an optional sign, digits, and a number that fits. -/
theorem decimal_eq_some_iff : decimal? cs = some n ↔ ∃ sign digits, cs = sign ++ digits ∧
    Sign sign ∧ Digits digits ∧ digits ≠ [] ∧ n = withSign sign (magnitude 10 digits) ∧
    fitsWord n = true :=
  signed_eq_some_iff fun _ => isHexDigit_of_isDigit

/-- Digits behind the mark of hexadecimal ones are read if their magnitude fits into a word. -/
theorem hexBody_eq {x : Char} (hx : x = 'x' ∨ x = 'X') (hd : ∀ c ∈ digits, isHexDigit c = true)
    (hn : digits ≠ []) : hexBody? ('0' :: x :: digits) =
      if 2 ^ 63 ≤ magnitude 16 digits then none else some (magnitude 16 digits : Int) := by
  have hvalue : withSign [] (magnitude 16 digits) = magnitude 16 digits := if_neg (by simp)
  rw [hexBody?, if_pos hx]
  split_ifs with hm
  · rw [Option.eq_none_iff_forall_ne_some]
    intro n h
    obtain ⟨sign, ds, he, hs, -, -, rfl, hfits⟩ := (signed_eq_some_iff fun _ h => h).mp h
    -- no digit is a sign, so there is none
    obtain rfl : sign = [] := by
      rcases hs with rfl | ⟨c, hc, rfl⟩
      · rfl
      · have hstop := stops_sign (fun _ h => h) hd c (by rw [he]; rfl)
        rw [hc] at hstop
        exact absurd hstop (by simp)
    obtain rfl : digits = ds := he
    rw [hvalue, fitsWord_iff] at hfits
    omega
  · have hfits : fitsWord (magnitude 16 digits : Int) = true := by
      rw [fitsWord_iff]
      omega
    exact (signed_eq_some_iff fun _ h => h).mpr
      ⟨[], digits, rfl, .inl rfl, hd, hn, hvalue.symm, hfits⟩

theorem hexBody_of_second (h : ∀ x cs', cs = '0' :: x :: cs' → ¬(x = 'x' ∨ x = 'X')) :
    hexBody? cs = none := by
  rw [hexBody?.eq_def]
  split
  · rename_i x cs'
    rw [if_neg (h x cs' rfl)]
  · rfl

theorem hex_of_plain (h : cs.head? ≠ some '-') : hex? cs = hexBody? cs := by
  rw [hex?.eq_def]
  split
  · exact absurd rfl h
  · rfl

/-- The magnitude of a literal is no negative number, so its negative is never out of range. -/
theorem bmod_neg {m : Nat} (hm : m < 2 ^ 63) : Int.bmod (-(m : Int)) (twoTo 64) = -m := by
  have hword : twoTo 64 = 2 ^ 64 := rfl
  rw [hword]
  apply Int.bmod_eq_of_le <;> omega

/-- A plus is not taken in front of `0x`, and neither is a magnitude that does not fit without its
sign. -/
theorem hex_of_hexadecimal (h : Hexadecimal sign digits cs) : hex? cs =
    if sign = ['+'] ∨ 2 ^ 63 ≤ magnitude 16 digits then none
    else some (withSign sign (magnitude 16 digits)) := by
  obtain ⟨x, hx, rfl⟩ := h.marked
  have hbody := hexBody_eq hx h.areDigits h.ne_nil
  rcases h.isSign with rfl | ⟨c, hc, rfl⟩
  · rw [List.nil_append, hex_of_plain (by simp), hbody]
    by_cases hm : 2 ^ 63 ≤ magnitude 16 digits
    · rw [if_pos hm, if_pos (.inr hm)]
    · rw [if_neg hm, if_neg (not_or.mpr ⟨by simp, hm⟩), withSign, if_neg (by simp)]
  · rcases isSign_iff.mp hc with rfl | rfl
    · rw [if_pos (.inl rfl), List.singleton_append, hex_of_plain (by simp)]
      exact hexBody_of_second fun x cs' he => absurd (List.cons.inj he).1 (by decide)
    · rw [List.singleton_append, hex?, hbody]
      by_cases hm : 2 ^ 63 ≤ magnitude 16 digits
      · rw [if_pos hm, if_pos (.inr hm), Option.map_none]
      · rw [if_neg hm, if_neg (not_or.mpr ⟨by decide, hm⟩), Option.map_some,
          bmod_neg (Nat.not_le.mp hm), withSign, if_pos rfl]

/-- A decimal literal is not read as a hexadecimal one. -/
theorem hex_of_decimal {mantissa exponent : List Char} (hs : Sign sign) (hm : Mantissa mantissa)
    (he : Exponent exponent) : hex? (sign ++ (mantissa ++ exponent)) = none := by
  have hbody : hexBody? (mantissa ++ exponent) = none := by
    apply hexBody_of_second
    intro x cs' h
    exact second_of_decimal hm he Text.stops_nil (by rwa [List.append_nil])
  rcases hs with rfl | ⟨c, hc, rfl⟩
  · rw [List.nil_append, hex_of_plain, hbody]
    intro hminus
    exact absurd (stops_unsigned (.decimal hm he) '-' hminus) (by decide)
  · rcases isSign_iff.mp hc with rfl | rfl
    · rw [List.singleton_append, hex_of_plain (by simp)]
      exact hexBody_of_second fun x cs' he => absurd (List.cons.inj he).1 (by decide)
    · rw [List.singleton_append, hex?, hbody]
      rfl

theorem Hexadecimal.split (h : Hexadecimal sign digits cs) : ∃ x, (x = 'x' ∨ x = 'X') ∧
    cs = sign ++ '0' :: x :: digits ∧
    splitSign cs = (decide (sign = ['-']), '0' :: x :: digits) := by
  obtain ⟨x, hx, rfl⟩ := h.marked
  exact ⟨x, hx, rfl, splitSign_eq h.isSign (Text.stops_cons.mpr (by decide))⟩

/-- A literal can be taken apart in one way only. -/
theorem Hexadecimal.unique {sign' digits' : List Char} (h : Hexadecimal sign digits cs)
    (h' : Hexadecimal sign' digits' cs) : sign = sign' ∧ digits = digits' := by
  obtain ⟨x, -, heq, hsplit⟩ := h.split
  obtain ⟨x', -, heq', hsplit'⟩ := h'.split
  have hrest : '0' :: x :: digits = '0' :: x' :: digits' :=
    (Prod.mk.inj (hsplit.symm.trans hsplit')).2
  rw [heq, hrest] at heq'
  exact ⟨List.append_cancel_right heq', (List.cons.inj (List.cons.inj hrest).2).2⟩

/-- A decimal literal has no mark behind its first digit. -/
theorem not_hexadecimal {sign' ds mantissa exponent : List Char} (hs : Sign sign)
    (hm : Mantissa mantissa) (he : Exponent exponent) :
    ¬Hexadecimal sign' ds (sign ++ (mantissa ++ exponent)) := by
  intro h
  obtain ⟨x, hx, -, hsplit⟩ := h.split
  rw [splitSign_eq hs (stops_unsigned (.decimal hm he))] at hsplit
  have hbody : mantissa ++ exponent = '0' :: x :: ds := (Prod.mk.inj hsplit).2
  exact second_of_decimal hm he Text.stops_nil (by rwa [List.append_nil]) hx

theorem not_hexadecimal_digits {sign' ds : List Char} (hs : Sign sign) (hd : Digits digits)
    (hn : digits ≠ []) : ¬Hexadecimal sign' ds (sign ++ digits) := by
  have h : ¬Hexadecimal sign' ds (sign ++ (digits ++ [])) :=
    not_hexadecimal hs (.whole hd hn) .absent
  rwa [List.append_nil] at h

/-- A hexadecimal literal denotes the magnitude of its digits behind its sign. -/
theorem Hexadecimal.denotes_iff (h : Hexadecimal sign digits cs) :
    Denotes cs n ↔ n = withSign sign (magnitude 16 digits) := by
  constructor
  · rintro (⟨hs, hd, hn, rfl⟩ | ⟨h'⟩)
    · exact absurd h (not_hexadecimal_digits hs hd hn)
    · obtain ⟨rfl, rfl⟩ := h.unique h'
      rfl
  · rintro rfl
    exact .hexadecimal h

theorem Hexadecimal.unread_iff (h : Hexadecimal sign digits cs) :
    Unread cs ↔ sign = ['+'] ∨ 2 ^ 63 ≤ magnitude 16 digits := by
  constructor
  · rintro ⟨sign', digits', h', hbad⟩
    obtain ⟨rfl, rfl⟩ := h.unique h'
    exact hbad
  · intro hbad
    exact ⟨sign, digits, h, hbad⟩

/-- A literal is hexadecimal or decimal. -/
theorem literal_cases (h : IsLiteral cs) : (∃ sign digits, Hexadecimal sign digits cs) ∨
    ∃ sign mantissa exponent, cs = sign ++ (mantissa ++ exponent) ∧ Sign sign ∧
      Mantissa mantissa ∧ Exponent exponent := by
  obtain ⟨hs, hb⟩ := h
  cases hb with
  | hexadecimal hx hd hn => exact .inl ⟨_, _, hs, hd, hn, _, hx, rfl⟩
  | decimal hm he => exact .inr ⟨_, _, _, rfl, hs, hm, he⟩

theorem integer_eq (literal : String) :
    integer? literal = (hex? literal.toList).or (decimal? literal.toList) := by
  rw [integer?]
  cases hex? literal.toList <;> rfl

theorem integer_of_hexadecimal {literal : String}
    (h : Hexadecimal sign digits literal.toList) : integer? literal = hex? literal.toList := by
  have hdecimal : decimal? literal.toList = none := by
    rw [Option.eq_none_iff_forall_ne_some]
    intro m hread
    obtain ⟨sign', ds, heq, hs, hd, hn, -⟩ := decimal_eq_some_iff.mp hread
    exact not_hexadecimal_digits hs hd hn (heq ▸ h)
  rw [integer_eq, hdecimal, Option.or_none]

/-- What is read of a literal is what it stands for, and all that fits into a word is read but for
the hexadecimal literals with a plus and the least word. -/
theorem integer_eq_some_iff {literal : String} (h : IsLiteral literal.toList) :
    integer? literal = some n ↔ Denotes literal.toList n ∧ (-2 ^ 63 ≤ n ∧ n ≤ 2 ^ 63 - 1) ∧
      ¬Unread literal.toList := by
  rw [← fitsWord_iff]
  rcases literal_cases h with ⟨sign, digits, hhex⟩ | ⟨sign, mantissa, exponent, heq, hs, hm, he⟩
  · rw [integer_of_hexadecimal hhex, hex_of_hexadecimal hhex, hhex.denotes_iff, hhex.unread_iff,
      Option.ite_none_left_eq_some, Option.some_inj]
    constructor
    · rintro ⟨hread, rfl⟩
      exact ⟨rfl, fitsWord_withSign sign (not_or.mp hread).2, hread⟩
    · rintro ⟨rfl, -, hread⟩
      exact ⟨hread, rfl⟩
  · have hhex : hex? literal.toList = none := by rw [heq, hex_of_decimal hs hm he]
    rw [integer_eq, hhex, Option.none_or, decimal_eq_some_iff]
    constructor
    · rintro ⟨sign', ds, heq', hs', hd, hn, rfl, hfits⟩
      refine ⟨.decimal hs' hd hn heq', hfits, ?_⟩
      rintro ⟨sign'', digits, h', -⟩
      exact not_hexadecimal_digits hs' hd hn (heq' ▸ h')
    · rintro ⟨⟨hs', hd, hn, heq'⟩ | ⟨h'⟩, hfits, hread⟩
      · exact ⟨_, _, heq', hs', hd, hn, rfl, hfits⟩
      · rw [heq] at h'
        exact absurd h' (not_hexadecimal hs hm he)

/-- The minus is put to the magnitude of a literal without leaving the range of words. -/
theorem body_in_range {body : List Char} {v : Int} (h : IsLiteral ('-' :: body))
    (hv : hexBody? body = some v) : -2 ^ 63 ≤ -v ∧ -v ≤ 2 ^ 63 - 1 := by
  rcases literal_cases h with ⟨sign, digits, hhex⟩ | ⟨sign, mantissa, exponent, heq, hs, hm, he⟩
  · obtain ⟨x, hx, heq, hsplit⟩ := hhex.split
    obtain rfl : body = '0' :: x :: digits := (Prod.mk.inj hsplit).2
    rw [hexBody_eq hx hhex.areDigits hhex.ne_nil, Option.ite_none_left_eq_some,
      Option.some_inj] at hv
    omega
  · have hhex := hex_of_decimal hs hm he
    rw [← heq, hex?, hv] at hhex
    exact absurd hhex (Option.some_ne_none _)

/-- A number among the tokens of a text is read as a whole number exactly if it stands for one that
fits into a word, unless it is one of the unread hexadecimal literals. -/
theorem integer_of_token {text : String} {lexemes : Lexemes} {l : Lexeme} {literal : String}
    (h : lex text = .ok lexemes) (hl : l ∈ lexemes.list) (ht : l.token = .number literal) :
    (∀ n, (Scalar.number literal).integer? = some n ↔
        Denotes literal.toList n ∧ (-2 ^ 63 ≤ n ∧ n ≤ 2 ^ 63 - 1) ∧ ¬Unread literal.toList) ∧
      ∀ body v, literal.toList = '-' :: body → hexBody? body = some v →
        -2 ^ 63 ≤ -v ∧ -v ≤ 2 ^ 63 - 1 := by
  have hproper := proper_of_lexFrom h l hl
  rw [ht] at hproper
  have hliteral : IsLiteral literal.toList := hproper
  refine ⟨fun n => integer_eq_some_iff hliteral, ?_⟩
  intro body v hminus hv
  rw [hminus] at hliteral
  exact body_in_range hliteral hv

/-- The largest magnitude that is read, with digits in both cases. -/
theorem integer_of_token_negative :
    lex "-0x7FFFffffFFFFffff" = .ok ⟨[⟨.number "-0x7FFFffffFFFFffff", ⟨0, 1, 1⟩⟩], ⟨19, 1, 20⟩⟩ ∧
      (Scalar.number "-0x7FFFffffFFFFffff").integer? = some (-9223372036854775807) := by
  have hlex : lex "-0x7FFFffffFFFFffff" =
      .ok ⟨[⟨.number "-0x7FFFffffFFFFffff", ⟨0, 1, 1⟩⟩], ⟨19, 1, 20⟩⟩ := by decide +kernel
  have hhex : Hexadecimal ['-'] "7FFFffffFFFFffff".toList "-0x7FFFffffFFFFffff".toList :=
    ⟨.inr ⟨'-', rfl, rfl⟩, List.all_eq_true.mp (by decide), by decide, 'x', .inl rfl, rfl⟩
  have hvalue : magnitude 16 "7FFFffffFFFFffff".toList = 9223372036854775807 := by decide +kernel
  obtain ⟨hread, -⟩ := integer_of_token hlex (List.mem_singleton_self _) rfl
  refine ⟨hlex, (hread _).mpr ⟨?_, by decide, ?_⟩⟩
  · rw [hhex.denotes_iff, hvalue]
    rfl
  · rw [hhex.unread_iff, hvalue]
    decide

/-- A plus in front of a hexadecimal literal, and the least word. -/
theorem hexadecimal_missed :
    lex "+0x10 -0x8000000000000000" = .ok ⟨[⟨.number "+0x10", ⟨0, 1, 1⟩⟩,
      ⟨.number "-0x8000000000000000", ⟨6, 1, 7⟩⟩], ⟨25, 1, 26⟩⟩ ∧
    Denotes "+0x10".toList 16 ∧ (Scalar.number "+0x10").integer? = none ∧
    Denotes "-0x8000000000000000".toList (-2 ^ 63) ∧
      (Scalar.number "-0x8000000000000000").integer? = none := by
  have hplus : Hexadecimal ['+'] "10".toList "+0x10".toList :=
    ⟨.inr ⟨'+', rfl, rfl⟩, List.all_eq_true.mp (by decide), by decide, 'x', .inl rfl, rfl⟩
  have hleast : Hexadecimal ['-'] "8000000000000000".toList "-0x8000000000000000".toList :=
    ⟨.inr ⟨'-', rfl, rfl⟩, List.all_eq_true.mp (by decide), by decide, 'x', .inl rfl, rfl⟩
  exact ⟨by decide +kernel, hplus.denotes_iff.mpr (by decide +kernel), by decide +kernel,
    hleast.denotes_iff.mpr (by decide +kernel), by decide +kernel⟩

end Overlay.Number
