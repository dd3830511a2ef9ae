import Overlay.Number.Double
import Overlay.Proofs.Number.Integer

namespace Overlay.Number
open Text (Stops)

namespace Double

variable {sign digits mantissa exponent cs rest : List Char} {negative : Bool}

theorem exponent_first (he : Exponent exponent) : ∀ c ∈ exponent.head?, c = 'e' ∨ c = 'E' := by
  cases he with
  | absent => simp
  | present he hs hd hn =>
    intro c hc
    rwa [← Option.mem_some.mp hc]

theorem stops_exponent (he : Exponent exponent) : Stops Char.isDigit exponent := by
  intro c hc
  rcases exponent_first he c hc with rfl | rfl <;> decide

theorem readExponent_exponent (he : Exponent exponent) : ∃ k, readExponent? exponent = some k := by
  cases he with
  | absent => exact ⟨0, rfl⟩
  | @present e sign digits he hs hd hn =>
    have hsplit := splitSign_eq hs (stops_sign (fun _ => isHexDigit_of_isDigit) hd)
    have hdigits : digits.all Char.isDigit = true := List.all_eq_true.mpr hd
    have hsome : digits.isEmpty = false := List.isEmpty_eq_false_iff.mpr hn
    rw [readExponent?, hsplit]
    simp only [he, hdigits, hsome, Bool.not_false, and_self, if_true]
    exact ⟨_, rfl⟩

/-- Digits without a point denote themselves, times the power of ten behind them. -/
theorem readDecimal_whole (hd : Digits digits) (hn : digits ≠ []) (he : Exponent exponent) :
    readDecimal? (digits ++ exponent) =
      (readExponent? exponent).map fun k => (ofDigits 10 digits, k - 0) := by
  have hwhole := Text.takeWhile_run hd (stops_exponent he)
  have hbehind := Text.dropWhile_run hd (stops_exponent he)
  have hnone : digits.isEmpty = false := List.isEmpty_eq_false_iff.mpr hn
  rw [readDecimal?]
  simp only [hwhole, hbehind]
  split
  · -- an exponent does not begin with a point
    rename_i ds
    rcases exponent_first he '.' rfl with h | h <;> exact absurd h (by decide)
  · simp [hnone]

/-- Digits around a point, with the exponent lowered by the digits behind the point. -/
theorem readDecimal_pointed {fraction : List Char} (hd : Digits digits) (hf : Digits fraction)
    (hn : digits ≠ [] ∨ fraction ≠ []) (he : Exponent exponent) :
    readDecimal? (digits ++ '.' :: fraction ++ exponent) =
      (readExponent? exponent).map fun k =>
        (ofDigits 10 (digits ++ fraction), k - (fraction.length : Int)) := by
  have hpoint : Stops Char.isDigit ('.' :: (fraction ++ exponent)) :=
    Text.stops_cons.mpr (by decide)
  have hwhole := Text.takeWhile_run hd hpoint
  have hbehind := Text.dropWhile_run hd hpoint
  have hfraction := Text.takeWhile_run hf (stops_exponent he)
  have hrest := Text.dropWhile_run hf (stops_exponent he)
  have hsome : ¬(digits.isEmpty && fraction.isEmpty) = true := by
    rw [Bool.and_eq_true, List.isEmpty_iff, List.isEmpty_iff]
    rintro ⟨hw, hf⟩
    exact hn.elim (fun h => h hw) (fun h => h hf)
  rw [List.append_assoc, List.cons_append, readDecimal?]
  simp only [hwhole, hbehind, hfraction, hrest]
  rw [if_neg hsome]

theorem readDecimal_decimal (hm : Mantissa mantissa) (he : Exponent exponent) :
    ∃ n k, readDecimal? (mantissa ++ exponent) = some (n, k) := by
  obtain ⟨k, hk⟩ := readExponent_exponent he
  cases hm with
  | whole hd hn =>
    rw [readDecimal_whole hd hn he, hk]
    exact ⟨_, _, rfl⟩
  | pointed hd hf hn =>
    rw [readDecimal_pointed hd hf hn he, hk]
    exact ⟨_, _, rfl⟩

/-- Behind the zero of a hexadecimal literal there is neither a point nor an exponent. -/
theorem readDecimal_hexadecimal {x : Char} (hx : x = 'x' ∨ x = 'X') (digits : List Char) :
    readDecimal? ('0' :: x :: digits) = none := by
  have hzero : Digits ['0'] := by simp [Digits]
  have hmark : Stops Char.isDigit (x :: digits) := by
    rcases hx with rfl | rfl <;> exact Text.stops_cons.mpr (by decide)
  have hwhole := Text.takeWhile_run hzero hmark
  have hbehind := Text.dropWhile_run hzero hmark
  have hexponent : readExponent? (x :: digits) = none := by
    rcases hx with rfl | rfl <;> simp [readExponent?]
  rw [List.singleton_append] at hwhole hbehind
  rw [readDecimal?]
  simp only [hwhole, hbehind]
  split
  · rcases hx with rfl | rfl <;> simp_all
  · simp [hexponent]

/-- What begins with a digit or a point is none of the words for numbers that are not finite. -/
theorem read_signed {body : List Char} (hs : Sign sign) (hb : Unsigned body) :
    read? (sign ++ body) = (readDecimal? body).map fun (n, k) =>
      ofDecimal (decide (sign = ['-'])) n k := by
  have hsplit := splitSign_eq hs (stops_unsigned hb)
  obtain ⟨c, cs, rfl, hc⟩ := unsigned_first hb
  have hc : c.isDigit = true ∨ c = '.' := hc.imp_right And.left
  -- digits and the point have no lower case of their own
  have hlower : c.toLower = c := by
    have hall : ∀ n < 58, (Char.ofNat n).toLower = Char.ofNat n := by decide
    have hsmall : c.toNat < 58 := by
      rcases hc with hc | rfl
      · exact Nat.lt_succ_of_le (isDigit_iff.mp hc).2
      · decide
    rw [← Char.ofNat_toNat c]
    exact hall c.toNat hsmall
  have hword (d : Char) (ds : List Char) (hd : d.isAlpha = true) :
      String.ofList ((c :: cs).map Char.toLower) ≠ String.ofList (d :: ds) := by
    rw [List.map_cons, hlower, Ne, String.ofList_inj, List.cons.injEq, not_and_or]
    left
    rintro rfl
    rcases hc with hc | rfl
    · rw [isAlpha_iff] at hd
      rw [isDigit_iff] at hc
      omega
    · exact absurd hd (by decide)
  have hinf := hword 'i' ['n', 'f'] (by decide)
  have hinfinity := hword 'i' ['n', 'f', 'i', 'n', 'i', 't', 'y'] (by decide)
  have hnan := hword 'n' ['a', 'n'] (by decide)
  rw [read?, hsplit]
  simp only
  rw [if_neg (not_or.mpr ⟨hinf, hinfinity⟩), if_neg hnan]

theorem ofRatio_eq (negative : Bool) {num : Nat} (den : Nat) (h : num ≠ 0) :
    ∃ m e, e ≤ exponentOf num den + 1 ∧ ofRatio negative num den =
      if maxExponent < e then infinite negative else finite negative m e := by
  rw [ofRatio, if_neg h]
  -- neither the exponent nor the fraction may be unfolded from here on
  generalize exponentOf num den = exponent
  extract_lets e
  generalize scaled num den e = fraction
  obtain ⟨n, d⟩ := fraction
  dsimp only
  generalize divRound n d = mantissa
  by_cases hfull : mantissa = twoTo 53
  · rw [if_pos hfull]
    exact ⟨twoTo 52, e + 1, by omega, rfl⟩
  · rw [if_neg hfull]
    exact ⟨mantissa, e, by omega, rfl⟩

/-- A fraction is rounded to a finite number or to an infinite one of its sign. -/
theorem ofRatio_cases (negative : Bool) (num den : Nat) :
    (ofRatio negative num den).isFinite = true ∨ ofRatio negative num den = infinite negative := by
  by_cases hz : num = 0
  · left
    rw [ofRatio, if_pos hz]
    rfl
  · obtain ⟨m, e, -, heq⟩ := ofRatio_eq negative den hz
    rw [heq]
    split_ifs
    · exact .inr rfl
    · exact .inl rfl

/-- Whole numbers that fit into a word are far from the largest finite number. -/
theorem isFinite_ofRatio {n : Nat} (hn : n ≤ 2 ^ 64) : (ofRatio negative n 1).isFinite = true := by
  by_cases hz : n = 0
  · rw [ofRatio, if_pos hz]
    rfl
  · have hlog : n.log2 < 65 := (Nat.log2_lt hz).mpr (by omega)
    have hone : Nat.log2 1 = 0 := by decide
    have hexponent : exponentOf n 1 ≤ 12 := by
      rw [exponentOf, hone, minExponent]
      generalize n.log2 = log at hlog
      generalize hguess : (log : Int) - (0 : Nat) - 53 = guess
      generalize scaled n 1 guess = fraction
      obtain ⟨num, den⟩ := fraction
      dsimp only
      split_ifs <;> omega
    have hmax : maxExponent = 971 := rfl
    obtain ⟨m, e, he, heq⟩ := ofRatio_eq negative 1 hz
    rw [heq, if_neg (by omega)]
    rfl

theorem isFinite_ofInt {n : Int} (h : fitsWord n = true) : (ofInt n).isFinite = true := by
  rw [fitsWord_iff] at h
  exact isFinite_ofRatio (by omega)

/-- A decimal is a finite number or an infinite one. -/
theorem ofDecimal_cases (negative : Bool) (n : Nat) (k : Int) :
    (ofDecimal negative n k).isFinite = true ∨ ofDecimal negative n k = infinite negative := by
  rw [ofDecimal]
  split_ifs
  · exact .inl rfl
  · exact .inr rfl
  · exact ofRatio_cases negative _ _
  · exact .inl rfl
  · exact ofRatio_cases negative _ _

theorem isFinite_ofDecimal {n : Nat} (hn : n ≤ 2 ^ 64) :
    (ofDecimal negative n 0).isFinite = true := by
  have hone : tenTo (0 : Int).toNat = 1 := rfl
  rw [ofDecimal]
  split_ifs with hz hk
  · rfl
  · exact absurd hk (by decide)
  · rw [hone, Nat.mul_one]
    exact isFinite_ofRatio hn
  · contradiction
  · contradiction

end Double

variable {sign digits : List Char} {literal : String} {n : Int} {d : Double}

/-- A hexadecimal literal is read as its whole number, if it has no plus and fits. -/
theorem double_of_hexadecimal (h : Hexadecimal sign digits literal.toList) :
    double? literal = if sign = ['+'] ∨ 2 ^ 63 ≤ magnitude 16 digits then none
      else some (.ofInt (withSign sign (magnitude 16 digits))) := by
  rw [double?, hex_of_hexadecimal h]
  split_ifs with hbad
  · obtain ⟨x, hx, heq⟩ := h.marked
    simp only
    rw [heq, Double.read_signed h.isSign (.hexadecimal hx h.areDigits h.ne_nil),
      Double.readDecimal_hexadecimal hx, Option.map_none]
  · rfl

/-- A decimal literal is read as the decimal behind its sign. -/
theorem double_of_decimal {mantissa exponent : List Char}
    (heq : literal.toList = sign ++ (mantissa ++ exponent)) (hs : Sign sign)
    (hm : Mantissa mantissa) (he : Exponent exponent) :
    double? literal = (Double.readDecimal? (mantissa ++ exponent)).map fun (n, k) =>
      .ofDecimal (decide (sign = ['-'])) n k := by
  rw [double?, heq, hex_of_decimal hs hm he]
  exact Double.read_signed hs (.decimal hm he)

/-- Every literal is read as a floating-point number but the unread hexadecimal ones. -/
theorem double_eq_none_iff (h : IsLiteral literal.toList) :
    double? literal = none ↔ Unread literal.toList := by
  rcases literal_cases h with ⟨sign, digits, hhex⟩ | ⟨sign, mantissa, exponent, heq, hs, hm, he⟩
  · rw [double_of_hexadecimal hhex, hhex.unread_iff, ite_eq_left_iff]
    simp only [reduceCtorEq, imp_false, not_not]
  · obtain ⟨n, k, hread⟩ := Double.readDecimal_decimal hm he
    rw [double_of_decimal heq hs hm he, hread, Option.map_some]
    refine iff_of_false (Option.some_ne_none _) ?_
    rintro ⟨sign', digits, hhex, -⟩
    rw [heq] at hhex
    exact not_hexadecimal hs hm he hhex

theorem isFinite_of_hexadecimal (h : Hexadecimal sign digits literal.toList)
    (hd : double? literal = some d) : d.isFinite = true := by
  rw [double_of_hexadecimal h, Option.ite_none_left_eq_some, Option.some_inj] at hd
  obtain ⟨hread, rfl⟩ := hd
  exact Double.isFinite_ofInt (fitsWord_withSign sign (not_or.mp hread).2)

/-- A literal is never read as NaN. -/
theorem double_cases (h : IsLiteral literal.toList) (hd : double? literal = some d) :
    d.isFinite = true ∨ ∃ negative, d = .infinite negative := by
  rcases literal_cases h with ⟨sign, digits, hhex⟩ | ⟨sign, mantissa, exponent, heq, hs, hm, he⟩
  · exact .inl (isFinite_of_hexadecimal hhex hd)
  · obtain ⟨n, k, hread⟩ := Double.readDecimal_decimal hm he
    rw [double_of_decimal heq hs hm he, hread, Option.map_some, Option.some_inj] at hd
    obtain rfl := hd
    exact (Double.ofDecimal_cases _ n k).imp_right fun h => ⟨_, h⟩

/-- What can be read as a whole number is finite as a floating-point number. -/
theorem isFinite_of_integer (h : IsLiteral literal.toList) (hi : integer? literal = some n)
    (hd : double? literal = some d) : d.isFinite = true := by
  obtain ⟨⟨hs, hdigits, hn, heq⟩ | ⟨hhex⟩, hfits, -⟩ := (integer_eq_some_iff h).mp hi
  · rename_i sign digits
    -- the whole number is what the digits denote, so it is as small as that of the integer
    have hmagnitude : ofDigits 10 digits = magnitude 10 digits :=
      ofDigits_eq_magnitude fun c hc => isHexDigit_of_isDigit (hdigits c hc)
    have hsmall : ofDigits 10 digits ≤ 2 ^ 64 := by
      rw [withSign] at hfits
      split_ifs at hfits <;> omega
    have hparts : literal.toList = sign ++ (digits ++ []) := by rwa [List.append_nil]
    have hdecimal := double_of_decimal hparts hs (.whole hdigits hn) .absent
    rw [Double.readDecimal_whole hdigits hn .absent, hd] at hdecimal
    obtain rfl := Option.some.inj hdecimal
    exact Double.isFinite_ofDecimal hsmall
  · exact isFinite_of_hexadecimal hhex hd

end Overlay.Number
