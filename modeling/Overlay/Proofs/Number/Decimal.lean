import Overlay.Number.Integer
import Overlay.Proofs.Number
import Mathlib.Data.List.Basic

namespace Overlay.Number

variable {ds : List Char}

theorem digitValue_eq {c : Char} (h : c.isDigit = true) : digitValue c = c.toNat - '0'.toNat :=
  if_pos h

theorem ofDigits_eq (hd : Digits ds) : ofDigits 10 ds = Nat.ofDigitChars 10 ds 0 := by
  rw [ofDigits, Nat.ofDigitChars]
  apply List.foldl_ext
  intro n c hc
  rw [digitValue_eq (hd c hc), Nat.mul_comm]

theorem toList_toString (n : Nat) : (toString n).toList = Nat.toDigits 10 n := by
  rw [Nat.toString_eq_repr, Nat.toList_repr]

theorem digits_toString (n : Nat) : Digits (toString n).toList := by
  intro c hc
  rw [toList_toString] at hc
  exact Nat.isDigit_of_mem_toDigits (by decide) (by decide) hc

theorem toString_ne_nil (n : Nat) : (toString n).toList ≠ [] := by
  rw [toList_toString]
  exact Nat.toDigits_ne_nil

/-- The digits of a number denote it. -/
theorem ofDigits_toString (n : Nat) : ofDigits 10 (toString n).toList = n := by
  rw [ofDigits_eq (digits_toString n), toList_toString]
  exact Nat.ofDigitChars_toDigits (by decide) (by decide)

theorem head_toString {n : Nat} (hn : 0 < n) : (toString n).toList.head? ≠ some '0' := by
  induction n using Nat.strong_induction_on with
  | _ n ih =>
    rw [toList_toString]
    by_cases h : n < 10
    · rw [Nat.toDigits_of_lt_base h, List.head?_cons]
      intro hzero
      have hvalue := Nat.toNat_digitChar_of_lt_ten h
      rw [Option.some.inj hzero] at hvalue
      have : '0'.toNat = 48 := rfl
      omega
    · -- more digits stand behind those of a smaller number
      have hsmaller := ih (n / 10) (by omega) (by omega)
      rw [toList_toString] at hsmaller
      rw [Nat.toDigits_of_base_le (by decide) (by omega),
        List.head?_append_of_ne_nil _ Nat.toDigits_ne_nil]
      exact hsmaller

end Overlay.Number
