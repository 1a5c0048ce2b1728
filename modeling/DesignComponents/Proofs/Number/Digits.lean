import Mathlib.Data.Nat.Notation
import Mathlib.Tactic.Common

/-! Decimal digits of numbers. There is at least one, and they start with no zero unless the number
is zero. A number that is read from digits only grows with more of them. -/

namespace DesignComponents

theorem isDigit_of_mem_toDigits {n : Nat} : ∀ c ∈ Nat.toDigits 10 n, c.isDigit = true := fun _ =>
  Nat.isDigit_of_mem_toDigits (by decide) (by decide)

theorem exists_toDigits_eq_cons (n : Nat) :
    ∃ c ds, Nat.toDigits 10 n = c :: ds ∧ c.isDigit = true ∧ (n ≠ 0 → c ≠ '0') := by
  have hdigit : ∀ n < 10, n.digitChar.isDigit = true ∧ (n ≠ 0 → n.digitChar ≠ '0') := by decide
  induction n using Nat.strongRecOn with
  | ind n ih =>
    rw [Nat.toDigits_eq_if (by decide)]
    split_ifs with hlt
    · exact ⟨n.digitChar, [], rfl, hdigit n hlt⟩
    · obtain ⟨c, ds, hcons, hc, hzero⟩ := ih (n / 10) (by omega)
      exact ⟨c, ds ++ [(n % 10).digitChar], by rw [hcons, List.cons_append], hc,
        fun _ => hzero (by omega)⟩

theorem le_ofDigitChars (cs : List Char) (n : Nat) : n ≤ Nat.ofDigitChars 10 cs n := by
  induction cs generalizing n with
  | nil => exact Nat.le_refl n
  | cons c cs ih =>
    rw [Nat.ofDigitChars_cons]
    have := ih (10 * n + (c.toNat - '0'.toNat))
    omega

end DesignComponents
