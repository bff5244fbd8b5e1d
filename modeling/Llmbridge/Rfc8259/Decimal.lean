import Llmbridge.Rfc8259.Grammar

/-!
# Decimal digits

A natural number written in decimal, as bytes.  The text is a number of the grammar,
and reading its digits back gives the number.
-/

namespace Llmbridge
namespace Rfc8259

/-- The decimal digits of a number. -/
def decimalDigits (n : Nat) : Bytes :=
  (Nat.toDigits 10 n).map fun c => c.toUInt8

theorem digit_byte {d : Char} (digit : d.isDigit = true) :
    (d.toUInt8).toNat = d.toNat ∧ 48 ≤ d.toNat ∧ d.toNat ≤ 57 := by
  have range : 48 ≤ d.toNat ∧ d.toNat ≤ 57 := by
    unfold Char.isDigit at digit
    rw [Bool.and_eq_true, decide_eq_true_iff, decide_eq_true_iff] at digit
    exact ⟨UInt32.le_iff_toNat_le.mp digit.1, UInt32.le_iff_toNat_le.mp digit.2⟩
  refine ⟨?_, range⟩
  unfold Char.toUInt8
  rw [UInt32.toNat_toUInt8]
  exact Nat.mod_eq_of_lt (by have := range.2; unfold Char.toNat at this; omega)

theorem decimalDigits_isDigit (n : Nat) : ∀ c ∈ decimalDigits n, isDigit c = true := by
  intro c member
  obtain ⟨d, listed, rfl⟩ := List.mem_map.mp member
  obtain ⟨same, low, high⟩ :=
    digit_byte (Nat.isDigit_of_mem_toDigits (by decide) (by decide) listed)
  unfold isDigit
  rw [Bool.and_eq_true, decide_eq_true_iff, decide_eq_true_iff, UInt8.le_iff_toNat_le,
    UInt8.le_iff_toNat_le, same]
  exact ⟨low, high⟩

theorem decimalDigits_ne_nil (n : Nat) : decimalDigits n ≠ [] := by
  unfold decimalDigits
  rw [ne_eq, List.map_eq_nil_iff]
  exact Nat.toDigits_ne_nil

theorem decimalDigits_length_le {n k : Nat} (positive : 0 < k) (small : n < 10 ^ k) :
    (decimalDigits n).length ≤ k := by
  unfold decimalDigits
  rw [List.length_map]
  exact (Nat.length_toDigits_le_iff (by decide) positive).mpr small

/-- The digits write the number. -/
theorem decimalDigits_value (n : Nat) :
    (decimalDigits n).foldl (fun m c => m * 10 + (c.toNat - 0x30)) 0 = n := by
  have chars : ∀ ds : List Char, (∀ d ∈ ds, d.isDigit = true) → ∀ m : Nat,
      (ds.map fun d => d.toUInt8).foldl (fun m c => m * 10 + (c.toNat - 0x30)) m =
        Nat.ofDigitChars 10 ds m := by
    intro ds
    induction ds with
    | nil =>
        intro _ m
        rw [Nat.ofDigitChars_nil]
        rfl
    | cons d ds inductionHypothesis =>
        intro digits m
        have here := digit_byte (digits d List.mem_cons_self)
        rw [List.map_cons, List.foldl_cons, Nat.ofDigitChars_cons, here.1, Nat.mul_comm m 10]
        exact inductionHypothesis (fun e member => digits e (List.mem_cons_of_mem d member)) _
  unfold decimalDigits
  rw [chars _ fun d member => Nat.isDigit_of_mem_toDigits (by decide) (by decide) member]
  exact Nat.ofDigitChars_ten_toDigits

theorem decimalDigits_step {n : Nat} (large : 10 ≤ n) :
    decimalDigits n = decimalDigits (n / 10) ++ decimalDigits (n % 10) := by
  unfold decimalDigits
  rw [Nat.toDigits_of_base_le (by decide) large,
    Nat.toDigits_of_lt_base (Nat.mod_lt n (by decide)), List.map_append]

/-- Only the number zero is written with a leading zero. -/
theorem decimalDigits_head {n : Nat} (positive : 0 < n) :
    (decimalDigits n).head? ≠ some 0x30 := by
  induction n using Nat.strongRecOn with
  | _ n inductionHypothesis =>
      by_cases large : 10 ≤ n
      · rw [decimalDigits_step large, List.head?_append_of_ne_nil _ (decimalDigits_ne_nil _)]
        exact inductionHypothesis (n / 10) (by omega) (by omega)
      · have small : ∀ m < 10, 0 < m → (decimalDigits m).head? ≠ some 0x30 := by decide
        exact small n (by omega) positive

/-- The digits are the `int` of a number. -/
theorem decimalDigits_isInt (n : Nat) : IsInt (decimalDigits n) := by
  cases Nat.eq_zero_or_pos n with
  | inl zero =>
      rw [zero]
      exact Or.inl rfl
  | inr positive =>
      exact Or.inr ⟨⟨decimalDigits_ne_nil n, decimalDigits_isDigit n⟩,
        decimalDigits_head positive⟩

theorem decimalDigits_isNumber (n : Nat) : IsNumber (decimalDigits n) :=
  ⟨[], decimalDigits n, [], [], Or.inl rfl, decimalDigits_isInt n, Or.inl rfl, Or.inl rfl,
    by simp⟩

/-- The same behind a minus sign. -/
theorem minus_decimalDigits_isNumber (n : Nat) : IsNumber (0x2d :: decimalDigits n) :=
  ⟨[0x2d], decimalDigits n, [], [], Or.inr rfl, decimalDigits_isInt n, Or.inl rfl, Or.inl rfl,
    by simp⟩

end Rfc8259
end Llmbridge
