import Llmbridge.Provider.JsonScan
import Llmbridge.Rfc8259.Decimal

/-!
# Counts

`count` of `provider/src/json_scan.hpp` reads at most eighteen digits, so that what it
reads is below a bound, and it reads back what is written in decimal.
-/

namespace Llmbridge
namespace JsonScan

open Rfc8259

theorem digitValue_le {c : Byte} (digit : isDigit c = true) : digitValue c ≤ 9 := by
  simp only [isDigit, Bool.and_eq_true, decide_eq_true_eq, UInt8.le_iff_toNat_le] at digit
  have high : c.toNat ≤ 57 := digit.2
  rw [digitValue]
  omega

/-- Digits read behind a number keep it below a power of ten. -/
theorem digits_lt {raw : Bytes} (digits : ∀ c ∈ raw, isDigit c = true) :
    ∀ {v k : Nat}, v < 10 ^ k →
      raw.foldl (fun v c => v * 10 + digitValue c) v < 10 ^ (k + raw.length) := by
  induction raw with
  | nil => exact id
  | cons c rest inductionHypothesis =>
      intro v k small
      have digit := digitValue_le (digits c List.mem_cons_self)
      have next : v * 10 + digitValue c < 10 ^ (k + 1) := by
        rw [Nat.pow_succ]
        omega
      rw [List.foldl_cons, List.length_cons, Nat.add_comm rest.length, ← Nat.add_assoc]
      exact inductionHypothesis (fun d member => digits d (List.mem_cons_of_mem c member)) next

/-- A count is not stated, or has at most eighteen digits. -/
theorem count_bounds (raw : Bytes) : -1 ≤ count raw ∧ count raw < 10 ^ 18 := by
  unfold count
  split_ifs with none
  · omega
  · obtain ⟨-, short⟩ := not_or.mp none
    obtain ⟨short, digits⟩ := not_or.mp short
    rw [Bool.not_eq_false, List.all_eq_true] at digits
    have small := @digits_lt raw digits 0 0 (by decide)
    rw [Nat.zero_add] at small
    have le : 10 ^ raw.length ≤ 10 ^ 18 := Nat.pow_le_pow_right (by decide) (by omega)
    constructor
    · omega
    · exact_mod_cast lt_of_lt_of_le small le

/-- A number of at most eighteen digits is read back. -/
theorem count_decimalDigits {n : Nat} (small : n < 10 ^ 18) : count (decimalDigits n) = n := by
  have some : (decimalDigits n).isEmpty = false := by
    rw [List.isEmpty_eq_false_iff]
    exact decimalDigits_ne_nil n
  have short := decimalDigits_length_le (by decide) small
  have digits : (decimalDigits n).all isDigit = true :=
    List.all_eq_true.mpr (decimalDigits_isDigit n)
  unfold count
  rw [if_neg]
  · exact congrArg Nat.cast (decimalDigits_value n)
  · simp only [some, digits]
    simp only [Bool.false_eq_true, Bool.true_eq_false, or_false, false_or]
    omega

end JsonScan
end Llmbridge
