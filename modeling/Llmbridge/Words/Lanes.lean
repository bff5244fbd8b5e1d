import Llmbridge.Transition.Runs

/-!
# Bytes side by side in a word

A word holds a byte in each of its lanes, the first in the lowest.  Subtracting one byte
from every lane at once borrows from a lane only where a lower one was too small, so up to
there the lanes are subtracted each by itself.
-/

namespace Llmbridge
namespace Words

/-- The byte in a lane. -/
def lane (x k : Nat) : Nat :=
  x / 256 ^ k % 256

/-- One byte in every one of `n` lanes. -/
def fill (c : Nat) : Nat → Nat
  | 0 => 0
  | n + 1 => c + 256 * fill c n

/-- The word that holds these bytes. -/
def ofBytes : List UInt8 → Nat
  | [] => 0
  | b :: bytes => b.toNat + 256 * ofBytes bytes

theorem lane_lt (x k : Nat) : lane x k < 256 :=
  Nat.mod_lt _ (by decide)

theorem lane_zero (x : Nat) : lane x 0 = x % 256 := by
  simp [lane]

theorem lane_succ (x k : Nat) : lane x (k + 1) = lane (x / 256) k := by
  unfold lane
  rw [Nat.pow_succ, Nat.mul_comm, Nat.div_div_eq_div_mul]

/-! ## Words of bytes -/

theorem ofBytes_lt (bytes : List UInt8) : ofBytes bytes < 256 ^ bytes.length := by
  induction bytes with
  | nil => exact Nat.one_pos
  | cons b bytes inductionHypothesis =>
      have byte := b.toNat_lt
      rw [ofBytes, List.length_cons, Nat.pow_succ]
      omega

theorem lane_ofBytes {bytes : List UInt8} : ∀ {k : Nat}, k < bytes.length →
    lane (ofBytes bytes) k = (bytes.getD k 0).toNat := by
  induction bytes with
  | nil => exact fun {k} inside => absurd inside (Nat.not_lt_zero k)
  | cons b bytes inductionHypothesis =>
      intro k inside
      have byte := b.toNat_lt
      cases k with
      | zero =>
          rw [lane_zero, ofBytes, Nat.add_mul_mod_self_left, Nat.mod_eq_of_lt byte]
          rfl
      | succ k =>
          have rest : ofBytes (b :: bytes) / 256 = ofBytes bytes := by
            rw [ofBytes]
            omega
          rw [lane_succ, rest, inductionHypothesis (Nat.lt_of_succ_lt_succ inside)]
          rfl

theorem lane_fill (c : Nat) (small : c < 256) : ∀ {n k : Nat}, k < n → lane (fill c n) k = c := by
  intro n
  induction n with
  | zero => exact fun {k} inside => absurd inside (Nat.not_lt_zero k)
  | succ n inductionHypothesis =>
      intro k inside
      cases k with
      | zero =>
          rw [lane_zero, fill, Nat.add_mul_mod_self_left, Nat.mod_eq_of_lt small]
      | succ k =>
          have rest : fill c (n + 1) / 256 = fill c n := by
            rw [fill]
            omega
          rw [lane_succ, rest, inductionHypothesis (Nat.lt_of_succ_lt_succ inside)]

/-! ## Subtracting from every lane -/

theorem fill_lt {c : Nat} (small : c < 256) (n : Nat) : fill c n < 256 ^ n := by
  induction n with
  | zero => exact Nat.one_pos
  | succ n inductionHypothesis =>
      rw [fill, Nat.pow_succ]
      omega

/-- What `n` lanes hold once `c` was taken from each, with borrows between them. -/
def subtract (c n x : Nat) : Nat :=
  (256 ^ n - fill c n + x) % 256 ^ n

/-- The lowest lane lends nothing when it is large enough. -/
theorem subtract_succ {c n x : Nat} (small : c < 256) (enough : c ≤ x % 256) :
    subtract c (n + 1) x / 256 = subtract c n (x / 256) := by
  have below := fill_lt small n
  have split : 256 ^ (n + 1) - fill c (n + 1) + x =
      (x % 256 - c) + 256 * (256 ^ n - fill c n + x / 256) := by
    rw [fill, Nat.pow_succ]
    have parts := Nat.mod_add_div x 256
    omega
  unfold subtract
  rw [split, Nat.pow_succ, Nat.mul_comm (256 ^ n), Nat.mod_mul, Nat.add_mul_mod_self_left,
    Nat.add_mul_div_left _ _ (by decide : 0 < 256)]
  have lane : (x % 256 - c) < 256 := by omega
  rw [Nat.mod_eq_of_lt lane, Nat.div_eq_of_lt lane, Nat.zero_add,
    Nat.add_mul_div_left _ _ (by decide : 0 < 256), Nat.div_eq_of_lt lane, Nat.zero_add]

/-- Up to the first lane that is too small, and in it, each lane is subtracted by itself. -/
theorem lane_subtract {c : Nat} (small : c < 256) : ∀ {k n x : Nat}, k < n →
    (∀ j < k, c ≤ lane x j) → lane (subtract c n x) k = (lane x k + 256 - c) % 256 := by
  intro k
  induction k with
  | zero =>
      intro n x inside _
      obtain ⟨m, rfl⟩ : ∃ m, n = m + 1 := ⟨n - 1, by omega⟩
      have below := fill_lt small m
      have split : 256 ^ (m + 1) - fill c (m + 1) + x =
          (x % 256 + 256 - c) + 256 * (256 ^ m - fill c m - 1 + x / 256) := by
        rw [fill, Nat.pow_succ]
        have parts := Nat.mod_add_div x 256
        omega
      rw [lane_zero, lane_zero]
      unfold subtract
      rw [Nat.pow_succ, Nat.mod_mod_of_dvd _ (Nat.dvd_mul_left 256 _), ← Nat.pow_succ, split,
        Nat.add_mul_mod_self_left]
  | succ k inductionHypothesis =>
      intro n x inside above
      obtain ⟨m, rfl⟩ : ∃ m, n = m + 1 := ⟨n - 1, by omega⟩
      have first : c ≤ x % 256 := by
        rw [← lane_zero]
        exact above 0 (Nat.succ_pos k)
      rw [lane_succ, lane_succ, subtract_succ small first]
      apply inductionHypothesis (Nat.lt_of_succ_lt_succ inside)
      intro j below
      rw [← lane_succ]
      exact above (j + 1) (Nat.succ_lt_succ below)

/-! ## Bits of lanes -/

/-- The highest bit of a lane. -/
theorem testBit_lane (x k : Nat) : x.testBit (8 * k + 7) = decide (128 ≤ lane x k) := by
  have bound := lane_lt x k
  have moved : x.testBit (8 * k + 7) = (lane x k).testBit 7 := by
    unfold lane
    rw [show 256 = 2 ^ 8 from rfl, ← Nat.pow_mul, Nat.testBit_mod_two_pow,
      Nat.testBit_div_two_pow, Nat.add_comm 7]
    simp
  rw [moved, Nat.testBit_eq_decide_div_mod_eq]
  apply decide_eq_decide.mpr
  omega

theorem lane_xor (x y k : Nat) : lane (x ^^^ y) k = lane x k ^^^ lane y k := by
  unfold lane
  rw [show 256 = 2 ^ 8 from rfl, ← Nat.pow_mul, ← Nat.shiftRight_eq_div_pow,
    ← Nat.shiftRight_eq_div_pow, ← Nat.shiftRight_eq_div_pow, Nat.shiftRight_xor_distrib,
    Nat.xor_mod_two_pow]

end Words
end Llmbridge
