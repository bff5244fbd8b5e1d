import Llmbridge.Rfc8259.Grammar

/-!
# The value of a number

A number of the grammar taken apart into its digits and its exponent, and the rational
that it writes.
-/

namespace Llmbridge
namespace Rfc8259

/-! ## Digits -/

/-- The number that decimal digits write. -/
def digitsNat (ds : Bytes) : Nat :=
  ds.foldl (fun m c => m * 10 + (c.toNat - 0x30)) 0

/-- The digits from the first one that is not zero. -/
def significant (ds : Bytes) : Bytes :=
  ds.dropWhile (· == 0x30)

@[simp] theorem digitsNat_nil : digitsNat [] = 0 := rfl

@[simp] theorem significant_nil : significant [] = [] := rfl

theorem digitsNat_foldl (ds : Bytes) (m : Nat) :
    ds.foldl (fun m c => m * 10 + (c.toNat - 0x30)) m = m * 10 ^ ds.length + digitsNat ds := by
  induction ds generalizing m with
  | nil => simp
  | cons d ds inductionHypothesis =>
      unfold digitsNat
      rw [List.foldl_cons, List.foldl_cons, inductionHypothesis, inductionHypothesis,
        List.length_cons, pow_succ]
      ring

theorem digitsNat_append (first second : Bytes) :
    digitsNat (first ++ second) = digitsNat first * 10 ^ second.length + digitsNat second := by
  rw [digitsNat, List.foldl_append, digitsNat_foldl]
  rfl

theorem digitsNat_cons (d : Byte) (ds : Bytes) :
    digitsNat (d :: ds) = (d.toNat - 0x30) * 10 ^ ds.length + digitsNat ds := by
  have split := digitsNat_append [d] ds
  simpa [digitsNat] using split

theorem digit_bounds {d : Byte} (digit : isDigit d = true) :
    0x30 ≤ d.toNat ∧ d.toNat ≤ 0x39 := by
  rw [isDigit, Bool.and_eq_true, decide_eq_true_iff, decide_eq_true_iff,
    UInt8.le_iff_toNat_le, UInt8.le_iff_toNat_le] at digit
  exact digit

theorem digitsNat_lt {ds : Bytes} (digits : ∀ d ∈ ds, isDigit d = true) :
    digitsNat ds < 10 ^ ds.length := by
  induction ds with
  | nil => decide
  | cons d ds inductionHypothesis =>
      have rest := inductionHypothesis fun c member => digits c (List.mem_cons_of_mem d member)
      have bounds := digit_bounds (digits d List.mem_cons_self)
      have first : (d.toNat - 0x30) * 10 ^ ds.length ≤ 9 * 10 ^ ds.length :=
        Nat.mul_le_mul_right _ (by omega)
      rw [digitsNat_cons, List.length_cons, pow_succ]
      omega

/-- Leading zeros add nothing. -/
theorem digitsNat_significant (ds : Bytes) : digitsNat (significant ds) = digitsNat ds := by
  induction ds with
  | nil => rfl
  | cons d ds inductionHypothesis =>
      by_cases zero : d = 0x30
      · rw [zero, digitsNat_cons, ← inductionHypothesis]
        simp [significant]
      · simp [significant, zero]

theorem significant_suffix (ds : Bytes) : significant ds <:+ ds :=
  List.dropWhile_suffix _

theorem significant_isDigit {ds : Bytes} (digits : ∀ d ∈ ds, isDigit d = true) :
    ∀ d ∈ significant ds, isDigit d = true :=
  fun d member => digits d ((significant_suffix ds).mem member)

theorem significant_head {ds more : Bytes} {d : Byte} (shape : significant ds = d :: more) :
    d ≠ 0x30 := by
  have head := List.head_dropWhile_not (· == (0x30 : Byte)) (l := ds)
    (by rw [significant] at shape; simp [shape])
  rw [significant] at shape
  simpa [shape] using head

/-- Digits that begin with a significant one have that many places. -/
theorem digitsNat_ge {d : Byte} {ds : Bytes} (digit : isDigit d = true) (lead : d ≠ 0x30) :
    10 ^ ds.length ≤ digitsNat (d :: ds) := by
  have bounds := digit_bounds digit
  have other : d.toNat ≠ 0x30 := by
    intro same
    exact lead (UInt8.toNat_inj.mp same)
  have first : 1 * 10 ^ ds.length ≤ (d.toNat - 0x30) * 10 ^ ds.length :=
    Nat.mul_le_mul_right _ (by omega)
  rw [digitsNat_cons]
  omega

/-- Digits that write zero are zeros. -/
theorem digitsNat_eq_zero_iff {ds : Bytes} (digits : ∀ d ∈ ds, isDigit d = true) :
    digitsNat ds = 0 ↔ significant ds = [] := by
  constructor
  · intro zero
    cases shape : significant ds with
    | nil => rfl
    | cons d more =>
        have digit := significant_isDigit digits d (by rw [shape]; exact List.mem_cons_self)
        have large := @digitsNat_ge _ more digit (significant_head shape)
        rw [← shape, digitsNat_significant, zero] at large
        exact absurd large (Nat.not_le.mpr (by positivity))
  · intro none
    rw [← digitsNat_significant, none]
    rfl

/-! ## Numbers taken apart -/

/-- An exponent of the grammar. -/
structure Exponent where
  mark : Byte
  sign : Bytes
  digits : Bytes
  marked : mark = 0x65 ∨ mark = 0x45
  signed : sign = [] ∨ sign = [0x2b] ∨ sign = [0x2d]
  ok : IsDigits digits

namespace Exponent

def text (x : Exponent) : Bytes :=
  x.mark :: (x.sign ++ x.digits)

/-- Its size as written. -/
def size (x : Exponent) : Nat :=
  digitsNat x.digits

abbrev Negative (x : Exponent) : Prop :=
  x.sign = [0x2d]

def value (x : Exponent) : Int :=
  if x.Negative then -x.size else x.size

end Exponent

/-- A number of the grammar: the digits before and behind its point, and its
exponent. -/
structure NumberText where
  negative : Bool
  int : Bytes
  frac : Bytes
  exp : Option Exponent
  intOk : IsInt int
  fracOk : ∀ d ∈ frac, isDigit d = true

namespace NumberText

/-- The point and the digits behind it. -/
def fracText (n : NumberText) : Bytes :=
  if n.frac = [] then [] else 0x2e :: n.frac

def expText (n : NumberText) : Bytes :=
  n.exp.elim [] Exponent.text

def text (n : NumberText) : Bytes :=
  (if n.negative then [0x2d] else []) ++ (n.int ++ (n.fracText ++ n.expText))

/-- All its digits. -/
def digits (n : NumberText) : Bytes :=
  n.int ++ n.frac

/-- The power of ten of its exponent. -/
def exponent (n : NumberText) : Int :=
  n.exp.elim 0 Exponent.value

/-- The rational it writes. -/
def value (n : NumberText) : ℚ :=
  (if n.negative then -1 else 1) * (digitsNat n.digits * 10 ^ (n.exponent - n.frac.length))

theorem int_digits (n : NumberText) : ∀ d ∈ n.int, isDigit d = true := by
  rcases n.intOk with zero | ⟨digits, -⟩
  · rw [zero]
    intro d member
    rw [List.mem_singleton.mp member]
    rfl
  · exact digits.2

theorem int_ne_nil (n : NumberText) : n.int ≠ [] := by
  rcases n.intOk with zero | ⟨digits, -⟩
  · rw [zero]
    decide
  · exact digits.1

theorem isDigits (n : NumberText) : ∀ d ∈ n.digits, isDigit d = true := by
  intro d member
  rcases List.mem_append.mp member with inInt | inFrac
  · exact n.int_digits d inInt
  · exact n.fracOk d inFrac

end NumberText

/-- The numbers of the grammar are those with such parts. -/
theorem isNumber_iff (s : Bytes) : IsNumber s ↔ ∃ n : NumberText, n.text = s := by
  constructor
  · rintro ⟨minus, int, frac, exp, minusOk, intOk, fracOk, expOk, rfl⟩
    obtain ⟨digits, fracDigits, fracSame⟩ : ∃ digits : Bytes,
        (∀ d ∈ digits, isDigit d = true) ∧
          frac = if digits = [] then [] else 0x2e :: digits := by
      rcases fracOk with rfl | ⟨digits, ok, rfl⟩
      · exact ⟨[], by simp, rfl⟩
      · exact ⟨digits, ok.2, (if_neg ok.1).symm⟩
    obtain ⟨x, expSame⟩ : ∃ x : Option Exponent, exp = x.elim [] Exponent.text := by
      rcases expOk with rfl | ⟨e, sign, digits, marked, signed, ok, rfl⟩
      · exact ⟨none, rfl⟩
      · exact ⟨some ⟨e, sign, digits, marked, signed, ok⟩, rfl⟩
    obtain ⟨negative, minusSame⟩ : ∃ negative : Bool,
        minus = if negative then [0x2d] else [] := by
      rcases minusOk with rfl | rfl
      · exact ⟨false, rfl⟩
      · exact ⟨true, rfl⟩
    refine ⟨⟨negative, int, digits, x, intOk, fracDigits⟩, ?_⟩
    rw [fracSame, expSame, minusSame]
    rfl
  · rintro ⟨n, rfl⟩
    refine ⟨_, n.int, n.fracText, n.expText, ?_, n.intOk, ?_, ?_, rfl⟩
    · cases n.negative
      · exact Or.inl rfl
      · exact Or.inr rfl
    · unfold NumberText.fracText
      split
      · exact Or.inl rfl
      · next digits => exact Or.inr ⟨n.frac, ⟨digits, n.fracOk⟩, rfl⟩
    · unfold NumberText.expText
      cases n.exp with
      | none => exact Or.inl rfl
      | some x => exact Or.inr ⟨x.mark, x.sign, x.digits, x.marked, x.signed, x.ok, rfl⟩

/-! ## Comparing with a power of ten -/

/-- A number of `places` digits moved until its first digit stands at `place`. -/
theorem moved_le_one_iff {m places : Nat} {place : Int} (low : 10 ^ places ≤ m)
    (high : m < 10 ^ (places + 1)) :
    (m : ℚ) * 10 ^ (place - places) ≤ 1 ↔ place < 0 ∨ (place = 0 ∧ m = 10 ^ places) := by
  have ten : (10 : ℚ) ≠ 0 := by norm_num
  have lowQ : (10 : ℚ) ^ (places : Int) ≤ m := by exact_mod_cast low
  have highQ : (m : ℚ) < 10 ^ ((places : Int) + 1) := by exact_mod_cast high
  have positive : (0 : ℚ) < 10 ^ (place - places) := by positivity
  have lower : (10 : ℚ) ^ place ≤ m * 10 ^ (place - places) := by
    calc (10 : ℚ) ^ place = 10 ^ (places : Int) * 10 ^ (place - places) := by
          rw [← zpow_add₀ ten]
          congr 1
          omega
      _ ≤ m * 10 ^ (place - places) := by gcongr
  have upper : (m : ℚ) * 10 ^ (place - places) < 10 ^ (place + 1) := by
    calc (m : ℚ) * 10 ^ (place - places)
        < 10 ^ ((places : Int) + 1) * 10 ^ (place - places) := by gcongr
      _ = 10 ^ (place + 1) := by
          rw [← zpow_add₀ ten]
          congr 1
          omega
  rcases lt_trichotomy place 0 with below | here | above
  · have small : (10 : ℚ) ^ (place + 1) ≤ 1 := zpow_le_one_of_nonpos₀ (by norm_num) (by omega)
    exact iff_of_true (upper.le.trans small) (Or.inl below)
  · subst here
    have moved : (m : ℚ) * 10 ^ ((0 : Int) - places) = m / 10 ^ places := by
      rw [zero_sub, zpow_neg, zpow_natCast, div_eq_mul_inv]
    rw [moved, div_le_one (by positivity)]
    constructor
    · intro le
      exact Or.inr ⟨rfl, Nat.le_antisymm (by exact_mod_cast le) low⟩
    · rintro (absurd_neg | ⟨-, same⟩)
      · exact absurd absurd_neg (lt_irrefl 0)
      · rw [same]
        exact_mod_cast Nat.le_refl _
  · have large : (1 : ℚ) < 10 ^ place := one_lt_zpow₀ (by norm_num) above
    refine iff_of_false (fun le => absurd (large.trans_le lower) (not_lt.mpr le)) ?_
    rintro (below | ⟨zero, -⟩)
    · omega
    · omega

end Rfc8259
end Llmbridge
