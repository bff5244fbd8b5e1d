import Llmbridge.Rfc8259.NumberValue
import Llmbridge.Provider.StringEscapes
import Llmbridge.Provider.TranslateRequest

/-!
# The numbers between zero and one

`unit_interval` compares a number with one by the place of its first significant digit.
It reads at most the first six significant digits of an exponent, and is wrong on the
numbers whose digits stand farther from the point than those say.
-/

namespace Llmbridge
namespace Translate

open Rfc8259

/-! ## The digits -/

@[simp] theorem UnitScan.byte_point (s : UnitScan) : s.byte 0x2e = s := rfl

/-- Zeros ahead only move the place. -/
theorem UnitScan.zeros (s : UnitScan) (none : s.lead = 0) : ∀ {zeros : Bytes},
    (∀ d ∈ zeros, d = 0x30) →
      zeros.foldl UnitScan.byte s = { s with place := s.place - zeros.length } := by
  intro zeros
  induction zeros generalizing s with
  | nil => simp
  | cons d zeros inductionHypothesis =>
      intro all
      have zero := all d List.mem_cons_self
      have step : s.byte d = { s with place := s.place - 1 } := by
        rw [zero]
        simp [UnitScan.byte]
      rw [List.foldl_cons, step,
        inductionHypothesis { s with place := s.place - 1 } none fun c member =>
          all c (List.mem_cons_of_mem d member)]
      simp only [List.length_cons, Nat.cast_add, Nat.cast_one]
      congr 1
      omega

/-- After the first significant digit only the tail can change. -/
theorem UnitScan.digits (s : UnitScan) (found : s.lead ≠ 0) : ∀ {ds : Bytes},
    (∀ d ∈ ds, isDigit d = true) →
      ds.foldl UnitScan.byte s =
        { s with
          tail := s.tail || ds.any (· != 0x30)
          place := s.place - ds.length } := by
  intro ds
  induction ds generalizing s with
  | nil => simp
  | cons d ds inductionHypothesis =>
      intro all
      have digit := all d List.mem_cons_self
      have notPoint : d ≠ 0x2e := by
        rintro rfl
        exact absurd digit (by decide)
      have step : s.byte d =
          { s with tail := s.tail || d != 0x30, place := s.place - 1 } := by
        have marked : (s.lead != 0) = true := bne_iff_ne.mpr found
        simp [UnitScan.byte, notPoint, found, marked]
      rw [List.foldl_cons, step,
        inductionHypothesis { s with tail := s.tail || d != 0x30, place := s.place - 1 } found
          fun c member => all c (List.mem_cons_of_mem d member)]
      simp only [List.length_cons, Nat.cast_add, Nat.cast_one, List.any_cons, Bool.or_assoc]
      congr 1
      omega

/-- What the scan knows of a number's digits: the first significant one, its place and
whether another follows that is not zero. -/
theorem UnitScan.reads {ds : Bytes} (all : ∀ d ∈ ds, isDigit d = true) (place : Int) :
    (significant ds = [] → (ds.foldl UnitScan.byte { place }).lead = 0) ∧
      ∀ d more, significant ds = d :: more →
        (ds.foldl UnitScan.byte { place }).lead = d ∧
          (ds.foldl UnitScan.byte { place }).tail = more.any (· != 0x30) ∧
          (ds.foldl UnitScan.byte { place }).pos = place - (ds.length - (more.length + 1)) := by
  have zeros : ∀ d ∈ ds.takeWhile (· == 0x30), d = 0x30 := by
    intro d member
    simpa using List.mem_takeWhile_imp member
  have split : ds = ds.takeWhile (· == 0x30) ++ significant ds :=
    (List.takeWhile_append_dropWhile).symm
  have begins : ds.foldl UnitScan.byte { place } =
      (significant ds).foldl UnitScan.byte
        { place := place - (ds.takeWhile (· == 0x30)).length } := by
    conv_lhs => rw [split]
    rw [List.foldl_append, UnitScan.zeros _ rfl zeros]
  rw [begins]
  constructor
  · intro nothing
    rw [nothing]
    rfl
  · intro d more shape
    have digit := significant_isDigit all d (by rw [shape]; exact List.mem_cons_self)
    have lead := significant_head shape
    have later : ∀ c ∈ more, isDigit c = true := fun c member =>
      significant_isDigit all c (by rw [shape]; exact List.mem_cons_of_mem d member)
    have notPoint : d ≠ 0x2e := by
      rintro rfl
      exact absurd digit (by decide)
    have notNul : d ≠ 0 := by
      rintro rfl
      exact absurd digit (by decide)
    have lengths := congrArg List.length split
    rw [shape, List.length_append, List.length_cons] at lengths
    have step : ∀ place : Int, UnitScan.byte { place } d =
        { pos := place, lead := d, tail := false, place := place - 1 } := by
      intro place
      simp [UnitScan.byte, notPoint, lead]
    rw [shape, List.foldl_cons, step, UnitScan.digits _ notNul later]
    refine ⟨rfl, Bool.false_or _, ?_⟩
    dsimp only
    omega

/-! ## The exponent -/

/-- The first six significant digits of an exponent, as a number. -/
def sixDigits (ds : Bytes) : Nat :=
  digitsNat ((significant ds).take 6)

/-- Digits after significant ones are read until there are six. -/
theorem exponentByte_digits {d : Byte} {minus : Bool} (lead : d ≠ 0x30) :
    ∀ {ds front : Bytes}, (∀ c ∈ d :: (front ++ ds), isDigit c = true) → front.length < 6 →
      ds.foldl exponentByte (digitsNat (d :: front), minus) =
        ((digitsNat ((d :: (front ++ ds)).take 6) : Int), minus) := by
  intro ds
  induction ds with
  | nil =>
      intro front _ short
      rw [List.append_nil, List.take_of_length_le (by simpa using short)]
      rfl
  | cons c ds inductionHypothesis =>
      intro front all short
      have frontDigits : ∀ b ∈ d :: front, isDigit b = true := by
        intro b member
        apply all
        rw [← List.cons_append]
        exact List.mem_append_left _ member
      have digit : isDigit c = true :=
        all c (List.mem_cons_of_mem d (List.mem_append_right _ List.mem_cons_self))
      have bounds := digit_bounds digit
      have marks : c ≠ 0x2d ∧ c ≠ 0x2b := by
        constructor
        · rintro rfl
          exact absurd digit (by decide)
        · rintro rfl
          exact absurd digit (by decide)
      by_cases full : front.length = 5
      · -- The sixth digit was read, and this one is left out.
        have large := @digitsNat_ge _ front (frontDigits d List.mem_cons_self) lead
        rw [full] at large
        have step : exponentByte (digitsNat (d :: front), minus) c =
            ((digitsNat (d :: front) : Int), minus) := by
          rw [exponentByte, if_neg marks.1, if_neg]
          rintro ⟨-, small⟩
          dsimp only at small
          have small : digitsNat (d :: front) < 100000 := by exact_mod_cast small
          omega
        have same : ∀ more : Bytes, (d :: (front ++ more)).take 6 = d :: front := by
          intro more
          rw [← List.cons_append, List.take_append_of_le_length (by simp [full]),
            List.take_of_length_le (by simp [full])]
        have less : ∀ b ∈ d :: (front ++ ds), isDigit b = true := by
          intro b member
          rw [← List.cons_append] at member
          rcases List.mem_append.mp member with inFront | later
          · exact frontDigits b inFront
          · apply all
            exact List.mem_cons_of_mem d
              (List.mem_append_right _ (List.mem_cons_of_mem c later))
        rw [List.foldl_cons, step, inductionHypothesis less short, same, same]
      · have small := digitsNat_lt frontDigits
        have tight : (10 : Nat) ^ (d :: front).length ≤ 10 ^ 5 :=
          Nat.pow_le_pow_right (by decide) (by rw [List.length_cons]; omega)
        have step : exponentByte (digitsNat (d :: front), minus) c =
            ((digitsNat (d :: (front ++ [c])) : Int), minus) := by
          rw [exponentByte, if_neg marks.1, if_pos ⟨marks.2, by exact_mod_cast (by omega)⟩,
            ← List.cons_append, digitsNat_append]
          congr 1
          simp only [digitsNat, List.length_singleton, pow_one, List.foldl_cons, List.foldl_nil]
          push_cast
          omega
        have more : (front ++ [c]).length < 6 := by
          rw [List.length_append, List.length_singleton]
          omega
        rw [List.foldl_cons, step, inductionHypothesis (by simpa using all) more]
        simp

/-- The digits of an exponent, read. -/
theorem exponentByte_reads {ds : Bytes} (all : ∀ d ∈ ds, isDigit d = true) (minus : Bool) :
    ds.foldl exponentByte (0, minus) = ((sixDigits ds : Int), minus) := by
  induction ds with
  | nil => rfl
  | cons d ds inductionHypothesis =>
      have later : ∀ c ∈ ds, isDigit c = true := fun c member =>
        all c (List.mem_cons_of_mem d member)
      by_cases zero : d = 0x30
      · have same : sixDigits (d :: ds) = sixDigits ds := by
          rw [zero]
          simp [sixDigits, significant]
        rw [same, zero, List.foldl_cons]
        exact inductionHypothesis later
      · have digit := all d List.mem_cons_self
        have bounds := digit_bounds digit
        have step : exponentByte (0, minus) d = ((digitsNat [d] : Int), minus) := by
          have marks : d ≠ 0x2d ∧ d ≠ 0x2b := by
            constructor
            · rintro rfl
              exact absurd digit (by decide)
            · rintro rfl
              exact absurd digit (by decide)
          rw [exponentByte, if_neg marks.1, if_pos ⟨marks.2, by norm_num⟩]
          congr 1
          simp only [digitsNat, List.foldl_cons, List.foldl_nil]
          push_cast
          omega
        have whole : significant (d :: ds) = d :: ds := by
          simp [significant, zero]
        rw [List.foldl_cons, step, @exponentByte_digits _ _ zero _ [] all (by decide),
          sixDigits, whole]
        rfl

/-- At most six significant digits are all read. -/
theorem sixDigits_eq {ds : Bytes} (few : (significant ds).length ≤ 6) :
    sixDigits ds = digitsNat ds := by
  rw [sixDigits, List.take_of_length_le few, digitsNat_significant]

/-- More of them are more. -/
theorem sixDigits_lt {ds : Bytes} (all : ∀ d ∈ ds, isDigit d = true)
    (many : 6 < (significant ds).length) : sixDigits ds < digitsNat ds := by
  have parts := digitsNat_append ((significant ds).take 6) ((significant ds).drop 6)
  rw [List.take_append_drop, digitsNat_significant, List.length_drop] at parts
  obtain ⟨d, more, shape⟩ := List.exists_cons_of_length_pos (Nat.zero_lt_of_lt many)
  have positive : 0 < sixDigits ds := by
    have digit := significant_isDigit all d (by rw [shape]; exact List.mem_cons_self)
    have large := @digitsNat_ge _ (more.take 5) digit (significant_head shape)
    rw [sixDigits, shape]
    exact Nat.lt_of_lt_of_le (by positivity) large
  have power : 10 ^ 1 ≤ 10 ^ ((significant ds).length - 6) :=
    Nat.pow_le_pow_right (by decide) (by omega)
  have scaled : sixDigits ds * 10 ^ 1 ≤ sixDigits ds * 10 ^ ((significant ds).length - 6) :=
    Nat.mul_le_mul_left _ power
  rw [← sixDigits] at parts
  omega

/-! ## The comparison -/

/-- The power of ten of the first significant digit, before the exponent. -/
def place (n : NumberText) : Int :=
  (significant n.digits).length - 1 - n.frac.length

/-- The digits are a one and zeros. -/
def OneAndZeros (n : NumberText) : Prop :=
  (significant n.digits).head? = some 0x31 ∧ ∀ d ∈ (significant n.digits).tail, d = 0x30

/-- Digits whose first one the exponent moves to `shift` places from where it stands
write at most one. -/
def AtMostOne (n : NumberText) (shift : Int) : Prop :=
  place n + shift < 0 ∨ (place n + shift = 0 ∧ OneAndZeros n)

/-- What the code reads of an exponent. -/
def exponentRead (n : NumberText) : Int :=
  n.exp.elim 0 fun x => if x.Negative then -sixDigits x.digits else sixDigits x.digits

section Parts

variable (n : NumberText)

/-- A digit is none of the marks of a number. -/
theorem digit_marks {c : Byte} (digit : isDigit c = true) :
    c ≠ 0x2e ∧ c ≠ 0x65 ∧ c ≠ 0x45 ∧ c ≠ 0x2d := by
  refine ⟨?_, ?_, ?_, ?_⟩ <;>
    · rintro rfl
      exact absurd digit (by decide)

theorem expText_head {c : Byte} {more : Bytes} (shape : n.expText = c :: more) :
    c = 0x65 ∨ c = 0x45 := by
  unfold NumberText.expText at shape
  cases exp : n.exp with
  | none =>
      rw [exp] at shape
      exact absurd shape (by simp)
  | some x =>
      rw [exp] at shape
      obtain ⟨rfl, -⟩ := List.cons.inj shape
      exact x.marked

/-- The digits up to the exponent. -/
theorem mantissa_bytes {c : Byte} (member : c ∈ n.int ++ n.fracText) :
    isDigit c = true ∨ c = 0x2e := by
  rcases List.mem_append.mp member with inInt | inFrac
  · exact Or.inl (n.int_digits c inInt)
  · unfold NumberText.fracText at inFrac
    split at inFrac
    · exact absurd inFrac (by simp)
    · rcases List.mem_cons.mp inFrac with same | inFrac
      · exact Or.inr same
      · exact Or.inl (n.fracOk c inFrac)

/-- The sign, and the text behind it. -/
theorem text_sign :
    (n.text.head? = some 0x2d ↔ n.negative = true) ∧
      (if n.text.head? = some 0x2d then n.text.tail else n.text) =
        n.int ++ (n.fracText ++ n.expText) := by
  obtain ⟨first, others, shape⟩ := List.exists_cons_of_ne_nil n.int_ne_nil
  have digit : isDigit first = true :=
    n.int_digits first (by rw [shape]; exact List.mem_cons_self)
  obtain ⟨-, -, -, noMinus⟩ := digit_marks digit
  unfold NumberText.text
  cases n.negative with
  | false => simp [shape, noMinus]
  | true => simp

/-- A run ends where the bytes it takes end. -/
theorem takeWhile_until {q : Byte → Bool} {front rest : Bytes}
    (inside : ∀ c ∈ front, q c = true) (stop : ∀ c more, rest = c :: more → q c = false) :
    (front ++ rest).takeWhile q = front := by
  rw [List.takeWhile_append_of_pos inside]
  cases rest with
  | nil => simp
  | cons c rest => simp [stop c rest rfl]

theorem text_int : (n.int ++ (n.fracText ++ n.expText)).takeWhile
    (fun c => c != 0x2e && c != 0x65 && c != 0x45) = n.int := by
  apply takeWhile_until
  · intro c member
    obtain ⟨point, lower, upper, -⟩ := digit_marks (n.int_digits c member)
    simp [point, lower, upper]
  · intro c more shape
    by_cases whole : n.frac = []
    · rw [NumberText.fracText, if_pos whole] at shape
      rcases expText_head n shape with rfl | rfl
      · decide
      · decide
    · rw [NumberText.fracText, if_neg whole] at shape
      obtain ⟨rfl, -⟩ := List.cons.inj shape
      decide

theorem text_mantissa : (n.int ++ (n.fracText ++ n.expText)).takeWhile
    (fun c => c != 0x65 && c != 0x45) = n.int ++ n.fracText := by
  rw [← List.append_assoc]
  apply takeWhile_until
  · intro c member
    rcases mantissa_bytes n member with digit | rfl
    · obtain ⟨-, lower, upper, -⟩ := digit_marks digit
      simp [lower, upper]
    · decide
  · intro c more shape
    rcases expText_head n shape with rfl | rfl
    · decide
    · decide

theorem text_exponent :
    (n.int ++ (n.fracText ++ n.expText)).drop ((n.int ++ n.fracText).length + 1) =
      n.expText.tail := by
  rw [← List.append_assoc, ← List.drop_drop, List.drop_left, List.drop_one]

/-- The point is no digit. -/
theorem scan_digits (s : UnitScan) :
    (n.int ++ n.fracText).foldl UnitScan.byte s = n.digits.foldl UnitScan.byte s := by
  unfold NumberText.fracText NumberText.digits
  split
  · next whole => rw [whole]
  · rw [List.foldl_append, List.foldl_append, List.foldl_cons, UnitScan.byte_point]

/-- What is read behind the mark of the exponent. -/
theorem exponent_reads : ∃ e : Int × Bool,
    n.expText.tail.foldl exponentByte (0, false) = e ∧
      (if e.2 then -e.1 else e.1) = exponentRead n := by
  unfold NumberText.expText exponentRead
  cases n.exp with
  | none => exact ⟨_, rfl, rfl⟩
  | some x =>
      have read : ∀ minus, (x.sign ++ x.digits).foldl exponentByte (0, false) =
          x.digits.foldl exponentByte (0, minus) →
          (x.sign ++ x.digits).foldl exponentByte (0, false) =
            ((sixDigits x.digits : Int), minus) := by
        intro minus same
        rw [same, exponentByte_reads x.ok.2]
      by_cases minus : x.Negative
      · refine ⟨_, read true (by rw [minus]; rfl), ?_⟩
        exact (if_pos minus).symm
      · refine ⟨_, read false ?_, (if_neg minus).symm⟩
        rcases x.signed with sign | sign | sign
        · rw [sign]; rfl
        · rw [sign]; rfl
        · exact absurd sign minus

end Parts

/-- The code reads a number's parts. -/
theorem unitInterval_reads (n : NumberText) :
    unitInterval n.text = true ↔
      significant n.digits = [] ∨ (n.negative = false ∧ AtMostOne n (exponentRead n)) := by
  obtain ⟨sign, unsigned⟩ := text_sign n
  obtain ⟨e, readExponent, shift⟩ := exponent_reads n
  obtain ⟨zeros, leads⟩ := UnitScan.reads n.isDigits ((n.int.length : Int) - 1)
  unfold unitInterval
  dsimp only
  rw [unsigned, text_int, text_mantissa, text_exponent, scan_digits, readExponent,
    shift]
  cases shape : significant n.digits with
  | nil =>
      rw [if_pos (zeros shape)]
      simp
  | cons d more =>
      obtain ⟨lead, tail, pos⟩ := leads d more shape
      have nonzero : d ≠ 0 := by
        rintro rfl
        have digit := significant_isDigit n.isDigits 0 (by rw [shape]; exact List.mem_cons_self)
        exact absurd digit (by decide)
      have first : (n.digits.foldl UnitScan.byte
          { place := (n.int.length : Int) - 1 }).pos = place n := by
        rw [pos, place, shape, NumberText.digits, List.length_append, List.length_cons]
        push_cast
        omega
      have ones : OneAndZeros n ↔ d = 0x31 ∧ more.any (· != 0x30) = false := by
        unfold OneAndZeros
        rw [shape]
        simp
      rw [lead, if_neg nonzero, tail, first]
      cases negative : n.negative with
      | true => simp [sign.mpr negative]
      | false =>
          have positive : ¬ n.text.head? = some 0x2d := by
            rw [sign, negative]
            decide
          simp only [positive, if_false, AtMostOne, ones,
            Bool.or_eq_true, Bool.and_eq_true, decide_eq_true_eq, beq_iff_eq,
            Bool.not_eq_true', reduceCtorEq, false_or, true_and, and_assoc]

/-- The digits are at least a power of ten, and are it when they are a one and zeros. -/
theorem digits_power {n : NumberText} {d : Byte} {more : Bytes}
    (shape : significant n.digits = d :: more) :
    10 ^ more.length ≤ digitsNat n.digits ∧ digitsNat n.digits < 10 ^ (more.length + 1) ∧
      (OneAndZeros n ↔ digitsNat n.digits = 10 ^ more.length) := by
  have all : ∀ c ∈ d :: more, isDigit c = true := by
    rw [← shape]
    exact significant_isDigit n.isDigits
  have later : ∀ c ∈ more, isDigit c = true := fun c member =>
    all c (List.mem_cons_of_mem d member)
  have bounds := digit_bounds (all d List.mem_cons_self)
  have lead := significant_head shape
  have notZero : d.toNat ≠ 0x30 := fun same => lead (UInt8.toNat_inj.mp same)
  have low := @digitsNat_ge _ more (all d List.mem_cons_self) lead
  have high := digitsNat_lt all
  rw [← digitsNat_significant, shape]
  refine ⟨low, high, ?_⟩
  unfold OneAndZeros
  rw [shape, digitsNat_cons]
  simp only [List.head?_cons, Option.some.injEq, List.tail_cons]
  constructor
  · rintro ⟨rfl, zeros⟩
    have none : digitsNat more = 0 := by
      apply (digitsNat_eq_zero_iff later).mpr
      unfold significant
      simpa using zeros
    rw [none]
    simp
  · intro same
    have one : d.toNat - 0x30 = 1 := by
      have power : 0 < 10 ^ more.length := by positivity
      have small : (d.toNat - 0x30) * 10 ^ more.length < 2 * 10 ^ more.length := by omega
      have less := Nat.lt_of_mul_lt_mul_right small
      omega
    rw [one, one_mul] at same
    have none : digitsNat more = 0 := by omega
    have zeros := (digitsNat_eq_zero_iff later).mp none
    refine ⟨UInt8.toNat_inj.mp (show d.toNat = 0x31 by omega), ?_⟩
    unfold significant at zeros
    simpa using zeros

/-- The value of a number, compared by the place of its first significant digit. -/
theorem value_in_unit (n : NumberText) :
    (0 ≤ n.value ∧ n.value ≤ 1) ↔
      significant n.digits = [] ∨ (n.negative = false ∧ AtMostOne n n.exponent) := by
  cases shape : significant n.digits with
  | nil =>
      have zero : digitsNat n.digits = 0 := (digitsNat_eq_zero_iff n.isDigits).mpr shape
      have value : n.value = 0 := by
        rw [NumberText.value, zero]
        simp
      rw [value]
      simp
  | cons d more =>
      obtain ⟨low, high, ones⟩ := digits_power shape
      have power : (0 : ℚ) < 10 ^ (n.exponent - n.frac.length) := by positivity
      have digits : (0 : ℚ) < digitsNat n.digits := by
        exact_mod_cast Nat.lt_of_lt_of_le (by positivity) low
      have product := mul_pos digits power
      cases negative : n.negative with
      | true =>
          have value : n.value < 0 := by
            rw [NumberText.value, negative, if_pos rfl]
            linarith
          simp [value.not_ge]
      | false =>
          have value : n.value =
              digitsNat n.digits * 10 ^ (place n + n.exponent - more.length) := by
            rw [NumberText.value, negative, if_neg Bool.false_ne_true, one_mul, place, shape]
            congr 2
            rw [List.length_cons]
            push_cast
            omega
          have nonneg : 0 ≤ n.value := by
            rw [NumberText.value, negative, if_neg Bool.false_ne_true, one_mul]
            exact product.le
          have atMost := @moved_le_one_iff _ _ (place n + n.exponent) low high
          rw [← value] at atMost
          simp only [nonneg, true_and, reduceCtorEq, false_or]
          rw [atMost, AtMostOne, ones]

/-! ## Exponents of more than six digits -/

/-- The exponent has more than six significant digits, and the number's first digit
stands between as many places from the point as the first six of them say and as many as
all of them say, on the side that the exponent moves it from.  Of the two ends, one is
counted for the powers of ten and the other for the rest. -/
def Misread (n : NumberText) : Prop :=
  n.negative = false ∧ significant n.digits ≠ [] ∧
    ∃ x, n.exp = some x ∧ 6 < (significant x.digits).length ∧
      if x.Negative then
        ((sixDigits x.digits : Int) < place n ∧ place n < x.size) ∨
          (place n = sixDigits x.digits ∧ ¬ OneAndZeros n) ∨
          (place n = x.size ∧ OneAndZeros n)
      else
        ((sixDigits x.digits : Int) < -place n ∧ -place n < x.size) ∨
          (-place n = sixDigits x.digits ∧ OneAndZeros n) ∨
          (-place n = x.size ∧ ¬ OneAndZeros n)

/-- A text is a number of the grammar when the parser accepts it as one. -/
theorem parsed_number_iff (s : Bytes) :
    (∃ v, Json.parse s = (v, true) ∧ v.type = .number ∧ v.sv.bytes = s) ↔
      ∃ n : NumberText, n.text = s := by
  rw [← isNumber_iff]
  constructor
  · rintro ⟨v, parsed, number, span⟩
    have ok : (Json.parse s).2 = true := by rw [parsed]
    obtain ⟨text, split, -⟩ := (Json.parse_ok_iff s .unique).mp ok
    have value := Json.parse_value split ok
    rw [parsed] at value
    dsimp only at value
    cases tree : text.value with
    | number found =>
        rw [value, tree] at span
        rw [← span]
        exact found.ok
    | lit l =>
        cases l <;> exact absurd number (by rw [value, tree]; exact Json.ValueType.noConfusion)
    | string _ => exact absurd number (by rw [value, tree]; exact Json.ValueType.noConfusion)
    | empty kind _ =>
        cases kind <;> exact absurd number (by rw [value, tree]; exact Json.ValueType.noConfusion)
    | full kind _ =>
        cases kind <;> exact absurd number (by rw [value, tree]; exact Json.ValueType.noConfusion)
  · intro number
    let text := (Rfc8259.Json.number ⟨s, number⟩).bare
    have shape : s = text.render := by
      rw [Rfc8259.Json.bare_render, Rfc8259.Json.render]
    have good : Json.IsDocument .unique text := by
      constructor
      · exact Nat.le_of_ble_eq_true rfl
      · exact Nat.le_of_ble_eq_true rfl
      · exact fun _ => trivial
    have ok : (Json.parse s).2 = true := (Json.parse_ok_iff _ _).mpr ⟨text, shape, good⟩
    have value := Json.parse_value shape ok
    exact ⟨_, Prod.ext rfl ok, congrArg Json.Value.type value, congrArg (·.sv.bytes) value⟩

/-- `unit_interval` decides whether a number that the parser accepts lies in [0, 1]
exactly when its exponent is not misread. -/
theorem unitInterval_iff (s : Bytes) :
    ((∃ v, Json.parse s = (v, true) ∧ v.type = .number ∧ v.sv.bytes = s) ↔
      ∃ n : NumberText, n.text = s) ∧
    ∀ n : NumberText, n.text = s →
      (((unitInterval s = true) ↔ (0 ≤ n.value ∧ n.value ≤ 1)) ↔ ¬ Misread n) := by
  refine ⟨parsed_number_iff s, ?_⟩
  rintro n rfl
  rw [unitInterval_reads, value_in_unit]
  by_cases zero : significant n.digits = []
  · simp [Misread, zero]
  cases negative : n.negative with
  | true => simp [Misread, negative]
  | false =>
      simp only [zero, false_or, true_and, Misread, negative, ne_eq, not_false_eq_true]
      unfold AtMostOne exponentRead NumberText.exponent
      cases exp : n.exp with
      | none => simp
      | some x =>
          simp only [Option.elim_some, Option.some.injEq, exists_eq_left', Exponent.value]
          by_cases many : 6 < (significant x.digits).length
          · have less : (sixDigits x.digits : Int) < x.size := by
              exact_mod_cast sixDigits_lt x.ok.2 many
            simp only [many, true_and]
            by_cases minus : x.Negative
            · simp only [if_pos minus]
              by_cases one : OneAndZeros n
              · simp only [one, and_true, not_true_eq_false, and_false, false_or]
                omega
              · simp only [one, and_false, or_false, not_false_eq_true, and_true]
                omega
            · simp only [if_neg minus]
              by_cases one : OneAndZeros n
              · simp only [one, and_true, not_true_eq_false, and_false, or_false]
                omega
              · simp only [one, and_false, or_false, not_false_eq_true, and_true, false_or]
                omega
          · have same : sixDigits x.digits = x.size := sixDigits_eq (Nat.le_of_not_lt many)
            simp [many, same]

theorem e_marked : (0x65 : Byte) = 0x65 ∨ (0x65 : Byte) = 0x45 :=
  Or.inl rfl

/-- `0.00…01e1000000`, its digit a hundred thousand and one places behind the point. -/
def farNumber : NumberText where
  negative := false
  int := [0x30]
  frac := List.replicate 100000 0x30 ++ [0x31]
  exp := some ⟨0x65, [], ascii "1000000", e_marked, Or.inl rfl, by decide,
    List.all_eq_true.mp (by decide)⟩
  intOk := Or.inl rfl
  fracOk := by
    intro d member
    rcases List.mem_append.mp member with zero | one
    · rw [List.eq_of_mem_replicate zero]
      rfl
    · rw [List.mem_singleton.mp one]
      rfl

/-- That number is far above one and is taken for one in the interval. -/
theorem unitInterval_far :
    ¬ ((unitInterval farNumber.text = true) ↔ (0 ≤ farNumber.value ∧ farNumber.value ≤ 1)) := by
  have digits : significant farNumber.digits = [0x31] := by
    have shape : farNumber.digits = (0x30 :: List.replicate 100000 0x30) ++ [0x31] := rfl
    rw [significant, shape, List.dropWhile_append_of_pos]
    · rfl
    · intro d member
      rcases List.mem_cons.mp member with rfl | zero
      · rfl
      · rw [List.eq_of_mem_replicate zero]
        rfl
  have standing : place farNumber = -100001 := by
    have size : farNumber.frac.length = 100001 := by
      change (List.replicate 100000 (0x30 : Byte) ++ [0x31]).length = 100001
      rw [List.length_append, List.length_replicate, List.length_singleton]
    rw [place, digits, size]
    decide
  have read : exponentRead farNumber = 100000 := rfl
  have written : farNumber.exponent = 1000000 := rfl
  rw [unitInterval_reads, value_in_unit]
  intro same
  have inside := same.mp (Or.inr ⟨rfl, Or.inl (by rw [standing, read]; decide)⟩)
  rcases inside with none | ⟨-, below | ⟨here, -⟩⟩
  · exact absurd (digits.symm.trans none) (by simp)
  · rw [standing, written] at below
    exact absurd below (by decide)
  · rw [standing, written] at here
    exact absurd here (by decide)

end Translate
end Llmbridge
