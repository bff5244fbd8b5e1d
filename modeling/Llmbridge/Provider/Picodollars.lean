import Llmbridge.Rfc8259.NumberValue
import Llmbridge.Provider.JsonScan

/-!
# Picodollars

`picodollars` reads a number as its first eighteen significant digits and a power of
ten, and scales it exactly: up with a check, or down with one rounding at the end.
-/

namespace Llmbridge
namespace JsonScan

open Rfc8259

/-! ## The digits -/

/-- The digits from the eighteenth significant one on are dropped. -/
def kept (ds : Bytes) : Nat :=
  digitsNat ((significant ds).take 18)

/-- How many significant digits are dropped. -/
def dropped (ds : Bytes) : Nat :=
  (significant ds).length - 18

/-- The mantissa after digits, `behind` of which stand behind the point. -/
structure Mantissa.Has (s : Mantissa) (ds : Bytes) (behind : Nat) : Prop where
  m : s.m = kept ds
  digits : s.digits = ((significant ds).take 18).length
  exp10 : s.exp10 = 12 + dropped ds - behind
  any : s.any = !ds.isEmpty

/-- Behind the first significant digit all count. -/
theorem significant_append_of_ne_nil {ds : Bytes} (some_digit : significant ds ≠ [])
    (more : Bytes) : significant (ds ++ more) = significant ds ++ more := by
  unfold significant at some_digit ⊢
  rw [List.dropWhile_append, if_neg (by simpa using some_digit)]

/-- Zeros in front do not count. -/
theorem significant_append_of_nil {ds : Bytes} (zeros : significant ds = [])
    (more : Bytes) : significant (ds ++ more) = significant more := by
  unfold significant at zeros ⊢
  rw [List.dropWhile_append, if_pos (by rw [zeros]; rfl)]

/-- One digit more. -/
theorem Mantissa.Has.digit {s : Mantissa} {ds : Bytes} {behind : Nat} {c : Byte}
    (has : s.Has ds behind) (all : ∀ d ∈ ds, isDigit d = true) (digit : isDigit c = true) :
    (s.digit c).Has (ds ++ [c]) (behind + if s.point then 1 else 0) := by
  have bounds := digit_bounds digit
  have zero : s.m = 0 ↔ significant ds = [] := by
    rw [has.m, kept]
    cases shape : significant ds with
    | nil => simp
    | cons d more =>
        have lead := significant_head shape
        have first := significant_isDigit all d (by rw [shape]; exact List.mem_cons_self)
        have large := @digitsNat_ge _ (more.take 17) first lead
        have positive : 0 < 10 ^ (more.take 17).length := by positivity
        simp only [List.take_succ_cons, reduceCtorEq, iff_false]
        omega
  have one : ((if s.point then 1 else 0 : Nat) : Int) = if s.point then 1 else 0 := by
    split <;> rfl
  unfold Mantissa.digit
  dsimp only
  by_cases leading : significant ds = []
  · have whole := significant_append_of_nil leading [c]
    have none : s.digits = 0 := by rw [has.digits, leading]; rfl
    have m : s.m = 0 := zero.mpr leading
    by_cases nought : c = 0x30
    · have still : significant (ds ++ [c]) = [] := by rw [whole, nought]; rfl
      rw [if_pos ⟨m, nought⟩]
      constructor
      · simp [kept, still, m]
      · simp [still, none]
      · have exp10 := has.exp10
        simp only [dropped, leading, still] at exp10 ⊢
        push_cast
        omega
      · simp
    · have now : significant (ds ++ [c]) = [c] := by
        rw [whole]
        simp [significant, nought]
      rw [if_neg (fun h => nought h.2), if_pos (by omega)]
      constructor
      · simp [kept, now, m, digitsNat, digitValue]
      · simp [now, none]
      · have exp10 := has.exp10
        simp only [dropped, leading, now] at exp10 ⊢
        push_cast
        simp only [List.length_singleton, List.length_nil] at exp10 ⊢
        omega
      · simp
  · have whole := significant_append_of_ne_nil leading [c]
    have m : s.m ≠ 0 := fun h => leading (zero.mp h)
    rw [if_neg (fun h => m h.1)]
    have exp10 := has.exp10
    have digits := has.digits
    rw [List.length_take] at digits
    by_cases room : s.digits < 18
    · have short : (significant ds).length < 18 := by omega
      rw [if_pos room]
      constructor
      · have before := has.m
        rw [kept, List.take_of_length_le (by omega)] at before
        rw [kept, whole, List.take_of_length_le (by simpa using short), digitsNat_append,
          ← before]
        simp [digitsNat, digitValue]
      · rw [whole, List.take_of_length_le (by simpa using short)]
        simp only [List.length_append, List.length_singleton]
        omega
      · simp only [dropped, whole, List.length_append, List.length_singleton] at exp10 ⊢
        push_cast
        omega
      · simp
    · have long : 18 ≤ (significant ds).length := by omega
      rw [if_neg room]
      constructor
      · rw [kept, whole, List.take_append_of_le_length long]
        exact has.m
      · rw [whole, List.take_append_of_le_length long]
        exact has.digits
      · simp only [dropped, whole, List.length_append, List.length_singleton] at exp10 ⊢
        push_cast
        omega
      · simp

/-- A digit sets no point. -/
theorem Mantissa.digit_point (s : Mantissa) (c : Byte) : (s.digit c).point = s.point := by
  unfold Mantissa.digit
  dsimp only
  split
  · rfl
  · split
    · rfl
    · rfl

/-- A run of digits. -/
theorem mantissa_digits {ds : Bytes} (digits : ∀ d ∈ ds, isDigit d = true) :
    ∀ {s : Mantissa} {front : Bytes} {behind : Nat}, s.Has front behind →
      (∀ d ∈ front, isDigit d = true) →
      ∃ s' : Mantissa, s'.Has (front ++ ds) (behind + if s.point then ds.length else 0) ∧
        s'.point = s.point ∧ ∀ rest, mantissa s (ds ++ rest) = mantissa s' rest := by
  induction ds with
  | nil =>
      intro s front behind has _
      exact ⟨s, by simpa using has, rfl, fun _ => rfl⟩
  | cons c ds inductionHypothesis =>
      intro s front behind has all
      have digit := digits c List.mem_cons_self
      have point : c ≠ 0x2e := by
        rintro rfl
        exact absurd digit (by decide)
      have longer : ∀ d ∈ front ++ [c], isDigit d = true := by
        intro d member
        rcases List.mem_append.mp member with before | last
        · exact all d before
        · rw [List.mem_singleton.mp last]
          exact digit
      obtain ⟨s', after, same, runs⟩ := inductionHypothesis
        (fun d member => digits d (List.mem_cons_of_mem c member)) (has.digit all digit) longer
      rw [Mantissa.digit_point] at after same
      refine ⟨s', ?_, same, fun rest => ?_⟩
      · rw [List.append_assoc, List.singleton_append] at after
        cases pointed : s.point with
        | false => simpa [pointed] using after
        | true =>
            simp only [pointed, if_true, List.length_cons] at after ⊢
            rwa [Nat.add_assoc, Nat.add_comm 1] at after
      · rw [← runs rest, List.cons_append, mantissa, if_neg (fun h => point h.1), if_pos digit]

/-- The digits behind a point, or nothing. -/
def IsFraction (fraction behind : Bytes) : Prop :=
  (fraction = [] ∧ behind = []) ∨ fraction = 0x2e :: behind

/-- The first loop reads digits with at most one point among them. -/
theorem mantissa_reads {int fraction behind rest : Bytes}
    (intDigits : ∀ d ∈ int, isDigit d = true) (behindDigits : ∀ d ∈ behind, isDigit d = true)
    (isFraction : IsFraction fraction behind)
    (stops : ∀ c more, rest = c :: more →
      isDigit c = false ∧ (fraction = [] → c ≠ 0x2e)) :
    ∃ s : Mantissa, s.Has (int ++ behind) behind.length ∧
      mantissa {} (int ++ (fraction ++ rest)) = (s, rest) := by
  have start : Mantissa.Has {} [] 0 := ⟨rfl, rfl, rfl, rfl⟩
  obtain ⟨first, has, point, runs⟩ := mantissa_digits intDigits start (by simp)
  rw [runs]
  rcases isFraction with ⟨rfl, rfl⟩ | rfl
  · refine ⟨first, by simpa using has, ?_⟩
    cases rest with
    | nil => rfl
    | cons c rest =>
        obtain ⟨digit, noPoint⟩ := stops c rest rfl
        rw [List.nil_append, mantissa, if_neg (fun h => noPoint rfl h.1), digit]
        rfl
  · have pointed : Mantissa.Has { first with point := true } int 0 := by
      have has : first.Has int 0 := by simpa using has
      exact ⟨has.m, has.digits, has.exp10, has.any⟩
    obtain ⟨second, has, point', runs'⟩ := mantissa_digits behindDigits pointed intDigits
    refine ⟨second, by simpa using has, ?_⟩
    rw [List.cons_append, mantissa, if_pos ⟨rfl, point⟩, runs']
    cases rest with
    | nil => rfl
    | cons c rest =>
        obtain ⟨digit, -⟩ := stops c rest rfl
        rw [mantissa, if_neg, digit]
        · rfl
        · rw [point']
          simp

/-! ## The exponent -/

/-- What is not an exponent of the grammar is refused. -/
theorem exponent_none {rest : Bytes} (malformed : ¬ IsExp rest) : exponent rest = none := by
  cases rest with
  | nil => exact absurd (Or.inl rfl) malformed
  | cons c rest =>
      unfold exponent
      dsimp only
      by_cases mark : c ≠ 0x65 ∧ c ≠ 0x45
      · rw [if_pos mark]
      · rw [if_neg mark]
        have marked : c = 0x65 ∨ c = 0x45 := by
          by_cases lower : c = 0x65
          · exact Or.inl lower
          · exact Or.inr (not_not.mp fun upper => mark ⟨lower, upper⟩)
        rw [if_pos]
        by_contra digits
        rw [not_or, Bool.not_eq_true, Bool.not_eq_false, List.all_eq_true] at digits
        have some_digit := List.isEmpty_eq_false_iff.mp digits.1
        apply malformed
        by_cases minus : rest.head? = some 0x2d
        · rw [if_pos (Or.inl minus)] at digits some_digit
          refine Or.inr ⟨c, [0x2d], rest.tail, marked, Or.inr (Or.inr rfl),
            ⟨some_digit, digits.2⟩, ?_⟩
          rw [List.singleton_append, List.cons_head?_tail minus]
        · by_cases plus : rest.head? = some 0x2b
          · rw [if_pos (Or.inr plus)] at digits some_digit
            refine Or.inr ⟨c, [0x2b], rest.tail, marked, Or.inr (Or.inl rfl),
              ⟨some_digit, digits.2⟩, ?_⟩
            rw [List.singleton_append, List.cons_head?_tail plus]
          · rw [if_neg (by simp [minus, plus])] at digits some_digit
            exact Or.inr ⟨c, [], rest, marked, Or.inl rfl, ⟨some_digit, digits.2⟩, rfl⟩

/-- An exponent below four hundred is read as written. -/
theorem exponent_fold {ds : Bytes} : ∀ {m : Nat}, m * 10 ^ ds.length + digitsNat ds < 400 →
    ds.foldl (fun (e : Nat) c => if e < 400 then e * 10 + digitValue c else e) m =
      m * 10 ^ ds.length + digitsNat ds := by
  induction ds with
  | nil => intro m _; simp
  | cons d ds inductionHypothesis =>
      intro m small
      rw [digitsNat_cons, List.length_cons, pow_succ] at small ⊢
      have same : m * (10 ^ ds.length * 10) + ((d.toNat - 0x30) * 10 ^ ds.length + digitsNat ds) =
          (m * 10 + digitValue d) * 10 ^ ds.length + digitsNat ds := by
        unfold digitValue
        ring
      rw [same] at small ⊢
      have power : 0 < 10 ^ ds.length := by positivity
      have bound : m ≤ (m * 10 + digitValue d) * 10 ^ ds.length := by
        calc m ≤ m * 10 + digitValue d := by omega
          _ ≤ (m * 10 + digitValue d) * 10 ^ ds.length := Nat.le_mul_of_pos_right _ power
      rw [List.foldl_cons, if_pos (by omega)]
      exact inductionHypothesis small

/-- A written exponent is read. -/
theorem exponent_reads {n : NumberText} (small : n.exponent.natAbs < 400) :
    exponent n.expText = some n.exponent := by
  unfold NumberText.exponent at small ⊢
  unfold NumberText.expText
  cases exp : n.exp with
  | none => rfl
  | some x =>
      rw [exp] at small
      dsimp only [Option.elim_some] at small ⊢
      have size : x.size < 400 := by
        unfold Exponent.value at small
        split at small
        · rwa [Int.natAbs_neg, Int.natAbs_natCast] at small
        · rwa [Int.natAbs_natCast] at small
      have read : x.digits.foldl
          (fun (e : Nat) c => if e < 400 then e * 10 + digitValue c else e) 0 = x.size := by
        rw [exponent_fold (by simpa [Exponent.size] using size)]
        simp [Exponent.size]
      obtain ⟨first, others, shape⟩ := List.exists_cons_of_ne_nil x.ok.1
      have digit := x.ok.2 first (by rw [shape]; exact List.mem_cons_self)
      have noSign : first ≠ 0x2d ∧ first ≠ 0x2b := by
        constructor
        · rintro rfl
          exact absurd digit (by decide)
        · rintro rfl
          exact absurd digit (by decide)
      have marked : ¬ (x.mark ≠ 0x65 ∧ x.mark ≠ 0x45) := by
        rcases x.marked with mark | mark
        · exact fun h => h.1 mark
        · exact fun h => h.2 mark
      have good : ¬ (x.digits.isEmpty ∨ x.digits.all isDigit = false) := by
        rw [not_or, Bool.not_eq_true, Bool.not_eq_false]
        exact ⟨List.isEmpty_eq_false_iff.mpr x.ok.1, List.all_eq_true.mpr x.ok.2⟩
      unfold Exponent.text exponent
      dsimp only
      rw [if_neg marked]
      rcases x.signed with sign | sign | sign
      · simp only [sign, List.nil_append, shape, List.head?_cons, Option.some.injEq, noSign,
          or_self, if_false]
        rw [← shape, if_neg good, read, Exponent.value, if_neg (by simp [Exponent.Negative, sign])]
      · simp only [sign, List.singleton_append, List.head?_cons, Option.some.injEq,
          List.tail_cons, or_true, if_true]
        have plus : ¬ x.Negative := by simp [Exponent.Negative, sign]
        rw [if_neg good, read, Exponent.value, if_neg plus]
        rfl
      · simp only [sign, List.singleton_append, List.head?_cons, Option.some.injEq,
          List.tail_cons, true_or, if_true]
        rw [if_neg good, read, Exponent.value, if_pos sign]

/-! ## Scaling -/

/-- The largest value an `int64` holds. -/
def int64Max : Nat := 9223372036854775807

/-- Scaling up multiplies, or overflows. -/
theorem scaleUp_eq (times : Nat) : ∀ {m : Nat}, m ≤ int64Max →
    scaleUp times m = if m * 10 ^ times ≤ int64Max then some (m * 10 ^ times) else none := by
  unfold int64Max
  induction times with
  | zero =>
      intro m small
      rw [pow_zero, mul_one, if_pos small]
      rfl
  | succ times inductionHypothesis =>
      intro m small
      have power : 0 < 10 ^ times := by positivity
      have whole : m * 10 ^ (times + 1) = m * 10 * 10 ^ times := by ring
      have bound : m * 10 ≤ m * 10 * 10 ^ times := Nat.le_mul_of_pos_right _ power
      unfold scaleUp
      by_cases large : 922337203685477580 < m
      · rw [if_pos large, whole, if_neg (by omega)]
      · rw [if_neg large, inductionHypothesis (by omega), whole]

/-- Scaling down divides and rounds once. -/
theorem scaleDown_eq (times : Nat) : ∀ m : Nat,
    scaleDown (times + 1) m = (m + 5 * 10 ^ times) / 10 ^ (times + 1) := by
  induction times with
  | zero =>
      intro m
      unfold scaleDown
      by_cases nothing : m = 0
      · rw [if_pos nothing, nothing]
        rfl
      · rw [if_neg nothing, if_pos rfl]
        simp
  | succ times inductionHypothesis =>
      intro m
      have power : 5 * 10 ^ (times + 1) = 5 * 10 ^ times * 10 := by ring
      have further : 10 ^ (times + 1 + 1) = 10 * 10 ^ (times + 1) := by ring
      rw [power, further, ← Nat.div_div_eq_div_mul, Nat.add_mul_div_right _ _ (by decide)]
      unfold scaleDown
      by_cases nothing : m = 0
      · rw [if_pos nothing, nothing, Nat.zero_div, Nat.zero_add, eq_comm]
        apply Nat.div_eq_of_lt
        have positive : 0 < 10 ^ times := by positivity
        rw [pow_succ]
        omega
      · rw [if_neg nothing, if_neg (by simp)]
        exact inductionHypothesis (m / 10)

/-- Both loops, and the check at the end, round half up. -/
theorem scaled_eq {m : Nat} (small : m ≤ int64Max) (power : Int) :
    ((scaleUp power.toNat m).elim (-1) fun m =>
        let m := scaleDown (-power).toNat m
        if int64Max < m then -1 else (m : Int)) =
      if ⌊(m : ℚ) * 10 ^ power + 1 / 2⌋ ≤ (int64Max : Int) then
        ⌊(m : ℚ) * 10 ^ power + 1 / 2⌋ else -1 := by
  have half : ∀ n : Nat, ⌊(n : ℚ) + 1 / 2⌋ = (n : Int) := by
    intro n
    rw [Int.floor_natCast_add]
    norm_num
  rcases le_or_gt 0 power with up | down
  · obtain ⟨times, rfl⟩ := Int.eq_ofNat_of_zero_le up
    have rounded : ⌊(m : ℚ) * 10 ^ (times : Int) + 1 / 2⌋ = ((m * 10 ^ times : Nat) : Int) := by
      rw [← half (m * 10 ^ times), zpow_natCast]
      push_cast
      rfl
    have none_down : (-(times : Int)).toNat = 0 := by omega
    rw [rounded, scaleUp_eq _ small, Int.toNat_natCast, none_down]
    by_cases fits : m * 10 ^ times ≤ int64Max
    · rw [if_pos fits, if_pos (by exact_mod_cast fits), Option.elim_some]
      exact if_neg (Nat.not_lt.mpr fits)
    · rw [if_neg fits, if_neg (by exact_mod_cast fits), Option.elim_none]
  · obtain ⟨times, rfl⟩ : ∃ times : Nat, power = -((times + 1 : Nat) : Int) :=
      ⟨(-power).toNat - 1, by omega⟩
    have none_up : (-((times + 1 : Nat) : Int)).toNat = 0 := by omega
    have count : (- -((times + 1 : Nat) : Int)).toNat = times + 1 := by omega
    have rounded : ⌊(m : ℚ) * 10 ^ (-((times + 1 : Nat) : Int)) + 1 / 2⌋ =
        (((m + 5 * 10 ^ times) / 10 ^ (times + 1) : Nat) : Int) := by
      have exact : (m : ℚ) * 10 ^ (-((times + 1 : Nat) : Int)) + 1 / 2 =
          ((m + 5 * 10 ^ times : Nat) : ℚ) / ((10 ^ (times + 1) : Nat) : ℚ) := by
        rw [zpow_neg, zpow_natCast]
        push_cast
        field_simp
        ring
      rw [exact, Rat.floor_natCast_div_natCast]
      push_cast
      rfl
    have bound : (m + 5 * 10 ^ times) / 10 ^ (times + 1) ≤ int64Max := by
      apply Nat.div_le_of_le_mul
      have positive : 0 < 10 ^ times := by positivity
      have large : 10 ^ (times + 1) = 10 ^ times * 10 := pow_succ ..
      unfold int64Max at small ⊢
      have spread : m * 1 ≤ 9223372036854775807 * 10 ^ times := Nat.mul_le_mul small positive
      rw [large]
      omega
    have fits : (((m + 5 * 10 ^ times) / 10 ^ (times + 1) : Nat) : Int) ≤ int64Max := by
      exact_mod_cast bound
    rw [rounded, if_pos fits, scaleUp_eq _ small, none_up, count, pow_zero, mul_one,
      if_pos small, Option.elim_some, scaleDown_eq]
    exact if_neg (Nat.not_lt.mpr bound)

/-! ## Intermediate values -/

/-- The products and sums that one digit of the mantissa takes. -/
def Mantissa.sums (s : Mantissa) (c : Byte) : List Nat :=
  if s.m = 0 ∧ c = 0x30 then []
  else if s.digits < 18 then [s.m * 10, s.m * 10 + digitValue c]
  else []

/-- Those of the first loop. -/
def mantissaSums : Mantissa → Bytes → List Nat
  | _, [] => []
  | s, c :: rest =>
      if c = 0x2e ∧ s.point = false then mantissaSums { s with point := true } rest
      else if isDigit c then s.sums c ++ mantissaSums (s.digit c) rest
      else []

/-- Those of the exponent's digits. -/
def exponentSums : Nat → Bytes → List Nat
  | _, [] => []
  | e, c :: rest =>
      if isDigit c = false then []
      else if e < 400 then
        [e * 10, e * 10 + digitValue c] ++ exponentSums (e * 10 + digitValue c) rest
      else exponentSums e rest

/-- Those of the loop that scales up. -/
def scaleUpSums : (times m : Nat) → List Nat
  | 0, _ => []
  | times + 1, m =>
      if 922337203685477580 < m then [] else m * 10 :: scaleUpSums times (m * 10)

/-- Those of the loop that scales down. -/
def scaleDownSums : (times m : Nat) → List Nat
  | 0, _ => []
  | times + 1, m =>
      if m = 0 then [] else if times = 0 then [m + 5] else scaleDownSums times (m / 10)

/-- The scale after each step of the first loop. -/
def mantissaScales : Mantissa → Bytes → List Int
  | s, [] => [s.exp10]
  | s, c :: rest =>
      if c = 0x2e ∧ s.point = false then mantissaScales { s with point := true } rest
      else if isDigit c then s.exp10 :: mantissaScales (s.digit c) rest
      else [s.exp10]

/-- What stands behind the mark and the sign of an exponent. -/
def exponentDigits (rest : Bytes) : Bytes :=
  let rest := rest.tail
  if rest.head? = some 0x2d ∨ rest.head? = some 0x2b then rest.tail else rest

/-- Every product and sum of a run of `picodollars` on the digits. -/
def sums (raw : Bytes) : List Nat :=
  let (s, rest) := mantissa {} raw
  mantissaSums {} raw ++ exponentSums 0 (exponentDigits rest) ++
    (exponent rest).elim [] fun e =>
      scaleUpSums (s.exp10 + e).toNat s.m ++
        (scaleUp (s.exp10 + e).toNat s.m).elim [] (scaleDownSums (-(s.exp10 + e)).toNat)

/-- Every value that the scale of a run takes before the scaling loops, which bring it to
zero. -/
def scales (raw : Bytes) : List Int :=
  let (s, rest) := mantissa {} raw
  mantissaScales {} raw ++ ((exponent rest).map (s.exp10 + ·)).toList

/-- The mantissa is below the power of ten of its digits, of which there are eighteen at
most. -/
structure Mantissa.Small (s : Mantissa) : Prop where
  m : s.m < 10 ^ s.digits
  digits : s.digits ≤ 18

/-- A small mantissa has room for a digit. -/
theorem Mantissa.Small.lt {s : Mantissa} (small : s.Small) : s.m < 10 ^ 18 :=
  Nat.lt_of_lt_of_le small.m (Nat.pow_le_pow_right (by decide) small.digits)

/-- A digit leaves it small. -/
theorem Mantissa.Small.digit {s : Mantissa} {c : Byte} (small : s.Small)
    (digit : isDigit c = true) : (s.digit c).Small ∧ ∀ v ∈ s.sums c, v < 2 ^ 64 := by
  have bounds := digit_bounds digit
  have value : digitValue c ≤ 9 := by
    unfold digitValue
    omega
  have m := small.m
  unfold Mantissa.digit Mantissa.sums
  dsimp only
  split
  · exact ⟨⟨small.m, small.digits⟩, by simp⟩
  · split
    · next room =>
      have power : (10 : Nat) ^ s.digits ≤ 10 ^ 17 :=
        Nat.pow_le_pow_right (by decide) (by omega)
      refine ⟨⟨?_, Nat.succ_le_of_lt room⟩, ?_⟩
      · dsimp only
        rw [pow_succ]
        omega
      · intro v member
        simp only [List.mem_cons, List.not_mem_nil, or_false] at member
        omega
    · exact ⟨⟨small.m, small.digits⟩, by simp⟩

/-- The first loop: the mantissa stays small and so do its sums. -/
theorem mantissa_small (raw : Bytes) : ∀ {s : Mantissa}, s.Small →
    (mantissa s raw).1.Small ∧ ∀ v ∈ mantissaSums s raw, v < 2 ^ 64 := by
  induction raw with
  | nil => exact fun small => ⟨small, by simp [mantissaSums]⟩
  | cons c raw inductionHypothesis =>
      intro s small
      unfold mantissa mantissaSums
      by_cases point : c = 0x2e ∧ s.point = false
      · rw [if_pos point, if_pos point]
        exact inductionHypothesis (s := { s with point := true }) ⟨small.m, small.digits⟩
      · rw [if_neg point, if_neg point]
        by_cases digit : isDigit c = true
        · rw [if_pos digit, if_pos digit]
          obtain ⟨next, here⟩ := small.digit digit
          obtain ⟨stays, later⟩ := inductionHypothesis next
          refine ⟨stays, fun v member => ?_⟩
          rcases List.mem_append.mp member with now | after
          · exact here v now
          · exact later v after
        · rw [if_neg digit, if_neg digit]
          exact ⟨small, by simp⟩

/-- No sum of an exponent overflows. -/
theorem exponentSums_small (ds : Bytes) : ∀ {e : Nat}, e < 4000 →
    ∀ v ∈ exponentSums e ds, v < 2 ^ 64 := by
  induction ds with
  | nil => intro e _ v member; exact absurd member (by simp [exponentSums])
  | cons c ds inductionHypothesis =>
      intro e small v member
      unfold exponentSums at member
      split at member
      · exact absurd member (by simp)
      · next digit =>
        have bounds := digit_bounds (Bool.not_eq_false _ ▸ digit)
        have value : digitValue c ≤ 9 := by
          unfold digitValue
          omega
        split at member
        · simp only [List.cons_append, List.nil_append, List.mem_cons] at member
          rcases member with rfl | rfl | later
          · omega
          · omega
          · exact inductionHypothesis (by omega) v later
        · exact inductionHypothesis small v member

/-- Nor does one of scaling up. -/
theorem scaleUpSums_small (times : Nat) : ∀ m, ∀ v ∈ scaleUpSums times m, v < 2 ^ 64 := by
  induction times with
  | zero => intro m v member; exact absurd member (by simp [scaleUpSums])
  | succ times inductionHypothesis =>
      intro m v member
      unfold scaleUpSums at member
      split at member
      · exact absurd member (by simp)
      · rcases List.mem_cons.mp member with rfl | later
        · omega
        · exact inductionHypothesis _ v later

/-- Nor does one of scaling down. -/
theorem scaleDownSums_small (times : Nat) : ∀ {m : Nat}, m ≤ int64Max →
    ∀ v ∈ scaleDownSums times m, v < 2 ^ 64 := by
  unfold int64Max
  induction times with
  | zero => intro m _ v member; exact absurd member (by simp [scaleDownSums])
  | succ times inductionHypothesis =>
      intro m small v member
      unfold scaleDownSums at member
      split at member
      · exact absurd member (by simp)
      · split at member
        · rw [List.mem_singleton.mp member]
          omega
        · exact inductionHypothesis (by omega) v member

/-- No sum of the whole reading overflows. -/
theorem sums_small (raw : Bytes) : ∀ v ∈ sums raw, v < 2 ^ 64 := by
  have start : Mantissa.Small {} := ⟨by decide, by decide⟩
  obtain ⟨small, first⟩ := mantissa_small raw start
  have fits : (mantissa {} raw).1.m ≤ int64Max := by
    have bound := small.lt
    unfold int64Max
    omega
  intro v member
  unfold sums at member
  dsimp only at member
  rcases List.mem_append.mp member with before | scaling
  · rcases List.mem_append.mp before with digits | exponents
    · exact first v digits
    · exact exponentSums_small _ (by decide) v exponents
  · cases read : exponent (mantissa {} raw).2 with
    | none =>
        rw [read] at scaling
        exact absurd scaling (by simp)
    | some e =>
        rw [read, Option.elim_some] at scaling
        rcases List.mem_append.mp scaling with up | down
        · exact scaleUpSums_small _ _ v up
        · rw [scaleUp_eq _ fits] at down
          split at down
          · next scaled => exact scaleDownSums_small _ scaled v down
          · exact absurd down (by simp)

/-- A digit moves the scale by one at most. -/
theorem Mantissa.digit_scale (s : Mantissa) (c : Byte) :
    ((s.digit c).exp10 - s.exp10).natAbs ≤ 1 := by
  unfold Mantissa.digit
  dsimp only
  have one : (if s.point then 1 else 0 : Int) = 0 ∨ (if s.point then 1 else 0 : Int) = 1 := by
    split
    · exact Or.inr rfl
    · exact Or.inl rfl
  split
  · dsimp only
    omega
  · split
    · dsimp only
      omega
    · dsimp only
      omega

/-- The scale moves by at most one for each byte. -/
theorem mantissa_scales (raw : Bytes) : ∀ s : Mantissa,
    ((mantissa s raw).1.exp10 - s.exp10).natAbs ≤ raw.length ∧
      ∀ v ∈ mantissaScales s raw, (v - s.exp10).natAbs ≤ raw.length := by
  induction raw with
  | nil => intro s; simp [mantissa, mantissaScales]
  | cons c raw inductionHypothesis =>
      intro s
      unfold mantissa mantissaScales
      rw [List.length_cons]
      by_cases point : c = 0x2e ∧ s.point = false
      · rw [if_pos point, if_pos point]
        obtain ⟨last, each⟩ := inductionHypothesis { s with point := true }
        exact ⟨Nat.le_succ_of_le last, fun v member => Nat.le_succ_of_le (each v member)⟩
      · rw [if_neg point, if_neg point]
        by_cases digit : isDigit c = true
        · rw [if_pos digit, if_pos digit]
          obtain ⟨last, each⟩ := inductionHypothesis (s.digit c)
          have step := s.digit_scale c
          refine ⟨by omega, fun v member => ?_⟩
          rcases List.mem_cons.mp member with rfl | later
          · omega
          · have bound := each v later
            omega
        · rw [if_neg digit, if_neg digit]
          simp

/-- An exponent that is read is bounded. -/
theorem exponent_small {rest : Bytes} {e : Int} (read : exponent rest = some e) :
    e.natAbs < 4000 := by
  have fold : ∀ (ds : Bytes), (∀ d ∈ ds, isDigit d = true) → ∀ m < 4000,
      ds.foldl (fun (e : Nat) c => if e < 400 then e * 10 + digitValue c else e) m < 4000 := by
    intro ds
    induction ds with
    | nil => exact fun _ m small => small
    | cons d ds inductionHypothesis =>
        intro digits m small
        have bounds := digit_bounds (digits d List.mem_cons_self)
        have value : digitValue d ≤ 9 := by
          unfold digitValue
          omega
        apply inductionHypothesis fun c member => digits c (List.mem_cons_of_mem d member)
        dsimp only
        split
        · omega
        · exact small
  cases rest with
  | nil =>
      have zero : (0 : Int) = e := Option.some.inj read
      omega
  | cons c rest =>
      unfold exponent at read
      dsimp only at read
      split at read
      · exact absurd read (by simp)
      · generalize (if rest.head? = some 0x2d ∨ rest.head? = some 0x2b then rest.tail
          else rest) = ds at read
        split at read
        · exact absurd read (by simp)
        · next good =>
          rw [not_or, Bool.not_eq_false, List.all_eq_true] at good
          have small := fold _ good.2 0 (by decide)
          have same := Option.some.inj read
          split at same
          · omega
          · omega

/-- So is every scale. -/
theorem scales_small (raw : Bytes) : ∀ v ∈ scales raw, v.natAbs ≤ raw.length + 4011 := by
  obtain ⟨last, each⟩ := mantissa_scales raw {}
  have start : ({} : Mantissa).exp10 = 12 := rfl
  rw [start] at last each
  intro v member
  unfold scales at member
  dsimp only at member
  rcases List.mem_append.mp member with first | second
  · have bound := each v first
    omega
  · cases read : exponent (mantissa {} raw).2 with
    | none =>
        rw [read] at second
        exact absurd second (by simp)
    | some e =>
        have small := exponent_small read
        rw [read] at second
        have same : v = (mantissa {} raw).1.exp10 + e := by simpa using second
        omega

/-! ## Rounding -/

/-- The digits with the significant ones past the eighteenth replaced by zero. -/
def zeroPast (ds : Bytes) : Bytes :=
  ds.takeWhile (· == 0x30) ++ ((significant ds).take 18 ++ List.replicate (dropped ds) 0x30)

/-- The number with its significant digits past the eighteenth replaced by zero. -/
def cutValue (n : NumberText) : ℚ :=
  digitsNat (zeroPast n.digits) * 10 ^ (n.exponent - n.frac.length)

/-- Half up. -/
def roundHalfUp (q : ℚ) : Int :=
  ⌊q + 1 / 2⌋

/-- Zeros are worth nothing. -/
theorem digitsNat_zeros {ds : Bytes} (zeros : ∀ d ∈ ds, d = 0x30) : digitsNat ds = 0 := by
  have none : significant ds = [] := by
    unfold significant
    simpa using zeros
  rw [← digitsNat_significant, none]
  rfl

/-- The digits that are dropped are a power of ten. -/
theorem zeroPast_value (ds : Bytes) : digitsNat (zeroPast ds) = kept ds * 10 ^ dropped ds := by
  have leading : digitsNat (ds.takeWhile (· == 0x30)) = 0 := by
    apply digitsNat_zeros
    intro d member
    simpa using List.mem_takeWhile_imp member
  have trailing : digitsNat (List.replicate (dropped ds) 0x30) = 0 :=
    digitsNat_zeros fun d member => List.eq_of_mem_replicate member
  rw [zeroPast, digitsNat_append, digitsNat_append, leading, trailing, List.length_replicate]
  simp [kept]

/-- The digits that are kept fit. -/
theorem kept_le {ds : Bytes} (digits : ∀ d ∈ ds, isDigit d = true) : kept ds ≤ int64Max := by
  have bound := @digitsNat_lt ((significant ds).take 18) fun d member =>
    significant_isDigit digits d (List.mem_of_mem_take member)
  have power : (10 : Nat) ^ ((significant ds).take 18).length ≤ 10 ^ 18 :=
    Nat.pow_le_pow_right (by decide) (List.length_take_le _ _)
  unfold kept int64Max
  omega

/-- A number without a sign. -/
theorem picodollars_number {n : NumberText} (positive : n.negative = false)
    (small : n.exponent.natAbs < 400) :
    picodollars n.text =
      if roundHalfUp (10 ^ 12 * cutValue n) ≤ (int64Max : Int) then
        roundHalfUp (10 ^ 12 * cutValue n) else -1 := by
  have isFraction : IsFraction n.fracText n.frac := by
    unfold NumberText.fracText
    by_cases whole : n.frac = []
    · rw [if_pos whole]
      exact Or.inl ⟨rfl, whole⟩
    · rw [if_neg whole]
      exact Or.inr rfl
  have stops : ∀ c more, n.expText = c :: more →
      isDigit c = false ∧ (n.fracText = [] → c ≠ 0x2e) := by
    intro c more shape
    unfold NumberText.expText at shape
    cases exp : n.exp with
    | none =>
        rw [exp] at shape
        exact absurd shape (by simp)
    | some x =>
        rw [exp] at shape
        obtain ⟨rfl, -⟩ := List.cons.inj shape
        rcases x.marked with mark | mark
        · rw [mark]
          exact ⟨by decide, fun _ => by decide⟩
        · rw [mark]
          exact ⟨by decide, fun _ => by decide⟩
  obtain ⟨s, has, reads⟩ := mantissa_reads n.int_digits n.fracOk isFraction stops
  have text : n.text = n.int ++ (n.fracText ++ n.expText) := by
    rw [NumberText.text, positive]
    rfl
  have any : s.any = true := by
    rw [has.any]
    simp [n.int_ne_nil]
  have scaled : (kept n.digits : ℚ) * 10 ^ (s.exp10 + n.exponent) = 10 ^ 12 * cutValue n := by
    have ten : (10 : ℚ) ≠ 0 := by norm_num
    have power : s.exp10 + n.exponent =
        12 + ((dropped n.digits : Int) + (n.exponent - n.frac.length)) := by
      rw [has.exp10, NumberText.digits]
      omega
    rw [cutValue, zeroPast_value, power, zpow_add₀ ten, zpow_add₀ ten, zpow_natCast]
    push_cast
    ring
  unfold picodollars
  rw [text, reads]
  dsimp only
  rw [any, if_neg (by decide), exponent_reads small]
  dsimp only
  have rounds := scaled_eq (kept_le n.isDigits) (s.exp10 + n.exponent)
  rw [scaled] at rounds
  rw [has.m]
  unfold roundHalfUp
  rw [← rounds]
  show _ = Option.elim (scaleUp _ (kept (n.int ++ n.frac))) _ _
  cases scaleUp (s.exp10 + n.exponent).toNat (kept (n.int ++ n.frac)) with
  | none => rfl
  | some m => rfl

/-- Digits with a malformed exponent. -/
theorem picodollars_malformed {int fraction behind rest : Bytes}
    (intDigits : ∀ d ∈ int, isDigit d = true) (behindDigits : ∀ d ∈ behind, isDigit d = true)
    (isFraction : IsFraction fraction behind)
    (stops : ∀ c more, rest = c :: more →
      isDigit c = false ∧ (fraction = [] → c ≠ 0x2e))
    (malformed : ¬ IsExp rest) : picodollars (int ++ (fraction ++ rest)) = -1 := by
  obtain ⟨s, -, reads⟩ := mantissa_reads intDigits behindDigits isFraction stops
  unfold picodollars
  rw [reads]
  dsimp only
  rw [exponent_none malformed]
  simp

/-- A sign in front. -/
theorem picodollars_signed {c : Byte} (sign : c = 0x2d ∨ c = 0x2b) (rest : Bytes) :
    picodollars (c :: rest) = -1 := by
  rcases sign with rfl | rfl
  · rfl
  · rfl

/-- `picodollars` rounds a number half up at the twelfth place, after its first eighteen
significant digits; no product or sum of a run leaves 64 bits, and the scale stays below
the text's length and 4011; and it refuses a sign and a malformed exponent. -/
theorem picodollars_exact :
    (∀ n : NumberText, n.negative = false → n.exponent.natAbs < 400 →
      picodollars n.text =
        if roundHalfUp (10 ^ 12 * cutValue n) ≤ (int64Max : Int) then
          roundHalfUp (10 ^ 12 * cutValue n) else -1) ∧
    (∀ raw, (∀ v ∈ sums raw, v < 2 ^ 64) ∧ ∀ v ∈ scales raw, v.natAbs ≤ raw.length + 4011) ∧
    (∀ c rest, c = 0x2d ∨ c = 0x2b → picodollars (c :: rest) = -1) ∧
    ∀ int fraction behind rest, (∀ d ∈ int, isDigit d = true) →
      (∀ d ∈ behind, isDigit d = true) → IsFraction fraction behind →
      (∀ c more, rest = c :: more → isDigit c = false ∧ (fraction = [] → c ≠ 0x2e)) →
      ¬ IsExp rest → picodollars (int ++ (fraction ++ rest)) = -1 := by
  refine ⟨fun n positive small => picodollars_number positive small,
    fun raw => ⟨sums_small raw, scales_small raw⟩,
    fun c rest sign => picodollars_signed sign rest, ?_⟩
  intro int fraction behind rest intDigits behindDigits isFraction stops malformed
  exact picodollars_malformed intDigits behindDigits isFraction stops malformed

/-- `2.68e-05` dollars. -/
def fewCents : NumberText where
  negative := false
  int := [0x32]
  frac := [0x36, 0x38]
  exp := some ⟨0x65, [0x2d], [0x30, 0x35], Or.inl rfl, Or.inr (Or.inr rfl), by decide,
    List.all_eq_true.mp (by decide)⟩
  intOk := Or.inr ⟨⟨by decide, List.all_eq_true.mp (by decide)⟩, by decide⟩
  fracOk := List.all_eq_true.mp (by decide)

/-- The same of that amount. -/
theorem picodollars_exact_cents :
    picodollars fewCents.text =
      if roundHalfUp (10 ^ 12 * cutValue fewCents) ≤ (int64Max : Int) then
        roundHalfUp (10 ^ 12 * cutValue fewCents) else -1 :=
  picodollars_exact.1 fewCents rfl (by decide)

example : picodollars fewCents.text = 26800000 := by decide

end JsonScan
end Llmbridge
