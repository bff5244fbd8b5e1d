import Llmbridge.Rfc8259.Strings
import Llmbridge.Provider.JsonScalars
import Llmbridge.Provider.TranslateResponseCorrect

/-!
# Escaping and unescaping

`unescape_append` and `append_escaped` with the indices and the bulk copies of the
source.  The first decodes what the parser accepts between two quotes as the grammar
reads it, and the second writes a literal that decodes to the bytes it was given.
-/

namespace Llmbridge
namespace Json

open Rfc8259
open Translate (escapedByte escaped)

/-! ## The loop over the span -/

/-- `raw.find('\\', i)`. -/
def findSlash (raw : Bytes) (i : Nat) : Option Nat :=
  ((raw.drop i).findIdx? (· == 0x5c)).map (i + ·)

/-- The end of the plain run from `i`: the next backslash, unless it is the last
byte. -/
def runEnd (raw : Bytes) (i : Nat) : Nat :=
  match findSlash raw (i + 1) with
  | none => raw.length
  | some j => if j + 1 ≥ raw.length then raw.length else j

/-- The loop over four hexadecimal digits from `i` on. -/
def quadAt (raw : Bytes) (i : Nat) : Option Nat :=
  hexQuad (raw.getD i 0) (raw.getD (i + 1) 0) (raw.getD (i + 2) 0) (raw.getD (i + 3) 0)

/-- The low half of a pair, `i` being the last digit of the escape before it. -/
def pairAt (raw : Bytes) (i cp : Nat) : Option Nat :=
  if 0xd800 ≤ cp ∧ cp ≤ 0xdbff ∧ i + 6 < raw.length ∧ raw.getD (i + 1) 0 = 0x5c ∧
      raw.getD (i + 2) 0 = 0x75 then
    (quadAt raw (i + 3)).filter fun lo => 0xdc00 ≤ lo ∧ lo ≤ 0xdfff
  else none

/-- The loop of `unescape_append` from index `i` on.  Every round goes at least one
byte further. -/
def unescapeLoop (raw : Bytes) : (rounds i : Nat) → Bytes
  | 0, _ => []
  | rounds + 1, i =>
      if raw.length ≤ i then []
      else if raw.getD i 0 ≠ 0x5c ∨ i + 1 ≥ raw.length then
        (raw.drop i).take (runEnd raw i - i) ++ unescapeLoop raw rounds (runEnd raw i)
      else
        let i := i + 1
        if raw.getD i 0 ≠ 0x75 then
          escapeByte (raw.getD i 0) :: unescapeLoop raw rounds (i + 1)
        else if i + 4 ≥ raw.length then []
        else
          match quadAt raw (i + 1) with
          | none => []
          | some cp =>
              let i := i + 4
              match pairAt raw i cp with
              | some lo =>
                  utf8 (0x10000 + ((cp - 0xd800) <<< 10) + (lo - 0xdc00)) ++
                    unescapeLoop raw rounds (i + 6 + 1)
              | none => utf8 (loneSurrogate cp) ++ unescapeLoop raw rounds (i + 1)

/-- `unescape_append`. -/
def unescapeAppend (out raw : Bytes) : Bytes :=
  out ++ unescapeLoop raw raw.length 0

/-- A plain run is copied. -/
theorem unescapeFrom_run {run : Bytes} (plain : ∀ c ∈ run, c ≠ 0x5c) (rest : Bytes) :
    unescapeFrom 0 (run ++ rest) = run ++ unescapeFrom 0 rest := by
  induction run with
  | nil => rfl
  | cons c run inductionHypothesis =>
      have other : c ≠ 0x5c := plain c List.mem_cons_self
      have later : ∀ b ∈ run, b ≠ 0x5c := fun b member => plain b (List.mem_cons_of_mem c member)
      simp [unescapeFrom, other, inductionHypothesis later]

/-- The text at an index, whose byte is there. -/
theorem drop_cons {raw : Bytes} {i : Nat} (inside : i < raw.length) :
    raw.drop i = raw.getD i 0 :: raw.drop (i + 1) := by
  rw [List.drop_eq_getElem_cons inside, List.getD_eq_getElem _ _ inside]

/-- A plain run ends further on, and is copied. -/
theorem runEnd_copies {raw : Bytes} {i : Nat} (inside : i < raw.length)
    (plain : raw.getD i 0 ≠ 0x5c ∨ i + 1 ≥ raw.length) :
    i < runEnd raw i ∧ runEnd raw i ≤ raw.length ∧
      unescapeFrom 0 (raw.drop i) =
        (raw.drop i).take (runEnd raw i - i) ++ unescapeFrom 0 (raw.drop (runEnd raw i)) := by
  have lengths : (raw.drop (i + 1)).length = raw.length - (i + 1) := List.length_drop
  have whole : ∀ run : Bytes, unescapeFrom 0 run = run → raw.drop i = run →
      unescapeFrom 0 (raw.drop i) =
        (raw.drop i).take (raw.length - i) ++ unescapeFrom 0 (raw.drop raw.length) := by
    intro run same shape
    rw [shape, same, ← shape, List.drop_length, List.take_of_length_le (by simp)]
    exact (List.append_nil _).symm
  by_cases last : i + 1 ≥ raw.length
  · -- One byte is left, and it is copied even if it is a backslash.
    have nothing : raw.drop (i + 1) = [] := List.drop_eq_nil_of_le last
    have stop : runEnd raw i = raw.length := by
      simp [runEnd, findSlash, nothing]
    rw [stop]
    refine ⟨inside, Nat.le_refl _, whole [raw.getD i 0] ?_ ?_⟩
    · by_cases slash : raw.getD i 0 = 0x5c
      · rw [slash]; rfl
      · apply unescapeString_of_unescaped
        simpa [Unescaped] using slash
    · rw [drop_cons inside, nothing]
  · have other : raw.getD i 0 ≠ 0x5c := plain.resolve_right last
    cases found : (raw.drop (i + 1)).findIdx? (· == 0x5c) with
    | none =>
        have stop : runEnd raw i = raw.length := by
          rw [runEnd, findSlash, found]; rfl
        rw [stop]
        refine ⟨inside, Nat.le_refl _, whole (raw.drop i) ?_ rfl⟩
        rw [drop_cons inside]
        have none_slash := List.findIdx?_eq_none_iff.mp found
        apply unescapeString_of_unescaped
        intro c member
        rcases List.mem_cons.mp member with rfl | member
        · exact other
        · simpa using none_slash c member
    | some k =>
        obtain ⟨bound, slash, before⟩ := List.findIdx?_eq_some_iff_getElem.mp found
        rw [lengths] at bound
        -- The run up to that backslash, and the backslash with what follows it.
        have runPlain : ∀ c ∈ (raw.drop i).take (k + 1), c ≠ 0x5c := by
          rw [drop_cons inside, List.take_succ_cons]
          intro c member
          rcases List.mem_cons.mp member with rfl | member
          · exact other
          · obtain ⟨j, small, rfl⟩ := List.getElem_of_mem member
            have smaller : j < k := by
              rw [List.length_take] at small
              omega
            rw [List.getElem_take]
            simpa using before j smaller
        have split : raw.drop i = (raw.drop i).take (k + 1) ++ raw.drop (i + 1 + k) := by
          have parts := (List.take_append_drop (k + 1) (raw.drop i)).symm
          rwa [List.drop_drop, show i + (k + 1) = i + 1 + k by omega] at parts
        have copied : unescapeFrom 0 (raw.drop i) =
            (raw.drop i).take (k + 1) ++ unescapeFrom 0 (raw.drop (i + 1 + k)) := by
          rw [← unescapeFrom_run runPlain, ← split]
        by_cases ends : i + 1 + k + 1 ≥ raw.length
        · have stop : runEnd raw i = raw.length := by
            rw [runEnd, findSlash, found]
            exact if_pos ends
          rw [stop]
          refine ⟨inside, Nat.le_refl _, whole (raw.drop i) ?_ rfl⟩
          have single : raw.drop (i + 1 + k) = [0x5c] := by
            have at_slash : raw.getD (i + 1 + k) 0 = 0x5c := by
              rw [List.getElem_drop, beq_iff_eq] at slash
              rw [List.getD_eq_getElem _ _ (by omega), slash]
            rw [drop_cons (by omega), at_slash, List.drop_eq_nil_of_le (by omega)]
          have kept : unescapeFrom 0 [0x5c] = [0x5c] := rfl
          rw [copied, single, kept, ← single, ← split]
        · have stop : runEnd raw i = i + 1 + k := by
            rw [runEnd, findSlash, found]
            exact if_neg ends
          rw [stop, show i + 1 + k - i = k + 1 by omega]
          exact ⟨by omega, by omega, copied⟩

/-- The digits of an escape, read at their indices. -/
theorem drop_quad {raw : Bytes} {i : Nat} (inside : i + 4 < raw.length) :
    raw.drop (i + 1) = raw.getD (i + 1) 0 :: raw.getD (i + 1 + 1) 0 ::
      raw.getD (i + 1 + 2) 0 :: raw.getD (i + 1 + 3) 0 :: raw.drop (i + 4 + 1) := by
  rw [drop_cons (by omega), drop_cons (by omega), drop_cons (by omega), drop_cons (by omega)]

/-- The look-ahead for the low half of a pair. -/
theorem pairAt_eq (raw : Bytes) (i cp : Nat) :
    pairAt raw i cp =
      if 0xd800 ≤ cp ∧ cp ≤ 0xdbff then lowSurrogate (raw.drop (i + 1)) else none := by
  by_cases high : 0xd800 ≤ cp ∧ cp ≤ 0xdbff
  · rw [if_pos high]
    by_cases inside : i + 6 < raw.length
    · rw [drop_cons (by omega), drop_cons (by omega), drop_quad (i := i + 1 + 1) (by omega)]
      by_cases marks : raw.getD (i + 1) 0 = 0x5c ∧ raw.getD (i + 1 + 1) 0 = 0x75
      · rw [pairAt, if_pos ⟨high.1, high.2, inside, marks⟩]
        exact (if_pos marks).symm
      · rw [pairAt, if_neg (fun h => marks h.2.2.2)]
        exact (if_neg marks).symm
    · rw [pairAt, if_neg (fun h => inside h.2.2.1)]
      have short : (raw.drop (i + 1)).length < 6 := by
        rw [List.length_drop]
        omega
      unfold lowSurrogate
      split
      · next same =>
        rw [same] at short
        simp only [List.length_cons] at short
        omega
      · rfl
  · rw [if_neg high, pairAt, if_neg (fun h => high ⟨h.1, h.2.1⟩)]

/-- The digits of an escape decode with the look-ahead behind them. -/
theorem unicodeEscape_at {raw : Bytes} {i cp : Nat} (inside : i + 4 < raw.length)
    (quad : quadAt raw (i + 1) = some cp) :
    unicodeEscape (raw.drop (i + 1)) =
      some (((pairAt raw (i + 4) cp).map fun lo =>
        (utf8 (0x10000 + ((cp - 0xd800) <<< 10) + (lo - 0xdc00)), 11)).getD
          (utf8 (loneSurrogate cp), 5)) := by
  rw [quadAt] at quad
  rw [drop_quad inside, unicodeEscape, quad, pairAt_eq, Option.map_some]
  congr 1
  cases lowSurrogate (raw.drop (i + 4 + 1)) with
  | none => simp
  | some lo => by_cases high : 0xd800 ≤ cp ∧ cp ≤ 0xdbff <;> simp [high]

/-- An escape that is cut or not hexadecimal ends the decoding. -/
theorem unescapeFrom_cut {more : Bytes} (none : unicodeEscape more = none) :
    unescapeFrom 0 (0x5c :: 0x75 :: more) = [] := by
  simp [unescapeFrom, none]

/-- Skipping bytes that were read. -/
theorem unescapeFrom_skip (skip : Nat) (text : Bytes) :
    unescapeFrom skip text = unescapeFrom 0 (text.drop skip) := by
  induction skip generalizing text with
  | zero => rfl
  | succ skip inductionHypothesis =>
      cases text with
      | nil => rfl
      | cons c text => exact inductionHypothesis text

/-- The loop decodes what is left of the span. -/
theorem unescapeLoop_eq (raw : Bytes) : ∀ rounds i : Nat, raw.length - i ≤ rounds →
    unescapeLoop raw rounds i = unescapeFrom 0 (raw.drop i) := by
  intro rounds
  induction rounds with
  | zero =>
      intro i few
      rw [List.drop_eq_nil_of_le (by omega)]
      rfl
  | succ rounds inductionHypothesis =>
      intro i few
      unfold unescapeLoop
      by_cases done : raw.length ≤ i
      · rw [if_pos done, List.drop_eq_nil_of_le done]
        rfl
      rw [if_neg done]
      have inside : i < raw.length := Nat.lt_of_not_le done
      by_cases plain : raw.getD i 0 ≠ 0x5c ∨ i + 1 ≥ raw.length
      · obtain ⟨further, _, copied⟩ := runEnd_copies inside plain
        rw [if_pos plain, inductionHypothesis _ (by omega), copied]
      obtain ⟨slash, more⟩ := not_or.mp plain
      have slash : raw.getD i 0 = 0x5c := not_not.mp slash
      have insideNext : i + 1 < raw.length := Nat.lt_of_not_le more
      rw [if_neg plain, drop_cons inside, slash, drop_cons insideNext]
      dsimp only
      by_cases letter : raw.getD (i + 1) 0 ≠ 0x75
      · rw [if_pos letter, inductionHypothesis _ (by omega)]
        have skipped := unescapeFrom_skip 1 (raw.getD (i + 1) 0 :: raw.drop (i + 1 + 1))
        simp only [unescapeFrom, ne_eq, not_true_eq_false, if_false, if_pos letter]
      rw [if_neg letter, not_not.mp letter]
      by_cases cut : i + 1 + 4 ≥ raw.length
      · -- The escape is cut by the end of the span.
        rw [if_pos cut, unescapeFrom_cut]
        have short : (raw.drop (i + 1 + 1)).length < 4 := by
          rw [List.length_drop]
          omega
        unfold unicodeEscape
        split
        · next same =>
          rw [same] at short
          simp only [List.length_cons] at short
          omega
        · rfl
      rw [if_neg cut]
      have digits : i + 1 + 4 < raw.length := Nat.lt_of_not_le cut
      cases quad : quadAt raw (i + 1 + 1) with
      | none =>
          rw [unescapeFrom_cut]
          rw [quadAt] at quad
          rw [drop_quad digits, unicodeEscape, quad]
          rfl
      | some cp =>
          have taken := unicodeEscape_at digits quad
          cases pair : pairAt raw (i + 1 + 4) cp with
          | none =>
              rw [pair] at taken
              dsimp only
              rw [pair, unescapeFrom_unicode taken, unescapeFrom_skip 5]
              dsimp only
              rw [inductionHypothesis _ (by omega), List.drop_succ_cons, List.drop_drop]
          | some lo =>
              rw [pair] at taken
              dsimp only
              rw [pair, unescapeFrom_unicode taken, unescapeFrom_skip 11]
              dsimp only
              rw [inductionHypothesis _ (by omega), List.drop_succ_cons, List.drop_drop]

/-- The indices and the bulk copies decode as the bytes one by one. -/
theorem unescapeAppend_eq (out raw : Bytes) :
    unescapeAppend out raw = out ++ unescapeString raw := by
  rw [unescapeAppend, unescapeLoop_eq raw raw.length 0 (by omega)]
  rfl

/-! ## Decoding as the grammar reads it -/

/-- The bytes the source writes for a code point are its UTF-8. -/
theorem utf8_eq_encode {n : Nat} (small : n < 0x110000)
    (scalar : ¬ (0xd800 ≤ n ∧ n ≤ 0xdfff)) : utf8 n = encode n := by
  have value : (Char.ofNat n).val.toNat = n := by
    have valid : n.isValidChar := by
      unfold Nat.isValidChar
      omega
    simp [Char.ofNat, valid]
  have lead : ∀ k i x : Nat, x < 2 ^ i →
      (2 ^ i * k ||| x).toUInt8 = UInt8.ofNat (x + 2 ^ i * k) := by
    intro k i x bound
    rw [← Nat.two_pow_add_eq_or_of_lt bound, Nat.add_comm]
  have six : ∀ x : Nat, (0x80 ||| (x &&& 0x3f)).toUInt8 = UInt8.ofNat (x % 0x40 + 0x80) := by
    intro x
    rw [show x &&& 0x3f = x % 0x40 from Nat.and_two_pow_sub_one_eq_mod x 6]
    exact lead 2 6 (x % 0x40) (Nat.mod_lt _ (by decide))
  unfold utf8 encode String.utf8EncodeChar
  dsimp only
  rw [value]
  by_cases one : n < 0x80
  · rw [if_pos one, if_pos (show n ≤ 0x7f by omega)]
  rw [if_neg one, if_neg (show ¬ n ≤ 0x7f by omega)]
  by_cases two : n < 0x800
  · rw [if_pos two, if_pos (show n ≤ 0x7ff by omega), six, Nat.shiftRight_eq_div_pow,
      Nat.mod_eq_of_lt (show n / 64 < 0x20 by omega)]
    exact congrArg (· :: _) (lead 3 6 (n / 64) (by omega))
  rw [if_neg two, if_neg (show ¬ n ≤ 0x7ff by omega)]
  by_cases three : n < 0x10000
  · rw [if_pos three, if_pos (show n ≤ 0xffff by omega), six, six, Nat.shiftRight_eq_div_pow,
      Nat.shiftRight_eq_div_pow, Nat.mod_eq_of_lt (show n / 4096 < 0x10 by omega)]
    exact congrArg (· :: _) (lead 7 5 (n / 4096) (by omega))
  rw [if_neg three, if_neg (show ¬ n ≤ 0xffff by omega), six, six, six,
    Nat.shiftRight_eq_div_pow, Nat.shiftRight_eq_div_pow, Nat.shiftRight_eq_div_pow,
    Nat.mod_eq_of_lt (show n / 262144 < 0x08 by omega)]
  exact congrArg (· :: _) (lead 15 4 (n / 262144) (by omega))

theorem hexValue_eq {c : Byte} (hex : isHex c = true) :
    hexValue c = some (hexDigitValue c) ∧ hexDigitValue c < 16 := by
  have all : ∀ n < 256, isHex (UInt8.ofNat n) = true →
      hexValue (UInt8.ofNat n) = some (hexDigitValue (UInt8.ofNat n)) ∧
        hexDigitValue (UInt8.ofNat n) < 16 := by
    decide +kernel
  have this := all c.toNat c.toNat_lt
  rw [UInt8.ofNat_toNat] at this
  exact this hex

theorem hexQuad_eq {a b c d : Byte} (ha : isHex a = true) (hb : isHex b = true)
    (hc : isHex c = true) (hd : isHex d = true) :
    hexQuad a b c d = some (quadValue a b c d) ∧ quadValue a b c d < 0x10000 := by
  obtain ⟨first, one⟩ := hexValue_eq ha
  obtain ⟨second, two⟩ := hexValue_eq hb
  obtain ⟨third, three⟩ := hexValue_eq hc
  obtain ⟨fourth, four⟩ := hexValue_eq hd
  unfold quadValue
  constructor
  · rw [hexQuad, first, second, third, fourth]
    apply congrArg some
    omega
  · omega

/-- A code unit on its own. -/
theorem utf8_lone {n : Nat} (small : n < 0x10000) : utf8 (loneSurrogate n) = encodeLone n := by
  unfold loneSurrogate encodeLone
  by_cases surrogate : 0xd800 ≤ n ∧ n ≤ 0xdfff
  · rw [if_pos surrogate, if_pos (by omega)]
    exact utf8_eq_encode (by decide) (by decide)
  · rw [if_neg surrogate, if_neg (by omega)]
    exact utf8_eq_encode (by omega) surrogate

/-- A surrogate pair. -/
theorem utf8_pair {high low : Nat} (isHigh : IsHigh high) (isLow : IsLow low) :
    utf8 (0x10000 + ((high - 0xd800) <<< 10) + (low - 0xdc00)) =
      encode (pairValue high low) := by
  obtain ⟨_, _⟩ := isHigh
  obtain ⟨_, _⟩ := isLow
  rw [Nat.shiftLeft_eq]
  exact utf8_eq_encode (by omega) (by omega)

/-- The look-ahead sees the next code unit when it is a low surrogate. -/
theorem lowSurrogate_means {text : Bytes} {units : List CodeUnit} (means : Means text units) :
    lowSurrogate text = lowUnit units := by
  cases means with
  | nil => rfl
  | plain c rest units plain _ =>
      apply lowSurrogate_plain
      rintro rfl
      exact absurd plain (by decide)
  | escape e b rest units listed _ =>
      apply lowSurrogate_none
      right
      rintro rfl
      exact absurd listed (by simp [escapeTable])
  | unicode a b c d rest units ha hb hc hd _ =>
      obtain ⟨quad, -⟩ := hexQuad_eq ha hb hc hd
      show (if (0x5c : Byte) = 0x5c ∧ (0x75 : Byte) = 0x75 then
        (hexQuad a b c d).filter fun lo => 0xdc00 ≤ lo ∧ lo ≤ 0xdfff else none) = _
      rw [if_pos ⟨rfl, rfl⟩, quad, lowUnit, Option.filter_some]
      simp only [decide_eq_true_eq]

/-- A two-byte escape stands for the byte of the table. -/
theorem escapeByte_table {e b : Byte} (listed : (e, b) ∈ escapeTable) :
    e ≠ 0x75 ∧ escapeByte e = b := by
  have all : (escapeTable.all fun p => p.1 != 0x75 && escapeByte p.1 == p.2) = true := by decide
  simpa using List.all_eq_true.mp all _ listed

/-- Unescaping decodes as the grammar reads the contents. -/
theorem unescapeFrom_means : ∀ (size : Nat) {text : Bytes} {units : List CodeUnit},
    text.length ≤ size → Means text units → unescapeFrom 0 text = decode units := by
  intro size
  induction size with
  | zero =>
      intro text units short means
      cases means with
      | nil => rfl
      | _ => exact absurd short (by simp)
  | succ size inductionHypothesis =>
      intro text units short means
      cases means with
      | nil => rfl
      | plain c rest units plain means =>
          have other : c ≠ 0x5c := by
            rintro rfl
            exact absurd plain (by decide)
          simp only [List.length_cons] at short
          have later := inductionHypothesis (by omega) means
          simp [unescapeFrom, other, later, decode]
      | escape e b rest units listed means =>
          obtain ⟨letter, byte⟩ := escapeByte_table listed
          simp only [List.length_cons] at short
          have later := inductionHypothesis (by omega) means
          simp [unescapeFrom, letter, byte, later, decode]
      | unicode a b c d rest units ha hb hc hd means =>
          obtain ⟨quad, small⟩ := hexQuad_eq ha hb hc hd
          have low := lowSurrogate_means means
          simp only [List.length_cons] at short
          by_cases pair : IsHigh (quadValue a b c d) ∧ ∃ lo, lowUnit units = some lo
          · obtain ⟨high, lo, some_low⟩ := pair
            have taken : unicodeEscape (a :: b :: c :: d :: rest) =
                some (utf8 (0x10000 + ((quadValue a b c d - 0xd800) <<< 10) + (lo - 0xdc00)),
                  11) := by
              rw [unicodeEscape, quad, Option.map_some, low, some_low]
              exact congrArg Option.some (if_pos high)
            rw [unescapeFrom_unicode taken, unescapeFrom_skip 11]
            cases means with
            | nil => exact absurd some_low (by simp [lowUnit])
            | plain => exact absurd some_low (by simp [lowUnit])
            | escape => exact absurd some_low (by simp [lowUnit])
            | unicode e f g h rest units he hf hg hh means =>
                obtain ⟨isLow, same⟩ := Option.ite_none_right_eq_some.mp some_low
                have same := Option.some.inj same
                subst same
                simp only [List.length_cons] at short
                have later := inductionHypothesis (show rest.length ≤ size by omega) means
                rw [decode_pair high isLow, utf8_pair high isLow]
                exact congrArg _ later
          · have lone : ¬ IsHigh (quadValue a b c d) ∨ lowUnit units = none := by
              rcases not_and_or.mp pair with other | none
              · exact Or.inl other
              · exact Or.inr (Option.eq_none_iff_forall_ne_some.mpr fun lo same =>
                  none ⟨lo, same⟩)
            have taken : unicodeEscape (a :: b :: c :: d :: rest) =
                some (utf8 (loneSurrogate (quadValue a b c d)), 5) := by
              rw [unicodeEscape, quad, Option.map_some, low]
              rcases lone with other | none
              · cases lowUnit units with
                | none => rfl
                | some lo => exact congrArg Option.some (if_neg other)
              · rw [none]
            have later := inductionHypothesis (show rest.length ≤ size by omega) means
            rw [unescapeFrom_unicode taken, unescapeFrom_skip 5, decode_lone lone,
              utf8_lone small]
            exact congrArg _ later

theorem unescapeString_means {text : Bytes} {units : List CodeUnit}
    (means : Means text units) : unescapeString text = decode units :=
  unescapeFrom_means text.length (Nat.le_refl _) means

/-- What `parse_string` accepts is string contents between quotes. -/
theorem parseString_chars {p : Parser} (quote : p.sees 0x22)
    (ok : p.parseString.2.ok = true) : IsChars p.parseString.1.bytes := by
  obtain ⟨rest, begins⟩ : ∃ rest, p.rest = 0x22 :: rest := by
    cases split : p.rest with
    | nil => exact absurd quote (by simp [Parser.sees, split])
    | cons c rest =>
        have same : c = 0x22 := by simpa [Parser.sees, split] using quote
        exact ⟨rest, by rw [same]⟩
  have met := Parser.parseString_meets begins
  cases read : readChars rest with
  | none =>
      rw [read, meets_none] at met
      exact absurd ok (by simp [met])
  | some found =>
      rw [read] at met
      rw [met.1 trivial]
      exact found.1.ok

/-! ## Escaping -/

/-- The loop of `append_escaped`, `run` being the plain run that is not copied yet. -/
def escapeLoop (run : Bytes) : Bytes → Bytes
  | [] => run
  | c :: rest =>
      if c ≠ 0x22 ∧ c ≠ 0x5c ∧ 0x20 ≤ c then escapeLoop (run ++ [c]) rest
      else run ++ escapedByte c ++ escapeLoop [] rest

/-- `append_escaped`. -/
def appendEscaped (out raw : Bytes) : Bytes :=
  out ++ 0x22 :: (escapeLoop [] raw ++ [0x22])

theorem escapeLoop_eq (run raw : Bytes) : escapeLoop run raw = run ++ raw.flatMap escapedByte := by
  induction raw generalizing run with
  | nil => exact (List.append_nil run).symm
  | cons c raw inductionHypothesis =>
      unfold escapeLoop
      split
      · next plain =>
        have same : escapedByte c = [c] := by
          obtain ⟨quote, slash, printable⟩ := plain
          have bound := UInt8.le_iff_toNat_le.mp printable
          have control : ∀ b : Byte, b.toNat < 32 → c ≠ b := by
            rintro b small rfl
            exact absurd bound (Nat.not_le.mpr small)
          simp [escapedByte, quote, slash, control 0x0a (by decide), control 0x09 (by decide),
            control 0x0d (by decide), control 0x08 (by decide), control 0x0c (by decide),
            UInt8.not_lt.mpr printable]
        rw [inductionHypothesis, List.flatMap_cons, same, List.append_assoc]
      · rw [inductionHypothesis, List.flatMap_cons, List.nil_append, List.append_assoc]

/-- The runs the source copies at once are written byte by byte in `escaped`. -/
theorem appendEscaped_eq (out raw : Bytes) : appendEscaped out raw = out ++ escaped raw := by
  rw [appendEscaped, escapeLoop_eq]
  rfl

/-- A string literal is read to its closing quote. -/
theorem parseString_quoted {p : Parser} {raw tail : Bytes} (chars : IsChars raw)
    (begins : p.rest = quoted raw ++ tail) :
    p.parseString.1.bytes = raw ∧ p.parseString.2.rest = tail ∧ p.parseString.2.ok = p.ok := by
  have split : p.rest = 0x22 :: (raw ++ 0x22 :: tail) := by
    rw [begins, quoted, List.cons_append, List.append_assoc]
    rfl
  have met := Parser.parseString_meets split
  rw [readChars_append chars tail] at met
  rw [met.1 trivial]
  exact ⟨rfl, rfl, rfl⟩

/-- A string literal is a document. -/
theorem parse_quoted {raw : Bytes} (chars : IsChars raw) :
    ∃ v, Json.parse (quoted raw) = (v, true) ∧ v.type = .string ∧ v.sv.bytes = raw := by
  let text := (Rfc8259.Json.string ⟨raw, chars⟩).bare
  have shape : quoted raw = text.render := by
    rw [Rfc8259.Json.bare_render, Rfc8259.Json.render]
  have good : IsDocument .unique text := by
    constructor
    · exact Nat.le_of_ble_eq_true rfl
    · exact Nat.le_of_ble_eq_true rfl
    · exact fun _ => trivial
  have ok : (Json.parse (quoted raw)).2 = true := (parse_ok_iff _ _).mpr ⟨text, shape, good⟩
  have value := parse_value shape ok
  exact ⟨_, Prod.ext rfl ok, congrArg Value.type value, congrArg (·.sv.bytes) value⟩

/-- `append_escaped` writes a literal that the parser accepts, wherever it stands, and
that unescapes to the bytes it was given.  `unescape_append` decodes every span that
`parse_string` accepts as the grammar reads it, and UTF-8 stays UTF-8. -/
theorem escapes_exact :
    (∀ b out : Bytes, ∃ literal, appendEscaped out b = out ++ literal ∧
      (∃ v, Json.parse literal = (v, true) ∧ v.type = .string ∧
        unescapeAppend [] v.sv.bytes = b) ∧
      ∀ (p : Parser) (tail : Bytes), p.rest = literal ++ tail →
        p.parseString.2.ok = p.ok ∧ p.parseString.2.rest = tail ∧
          unescapeAppend [] p.parseString.1.bytes = b) ∧
    ∀ p : Parser, p.sees 0x22 → p.parseString.2.ok = true →
      (∃ units, Means p.parseString.1.bytes units) ∧
        (∀ units, Means p.parseString.1.bytes units → ∀ out,
          unescapeAppend out p.parseString.1.bytes = out ++ decode units) ∧
        (ValidUtf8 p.parseString.1.bytes →
          ValidUtf8 (unescapeAppend [] p.parseString.1.bytes)) := by
  constructor
  · intro b out
    have chars := Translate.flatMap_escapedByte_chars b
    have back : ∀ raw, raw = b.flatMap escapedByte → unescapeAppend [] raw = b := by
      rintro raw rfl
      rw [unescapeAppend_eq, List.nil_append, Translate.unescapeString_escaped]
    refine ⟨escaped b, appendEscaped_eq out b, ?_, ?_⟩
    · obtain ⟨v, parsed, string, span⟩ := parse_quoted chars
      exact ⟨v, parsed, string, back _ span⟩
    · intro p tail begins
      obtain ⟨span, rest, ok⟩ := parseString_quoted chars begins
      exact ⟨ok, rest, back _ span⟩
  · intro p quote ok
    obtain ⟨units, means⟩ := (parseString_chars quote ok).means
    refine ⟨⟨units, means⟩, fun units means out => ?_, fun valid => ?_⟩
    · rw [unescapeAppend_eq, unescapeString_means means]
    · rw [unescapeAppend_eq, List.nil_append, unescapeString_means means]
      exact decode_valid means valid

/-- The same of a pair of escapes, read from their literal. -/
theorem escapes_exact_pair :
    unescapeAppend [] (ascii "\\ud83d\\ude00") = [0xf0, 0x9f, 0x98, 0x80] := by
  have means : Means (ascii "\\ud83d\\ude00") [.unit 0xd83d, .unit 0xde00] :=
    Means.unicode 0x64 0x38 0x33 0x64 _ _ rfl rfl rfl rfl
      (Means.unicode 0x64 0x65 0x30 0x30 _ _ rfl rfl rfl rfl Means.nil)
  exact (escapes_exact.2 { rest := ascii "\"\\ud83d\\ude00\"" } rfl rfl).2.1 _ means []

end Json
end Llmbridge
