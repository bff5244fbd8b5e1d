import Llmbridge.Rfc8259.Grammar

/-!
# What the contents of a string stand for

Section 7 reads string contents as bytes that stand for themselves, two-byte escapes
that stand for one byte each, and unicode escapes that name one UTF-16 code unit each.
Two code units that are a surrogate pair are one code point, any other surrogate is the
replacement character, and code points are written in UTF-8.
-/

namespace Llmbridge
namespace Rfc8259

/-! ## Code units -/

/-- One character of string contents: a byte, or the code unit of a unicode escape. -/
inductive CodeUnit
  | byte (c : Byte)
  | unit (n : Nat)

/-- The two-byte escapes of section 7, each with the byte it stands for. -/
def escapeTable : List (Byte × Byte) :=
  [(0x22, 0x22), (0x5c, 0x5c), (0x2f, 0x2f), (0x62, 0x08), (0x66, 0x0c), (0x6e, 0x0a),
    (0x72, 0x0d), (0x74, 0x09)]

/-- The value of a hexadecimal digit. -/
def hexDigitValue (c : Byte) : Nat :=
  if isDigit c then c.toNat - 0x30
  else if 0x61 ≤ c then c.toNat - 0x61 + 10
  else c.toNat - 0x41 + 10

/-- The code unit of four hexadecimal digits. -/
def quadValue (a b c d : Byte) : Nat :=
  hexDigitValue a * 4096 + hexDigitValue b * 256 + hexDigitValue c * 16 + hexDigitValue d

/-- String contents, character by character. -/
inductive Means : Bytes → List CodeUnit → Prop
  | nil : Means [] []
  | plain (c : Byte) (rest : Bytes) (units : List CodeUnit) :
      isPlain c = true → Means rest units → Means (c :: rest) (.byte c :: units)
  | escape (e b : Byte) (rest : Bytes) (units : List CodeUnit) :
      (e, b) ∈ escapeTable → Means rest units →
        Means (0x5c :: e :: rest) (.byte b :: units)
  | unicode (a b c d : Byte) (rest : Bytes) (units : List CodeUnit) :
      isHex a = true → isHex b = true → isHex c = true → isHex d = true →
      Means rest units →
        Means (0x5c :: 0x75 :: a :: b :: c :: d :: rest) (.unit (quadValue a b c d) :: units)

/-- Every escape of the grammar is in the table. -/
theorem isEscape_mem {e : Byte} (escape : isEscape e = true) :
    ∃ b, (e, b) ∈ escapeTable := by
  simp only [isEscape, Bool.or_eq_true, beq_iff_eq] at escape
  obtain ((((((rfl | rfl) | rfl) | rfl) | rfl) | rfl) | rfl) | rfl := escape
  all_goals simp [escapeTable]

/-- What follows bytes other than a backslash is string contents too. -/
theorem IsChars.after {front back : Bytes} (plain : (0x5c : Byte) ∉ front)
    (chars : IsChars (front ++ back)) : IsChars back := by
  induction front with
  | nil => exact chars
  | cons b front inductionHypothesis =>
      obtain ⟨notSlash, later⟩ := List.ne_and_not_mem_of_not_mem_cons plain
      rw [List.cons_append] at chars
      generalize whole : front ++ back = text at chars
      cases chars with
      | plain _ _ _ chars =>
          rw [← whole] at chars
          exact inductionHypothesis later chars
      | escape => exact absurd rfl notSlash
      | unicode => exact absurd rfl notSlash

/-- String contents stand for some characters. -/
theorem IsChars.means {text : Bytes} (chars : IsChars text) : ∃ units, Means text units := by
  induction chars with
  | nil => exact ⟨_, Means.nil⟩
  | plain c rest plain _ inductionHypothesis =>
      obtain ⟨units, means⟩ := inductionHypothesis
      exact ⟨_, Means.plain c rest units plain means⟩
  | escape e rest escape _ inductionHypothesis =>
      obtain ⟨units, means⟩ := inductionHypothesis
      obtain ⟨b, listed⟩ := isEscape_mem escape
      exact ⟨_, Means.escape e b rest units listed means⟩
  | unicode a b c d rest ha hb hc hd _ inductionHypothesis =>
      obtain ⟨units, means⟩ := inductionHypothesis
      exact ⟨_, Means.unicode a b c d rest units ha hb hc hd means⟩

/-! ## Decoding -/

/-- A high surrogate. -/
abbrev IsHigh (n : Nat) : Prop :=
  0xd800 ≤ n ∧ n ≤ 0xdbff

/-- A low surrogate. -/
abbrev IsLow (n : Nat) : Prop :=
  0xdc00 ≤ n ∧ n ≤ 0xdfff

/-- The code point of a surrogate pair. -/
def pairValue (high low : Nat) : Nat :=
  0x10000 + (high - 0xd800) * 0x400 + (low - 0xdc00)

/-- The UTF-8 bytes of a code point. -/
def encode (n : Nat) : Bytes :=
  String.utf8EncodeChar (Char.ofNat n)

/-- The UTF-8 bytes of a code unit outside a pair: those of U+FFFD for a surrogate. -/
def encodeLone (n : Nat) : Bytes :=
  if IsHigh n ∨ IsLow n then encode 0xfffd else encode n

/-- The bytes a string's characters stand for. -/
def decode : List CodeUnit → Bytes
  | [] => []
  | .byte c :: rest => c :: decode rest
  | [.unit n] => encodeLone n
  | .unit n :: .byte c :: rest => encodeLone n ++ c :: decode rest
  | .unit n :: .unit m :: rest =>
      if IsHigh n ∧ IsLow m then encode (pairValue n m) ++ decode rest
      else encodeLone n ++ decode (.unit m :: rest)

/-- The code unit that the characters begin with, when it is a low surrogate. -/
def lowUnit : List CodeUnit → Option Nat
  | .unit m :: _ => if IsLow m then some m else none
  | _ => none

/-- A code unit that begins no pair is written on its own. -/
theorem decode_lone {n : Nat} {units : List CodeUnit}
    (lone : ¬ IsHigh n ∨ lowUnit units = none) :
    decode (.unit n :: units) = encodeLone n ++ decode units := by
  cases units with
  | nil => simp [decode]
  | cons head rest =>
      cases head with
      | byte c => rfl
      | unit m =>
          have noPair : ¬ (IsHigh n ∧ IsLow m) := by
            rintro ⟨high, low⟩
            rcases lone with other | none
            · exact other high
            · rw [lowUnit, if_pos low] at none
              exact absurd none (by simp)
          exact if_neg noPair

/-- A surrogate pair is one code point. -/
theorem decode_pair {n m : Nat} {units : List CodeUnit} (high : IsHigh n) (low : IsLow m) :
    decode (.unit n :: .unit m :: units) = encode (pairValue n m) ++ decode units :=
  if_pos ⟨high, low⟩

theorem encodeLone_ne_nil (n : Nat) : encodeLone n ≠ [] := by
  unfold encodeLone
  split
  · exact String.utf8EncodeChar_ne_nil
  · exact String.utf8EncodeChar_ne_nil

/-- Every character stands for a byte at least. -/
theorem decode_ne_nil (unit : CodeUnit) (units : List CodeUnit) : decode (unit :: units) ≠ [] := by
  cases unit with
  | byte c => exact List.cons_ne_nil _ _
  | unit n =>
      by_cases lone : ¬ IsHigh n ∨ lowUnit units = none
      · rw [decode_lone lone]
        exact List.append_ne_nil_of_left_ne_nil (encodeLone_ne_nil n) _
      · obtain ⟨high, low⟩ := not_or.mp lone
        cases units with
        | nil => exact absurd rfl low
        | cons next units =>
            cases next with
            | byte c => exact absurd rfl low
            | unit m =>
                have isLow : IsLow m := by
                  by_contra other
                  exact low (if_neg other)
                rw [decode_pair (not_not.mp high) isLow]
                exact List.append_ne_nil_of_left_ne_nil String.utf8EncodeChar_ne_nil _

theorem decode_bytes (front : Bytes) (units : List CodeUnit) :
    decode (front.map .byte ++ units) = front ++ decode units := by
  induction front with
  | nil => rfl
  | cons c front inductionHypothesis => exact congrArg (c :: ·) inductionHypothesis

/-! ## UTF-8 -/

/-- The text is the UTF-8 of some characters. -/
def ValidUtf8 (text : Bytes) : Prop :=
  ∃ chars : List Char, text = chars.flatMap String.utf8EncodeChar

theorem ValidUtf8.nil : ValidUtf8 [] :=
  ⟨[], rfl⟩

theorem ValidUtf8.append {first second : Bytes} (one : ValidUtf8 first)
    (two : ValidUtf8 second) : ValidUtf8 (first ++ second) := by
  obtain ⟨chars, rfl⟩ := one
  obtain ⟨more, rfl⟩ := two
  exact ⟨chars ++ more, by rw [List.flatMap_append]⟩

theorem encode_valid (n : Nat) : ValidUtf8 (encode n) :=
  ⟨[Char.ofNat n], by simp [encode]⟩

theorem encodeLone_valid (n : Nat) : ValidUtf8 (encodeLone n) := by
  unfold encodeLone
  split
  · exact encode_valid _
  · exact encode_valid _

/-- A character is written as one byte below 0x80, or as bytes from 0x80 on. -/
theorem encodeChar_bytes (ch : Char) :
    (∃ c : Byte, String.utf8EncodeChar ch = [c] ∧ c < 0x80) ∨
      (String.utf8EncodeChar ch ≠ [] ∧ ∀ c ∈ String.utf8EncodeChar ch, (0x80 : Byte) ≤ c) := by
  have lead : ∀ n base : Nat, 0x80 ≤ base → n + base < 0x100 →
      (0x80 : Byte) ≤ UInt8.ofNat (n + base) := by
    intro n base large small
    rw [UInt8.le_iff_toNat_le, UInt8.toNat_ofNat_of_lt' small]
    exact Nat.le_add_left_of_le large
  unfold String.utf8EncodeChar
  dsimp only
  split
  · next small =>
    refine Or.inl ⟨_, rfl, ?_⟩
    rw [UInt8.lt_iff_toNat_lt, UInt8.toNat_ofNat_of_lt' (by change _ < 256; omega)]
    exact Nat.lt_succ_of_le small
  · refine Or.inr ?_
    split
    · simp only [List.mem_cons, List.not_mem_nil, or_false, ne_eq, reduceCtorEq,
        not_false_eq_true, true_and, forall_eq_or_imp, forall_eq]
      exact ⟨lead _ _ (by omega) (by omega), lead _ _ (by omega) (by omega)⟩
    · split
      · simp only [List.mem_cons, List.not_mem_nil, or_false, ne_eq, reduceCtorEq,
          not_false_eq_true, true_and, forall_eq_or_imp, forall_eq]
        exact ⟨lead _ _ (by omega) (by omega), lead _ _ (by omega) (by omega),
          lead _ _ (by omega) (by omega)⟩
      · simp only [List.mem_cons, List.not_mem_nil, or_false, ne_eq, reduceCtorEq,
          not_false_eq_true, true_and, forall_eq_or_imp, forall_eq]
        exact ⟨lead _ _ (by omega) (by omega), lead _ _ (by omega) (by omega),
          lead _ _ (by omega) (by omega), lead _ _ (by omega) (by omega)⟩

/-- The first character of valid text: one byte, or bytes that no escape holds. -/
theorem ValidUtf8.first {c : Byte} {rest : Bytes} (valid : ValidUtf8 (c :: rest)) :
    (c < 0x80 ∧ ValidUtf8 rest) ∨
      ∃ front back, c :: rest = front ++ back ∧ front ≠ [] ∧
        (∀ b ∈ front, (0x80 : Byte) ≤ b) ∧ ValidUtf8 front ∧ ValidUtf8 back := by
  obtain ⟨chars, shape⟩ := valid
  cases chars with
  | nil => exact absurd shape (by simp)
  | cons ch chars =>
      rw [List.flatMap_cons] at shape
      obtain ⟨b, single, small⟩ | ⟨some_byte, large⟩ := encodeChar_bytes ch
      · rw [single] at shape
        obtain ⟨rfl, rfl⟩ := List.cons.inj shape
        exact Or.inl ⟨small, chars, rfl⟩
      · exact Or.inr ⟨_, _, shape, some_byte, large, ⟨[ch], by simp⟩, chars, rfl⟩

/-- What follows a byte below 0x80. -/
theorem ValidUtf8.after {c : Byte} {rest : Bytes} (valid : ValidUtf8 (c :: rest))
    (small : c < 0x80) : ValidUtf8 rest := by
  obtain ⟨-, rest_valid⟩ | ⟨front, back, shape, some_byte, large, -, -⟩ := valid.first
  · exact rest_valid
  · obtain ⟨b, front, rfl⟩ := List.exists_cons_of_ne_nil some_byte
    obtain ⟨rfl, -⟩ := List.cons.inj shape
    exact absurd small (UInt8.not_lt.mpr (large c List.mem_cons_self))

theorem ValidUtf8.cons {c : Byte} {rest : Bytes} (small : c < 0x80)
    (valid : ValidUtf8 rest) : ValidUtf8 (c :: rest) := by
  have single : ValidUtf8 [c] := by
    refine ⟨[Char.ofNat c.toNat], ?_⟩
    have all : ∀ n < 128,
        [n.toUInt8] = [Char.ofNat n].flatMap String.utf8EncodeChar := by decide
    have shape := all c.toNat (UInt8.lt_iff_toNat_lt.mp small)
    rwa [show c.toNat.toUInt8 = c from UInt8.ofNat_toNat] at shape
  exact single.append valid

/-- Bytes from 0x80 on stand for themselves. -/
theorem Means.bytes {back : Bytes} : ∀ {front : Bytes} {units : List CodeUnit},
    (∀ b ∈ front, (0x80 : Byte) ≤ b) → Means (front ++ back) units →
      ∃ more, units = front.map .byte ++ more ∧ Means back more := by
  intro front
  induction front with
  | nil => exact fun _ means => ⟨_, rfl, means⟩
  | cons b front inductionHypothesis =>
      intro units large means
      have notSlash : b ≠ 0x5c := by
        rintro rfl
        exact absurd (large _ List.mem_cons_self) (by decide)
      have later : ∀ c ∈ front, (0x80 : Byte) ≤ c :=
        fun c member => large c (List.mem_cons_of_mem b member)
      rw [List.cons_append] at means
      generalize whole : front ++ back = text at means
      cases means with
      | plain _ _ units _ means =>
          rw [← whole] at means
          obtain ⟨more, rfl, rest⟩ := inductionHypothesis later means
          exact ⟨more, rfl, rest⟩
      | escape => exact absurd rfl notSlash
      | unicode => exact absurd rfl notSlash

theorem escapeTable_ascii {e b : Byte} (listed : (e, b) ∈ escapeTable) :
    e < 0x80 ∧ b < 0x80 := by
  have all : (escapeTable.all fun p => p.1 < 0x80 && p.2 < 0x80) = true := by decide
  simpa using List.all_eq_true.mp all _ listed

theorem isHex_ascii {c : Byte} (hex : isHex c = true) : c < 0x80 := by
  simp only [isHex, isDigit, Bool.or_eq_true, Bool.and_eq_true, decide_eq_true_eq,
    UInt8.le_iff_toNat_le] at hex
  rw [UInt8.lt_iff_toNat_lt]
  change c.toNat < 128
  have bounds : c.toNat ≤ 57 ∨ c.toNat ≤ 102 ∨ c.toNat ≤ 70 := by
    obtain (⟨-, digit⟩ | ⟨-, lower⟩) | ⟨-, upper⟩ := hex
    · exact Or.inl digit
    · exact Or.inr (Or.inl lower)
    · exact Or.inr (Or.inr upper)
  omega

/-- What follows a unicode escape. -/
theorem ValidUtf8.afterUnicode {a b c d : Byte} {rest : Bytes}
    (valid : ValidUtf8 (0x5c :: 0x75 :: a :: b :: c :: d :: rest))
    (ha : isHex a = true) (hb : isHex b = true) (hc : isHex c = true)
    (hd : isHex d = true) : ValidUtf8 rest :=
  (((((valid.after (by decide)).after (by decide)).after (isHex_ascii ha)).after
    (isHex_ascii hb)).after (isHex_ascii hc)).after (isHex_ascii hd)

/-- Characters written in UTF-8 decode to UTF-8. -/
theorem decode_valid_le : ∀ (size : Nat) {text : Bytes} {units : List CodeUnit},
    text.length ≤ size → Means text units → ValidUtf8 text → ValidUtf8 (decode units) := by
  intro size
  induction size with
  | zero =>
      intro text units short means _
      cases means with
      | nil => exact ValidUtf8.nil
      | _ => exact absurd short (by simp)
  | succ size inductionHypothesis =>
      intro text units short means valid
      cases means with
      | nil => exact ValidUtf8.nil
      | plain c rest units plain means =>
          obtain ⟨small, valid⟩ | ⟨front, back, shape, some_byte, large, one, two⟩ :=
            valid.first
          · simp only [List.length_cons] at short
            exact (inductionHypothesis (by omega) means valid).cons small
          · have whole : Means (front ++ back) (.byte c :: units) := by
              rw [← shape]
              exact Means.plain c rest units plain means
            obtain ⟨more, same, means⟩ := whole.bytes large
            have smaller : back.length ≤ size := by
              have lengths := congrArg List.length shape
              have positive := List.length_pos_of_ne_nil some_byte
              simp only [List.length_cons, List.length_append] at lengths short
              omega
            rw [same, decode_bytes]
            exact one.append (inductionHypothesis smaller means two)
      | escape e b rest units listed means =>
          obtain ⟨letter, small⟩ := escapeTable_ascii listed
          have valid := (valid.after (by decide)).after letter
          simp only [List.length_cons] at short
          exact (inductionHypothesis (by omega) means valid).cons small
      | unicode a b c d rest units ha hb hc hd means =>
          have valid := valid.afterUnicode ha hb hc hd
          simp only [List.length_cons] at short
          by_cases lone : ¬ IsHigh (quadValue a b c d) ∨ lowUnit units = none
          · rw [decode_lone lone]
            exact (encodeLone_valid _).append (inductionHypothesis (by omega) means valid)
          · obtain ⟨high, low⟩ := not_or.mp lone
            have high := not_not.mp high
            cases means with
            | nil => exact absurd rfl low
            | plain => exact absurd rfl low
            | escape => exact absurd rfl low
            | unicode e f g h rest units he hf hg hh means =>
                by_cases isLow : IsLow (quadValue e f g h)
                · rw [decode_pair high isLow]
                  have valid := valid.afterUnicode he hf hg hh
                  simp only [List.length_cons] at short
                  exact (encode_valid _).append
                    (inductionHypothesis (by omega) means valid)
                · exact absurd (if_neg isLow) low

theorem decode_valid {text : Bytes} {units : List CodeUnit} (means : Means text units)
    (valid : ValidUtf8 text) : ValidUtf8 (decode units) :=
  decode_valid_le text.length (Nat.le_refl _) means valid

end Rfc8259
end Llmbridge
