import Llmbridge.Provider.Json

/-!
# Unescaping texts put together

`unescape_string` over string contents followed by more: the two parts decode on their
own, unless an escape for a high surrogate ends the first and one for a low surrogate
begins the second.
-/

namespace Llmbridge
namespace Json

open Rfc8259

/-- A unicode escape decodes to its bytes. -/
theorem unescapeFrom_unicode {more bytes : Bytes} {taken : Nat}
    (decoded : Json.unicodeEscape more = some (bytes, taken)) :
    unescapeFrom 0 (0x5c :: 0x75 :: more) = bytes ++ unescapeFrom taken (0x75 :: more) := by
  simp [unescapeFrom, decoded]

/-- A low surrogate begins with a backslash and a `u`. -/
theorem lowSurrogate_none {c e : Byte} {rest : Bytes} (other : c ≠ 0x5c ∨ e ≠ 0x75) :
    lowSurrogate (c :: e :: rest) = none := by
  unfold lowSurrogate
  split
  · rename_i same
    simp only [List.cons.injEq] at same
    rw [if_neg]
    rintro ⟨rfl, rfl⟩
    rcases other with slash | letter
    · exact slash same.1
    · exact letter same.2.1
  · rfl

theorem lowSurrogate_plain {c : Byte} (other : c ≠ 0x5c) (rest : Bytes) :
    lowSurrogate (c :: rest) = none := by
  cases rest with
  | nil => rfl
  | cons e rest => exact lowSurrogate_none (Or.inl other)

/-- String contents end no escape that the text behind them goes on with. -/
theorem lowSurrogate_append {text rest : Bytes} (chars : IsChars text)
    (noLow : lowSurrogate rest = none) :
    lowSurrogate (text ++ rest) = lowSurrogate text := by
  cases chars with
  | nil => exact noLow
  | plain c more plain _ =>
      have other : c ≠ 0x5c := by
        rintro rfl
        exact absurd plain (by decide)
      rw [List.cons_append, lowSurrogate_plain other, lowSurrogate_plain other]
  | escape c more escape _ =>
      have other : c ≠ 0x75 := by
        rintro rfl
        exact absurd escape (by decide)
      rw [List.cons_append, List.cons_append, lowSurrogate_none (Or.inr other),
        lowSurrogate_none (Or.inr other)]
  | unicode a b c d more ha hb hc hd _ => rfl

theorem lowSurrogate_some {text : Bytes} {lo : Nat} (low : lowSurrogate text = some lo)
    (chars : IsChars text) :
    ∃ a b c d more, text = 0x5c :: 0x75 :: a :: b :: c :: d :: more ∧ IsChars more := by
  cases chars with
  | nil => exact absurd low (by simp [lowSurrogate])
  | plain c more plain _ =>
      have other : c ≠ 0x5c := by
        rintro rfl
        exact absurd plain (by decide)
      rw [lowSurrogate_plain other] at low
      exact absurd low (by simp)
  | escape c more escape _ =>
      have other : c ≠ 0x75 := by
        rintro rfl
        exact absurd escape (by decide)
      rw [lowSurrogate_none (Or.inr other)] at low
      exact absurd low (by simp)
  | unicode a b c d more ha hb hc hd chars => exact ⟨a, b, c, d, more, rfl, chars⟩

theorem hexValue_some {c : Byte} (hex : isHex c = true) : ∃ n, hexValue c = some n := by
  simp only [isHex, isDigit, Bool.or_eq_true, Bool.and_eq_true, decide_eq_true_eq] at hex
  unfold hexValue
  split
  · exact ⟨_, rfl⟩
  · split
    · exact ⟨_, rfl⟩
    · split
      · exact ⟨_, rfl⟩
      · rename_i digit lower upper
        exact absurd hex (by simp [digit, lower, upper])

theorem hexQuad_some {a b c d : Byte} (ha : isHex a = true) (hb : isHex b = true)
    (hc : isHex c = true) (hd : isHex d = true) : ∃ cp, hexQuad a b c d = some cp := by
  obtain ⟨_, first⟩ := hexValue_some ha
  obtain ⟨_, second⟩ := hexValue_some hb
  obtain ⟨_, third⟩ := hexValue_some hc
  obtain ⟨_, fourth⟩ := hexValue_some hd
  rw [hexQuad, first, second, third, fourth]
  exact ⟨_, rfl⟩

/-- Unescaping goes over string contents and then over what follows, unless a low
surrogate follows. -/
theorem unescapeFrom_append {rest : Bytes} (noLow : lowSurrogate rest = none) :
    ∀ (n : Nat) {text : Bytes}, text.length ≤ n → IsChars text →
      unescapeFrom 0 (text ++ rest) = unescapeFrom 0 text ++ unescapeFrom 0 rest := by
  intro n
  induction n with
  | zero =>
      intro text short _
      rw [List.length_eq_zero_iff.mp (Nat.le_zero.mp short)]
      rfl
  | succ n inductionHypothesis =>
      intro text short chars
      cases chars with
      | nil => rfl
      | plain c more plain chars =>
          have other : c ≠ 0x5c := by
            rintro rfl
            exact absurd plain (by decide)
          simp only [List.length_cons] at short
          have after := inductionHypothesis (by omega) chars
          simp only [List.cons_append, unescapeFrom, if_pos other, after, ne_eq]
      | escape c more escape chars =>
          have other : c ≠ 0x75 := by
            rintro rfl
            exact absurd escape (by decide)
          simp only [List.length_cons] at short
          have after := inductionHypothesis (by omega) chars
          simp [unescapeFrom, other, after]
      | unicode a b c d more ha hb hc hd chars =>
          simp only [List.length_cons] at short
          obtain ⟨cp, quad⟩ := hexQuad_some ha hb hc hd
          have low := lowSurrogate_append chars noLow
          cases surrogate : lowSurrogate more with
          | none =>
              rw [surrogate] at low
              have taken : ∀ tail : Bytes, lowSurrogate tail = none →
                  unicodeEscape (a :: b :: c :: d :: tail) =
                    some (utf8 (loneSurrogate cp), 5) := by
                intro tail none
                rw [unicodeEscape, quad, Option.map_some, none]
              simp only [List.cons_append]
              rw [unescapeFrom_unicode (taken _ low), unescapeFrom_unicode (taken _ surrogate),
                List.append_assoc]
              exact congrArg _ (inductionHypothesis (by omega) chars)
          | some lo =>
              rw [surrogate] at low
              by_cases high : 0xd800 ≤ cp ∧ cp ≤ 0xdbff
              · have taken : ∀ tail : Bytes, lowSurrogate tail = some lo →
                    unicodeEscape (a :: b :: c :: d :: tail) =
                      some (utf8 (0x10000 + ((cp - 0xd800) <<< 10) + (lo - 0xdc00)), 11) := by
                  intro tail some
                  rw [unicodeEscape, quad, Option.map_some, some]
                  exact congrArg Option.some (if_pos high)
                obtain ⟨e, f, g, h, after, rfl, charsAfter⟩ := lowSurrogate_some surrogate chars
                simp only [List.cons_append] at low ⊢
                rw [unescapeFrom_unicode (taken _ low), unescapeFrom_unicode (taken _ surrogate),
                  List.append_assoc]
                simp only [List.length_cons] at short
                exact congrArg _ (inductionHypothesis (by omega) charsAfter)
              · have taken : ∀ tail : Bytes, lowSurrogate tail = some lo →
                    unicodeEscape (a :: b :: c :: d :: tail) =
                      some (utf8 (loneSurrogate cp), 5) := by
                  intro tail some
                  rw [unicodeEscape, quad, Option.map_some, some]
                  exact congrArg Option.some (if_neg high)
                simp only [List.cons_append]
                rw [unescapeFrom_unicode (taken _ low), unescapeFrom_unicode (taken _ surrogate),
                  List.append_assoc]
                exact congrArg _ (inductionHypothesis (by omega) chars)

theorem unescapeString_append {text rest : Bytes} (chars : IsChars text)
    (noLow : lowSurrogate rest = none) :
    unescapeString (text ++ rest) = unescapeString text ++ unescapeString rest :=
  unescapeFrom_append noLow text.length (Nat.le_refl _) chars

end Json
end Llmbridge
