import Llmbridge.Provider.JsonTree

/-!
# The parser below its containers

Strings, numbers, literals and keys of the parser compared with the reference
reader on the same bytes: what state they leave where the reader finds one, and
that `ok` is cleared where it finds none.
-/

namespace Llmbridge
namespace Json

open Rfc8259

/-! ## States after a reading -/

namespace Parser

/-- The state after `bytes` bytes of the text were read and `after` is left,
with what the values among them counted. -/
def moved (p : Parser) (after : Bytes) (bytes nodes escapes : Nat) : Parser :=
  { p with
    rest := after
    i := p.i + bytes
    nodes := p.nodes + nodes
    escapes := p.escapes + escapes }

section Moved

variable (p : Parser) (after : Bytes) (bytes nodes escapes : Nat)

@[simp] theorem moved_rest : (p.moved after bytes nodes escapes).rest = after := rfl

@[simp] theorem moved_i : (p.moved after bytes nodes escapes).i = p.i + bytes := rfl

@[simp] theorem moved_nodes :
    (p.moved after bytes nodes escapes).nodes = p.nodes + nodes := rfl

@[simp] theorem moved_escapes :
    (p.moved after bytes nodes escapes).escapes = p.escapes + escapes := rfl

@[simp] theorem moved_ok : (p.moved after bytes nodes escapes).ok = p.ok := rfl

@[simp] theorem moved_depth :
    (p.moved after bytes nodes escapes).depth = p.depth := rfl

@[simp] theorem moved_vstack :
    (p.moved after bytes nodes escapes).vstack = p.vstack := rfl

@[simp] theorem moved_mstack :
    (p.moved after bytes nodes escapes).mstack = p.mstack := rfl

@[simp] theorem moved_okeys :
    (p.moved after bytes nodes escapes).okeys = p.okeys := rfl

@[simp] theorem moved_moved (after' : Bytes) (bytes' nodes' escapes' : Nat) :
    (p.moved after bytes nodes escapes).moved after' bytes' nodes' escapes' =
      p.moved after' (bytes + bytes') (nodes + nodes') (escapes + escapes') := by
  simp [moved, Nat.add_assoc]

end Moved

/-- A parser that is moved over nothing is the same. -/
theorem moved_same
    {p : Parser} {after : Bytes} (same : p.rest = after) :
    p.moved after 0 0 0 = p := by
  subst same
  rfl

/-- Stepping over a front moves behind it. -/
theorem advance_eq_moved
    {p : Parser} (front : Bytes) {after : Bytes} {n : Nat}
    (split : p.rest = front ++ after) (size : front.length = n) :
    p.advance n = p.moved after n 0 0 := by
  subst size
  simp [advance, moved, split]

/-- One byte on. -/
theorem advance_one
    {p : Parser} {c : Byte} {after : Bytes} (split : p.rest = c :: after) :
    p.advance 1 = p.moved after 1 0 0 :=
  advance_eq_moved [c] split rfl

/-- Stepping over the bytes of a kind. -/
theorem advance_takeWhile (p : Parser) (q : Byte → Bool) :
    p.advance (p.rest.takeWhile q).length =
      p.moved (p.rest.dropWhile q) (p.rest.takeWhile q).length 0 0 :=
  advance_eq_moved _ List.takeWhile_append_dropWhile.symm rfl

/-- `ws` moves behind the whitespace. -/
theorem ws_eq_moved (p : Parser) :
    p.ws = p.moved (readWs p.rest).2 (readWs p.rest).1.bytes.length 0 0 :=
  advance_takeWhile p isWs

/-- Counting a node moves nothing else. -/
theorem countNode_eq_moved (p : Parser) :
    p.countNode = p.moved p.rest 0 1 0 := rfl

/-- The bytes since an earlier place. -/
theorem since_of_split
    {p start : Parser} {front after : Bytes}
    (split : start.rest = front ++ after) (moved : p.i = start.i + front.length) :
    p.since start = ⟨start.i, front⟩ := by
  simp [since, split, moved]

end Parser

/-- A result against what the reader found: the expected result when it found
something good, and a cleared `ok` when it found nothing or nothing good. -/
def Meets {α β : Type} (result : α × Parser) (reading : Option β)
    (good : β → Prop) (expected : β → α × Parser) : Prop :=
  match reading with
  | none => result.2.ok = false
  | some found =>
      (good found → result = expected found) ∧
        (¬ good found → result.2.ok = false)

section Meets

variable {α β : Type} {result : α × Parser} {good : β → Prop}
  {expected : β → α × Parser}

@[simp] theorem meets_none :
    Meets result none good expected ↔ result.2.ok = false := Iff.rfl

@[simp] theorem meets_some {found : β} :
    Meets result (some found) good expected ↔
      (good found → result = expected found) ∧
        (¬ good found → result.2.ok = false) := Iff.rfl

/-- A failed result meets a reading that has nothing good. -/
theorem meets_of_failed
    {reading : Option β} (failed : result.2.ok = false)
    (nothing : ∀ found, reading = some found → ¬ good found) :
    Meets result reading good expected := by
  cases reading with
  | none => exact failed
  | some found =>
      exact ⟨fun isGood => (nothing found rfl isGood).elim, fun _ => failed⟩

/-- A result met on something good. -/
theorem Meets.eq_of_good
    {found : β} (met : Meets result (some found) good expected)
    (isGood : good found) : result = expected found :=
  met.1 isGood

/-- A result met on a reading meets what is made of it. -/
theorem Meets.map
    {γ : Type} {reading : Option β} {f : β → γ} {good' : γ → Prop}
    {expected' : γ → α × Parser} (met : Meets result reading good expected)
    (same : ∀ found, good' (f found) ↔ good found)
    (equal : ∀ found, expected' (f found) = expected found) :
    Meets result (reading.map f) good' expected' := by
  cases reading with
  | none => exact met
  | some found =>
      refine ⟨fun isGood => ?_, fun notGood => ?_⟩
      · rw [equal]
        exact met.1 ((same found).mp isGood)
      · exact met.2 fun isGood => notGood ((same found).mpr isGood)

/-- A result with its value put to use. -/
theorem Meets.onValue
    {γ : Type} {reading : Option β} (met : Meets result reading good expected)
    (f : α → γ) :
    Meets (f result.1, result.2) reading good
      (fun found => (f (expected found).1, (expected found).2)) := by
  cases reading with
  | none => exact met
  | some found => exact ⟨fun isGood => by rw [met.1 isGood], met.2⟩

end Meets

/-! ## Strings -/

/-- A byte that is no backslash is no escape. -/
theorem countEscapes_cons
    {c : Byte} (plain : c ≠ 0x5c) (rest : Bytes) :
    countEscapes (c :: rest) = countEscapes rest := by
  cases rest with
  | nil => simp [countEscapes]
  | cons e rest => simp [countEscapes, plain]

/-- A plain byte is no backslash. -/
theorem isPlain_ne_backslash
    {c : Byte} (plain : isPlain c = true) : c ≠ 0x5c := by
  rintro rfl
  simp [isPlain] at plain

/-- Plain bytes hold no escape. -/
theorem countEscapes_append
    {front : Bytes} (plain : ∀ c ∈ front, isPlain c = true) (rest : Bytes) :
    countEscapes (front ++ rest) = countEscapes rest := by
  induction front with
  | nil => rfl
  | cons c front inductionHypothesis =>
      rw [List.cons_append,
        countEscapes_cons (isPlain_ne_backslash (plain c (by simp)))]
      exact inductionHypothesis fun c member =>
        plain c (List.mem_cons_of_mem _ member)

/-- Nor is a hex digit. -/
theorem isHex_ne_backslash
    {c : Byte} (hex : isHex c = true) : c ≠ 0x5c := by
  rintro rfl
  revert hex
  decide

/-- Contents with no escape counted hold no backslash. -/
theorem unescaped_of_countEscapes_eq_zero
    {bytes : Bytes} (chars : IsChars bytes) (none : countEscapes bytes = 0) :
    Unescaped bytes := by
  induction chars with
  | nil => simp [Unescaped]
  | plain c rest plain _ inductionHypothesis =>
      rw [countEscapes_cons (isPlain_ne_backslash plain)] at none
      intro other member
      rcases List.mem_cons.mp member with rfl | later
      · exact isPlain_ne_backslash plain
      · exact inductionHypothesis none other later
  | escape c rest _ _ _ => simp [countEscapes] at none
  | unicode a b c d rest _ _ _ _ _ _ => simp [countEscapes] at none

/-- The reader passes over a plain run. -/
theorem readChars_plain_append
    {front : Bytes} (plain : ∀ c ∈ front, isPlain c = true)
    (rest after : Bytes) (chars : Chars)
    (read : readChars rest = some (chars, after)) :
    ∃ whole, readChars (front ++ rest) = some (whole, after) ∧
      whole.bytes = front ++ chars.bytes := by
  induction front with
  | nil => exact ⟨chars, read, rfl⟩
  | cons c front inductionHypothesis =>
      obtain ⟨whole, wholeRead, wholeBytes⟩ := inductionHypothesis
        fun c member => plain c (List.mem_cons_of_mem _ member)
      have cPlain := plain c (by simp)
      have notQuote : c ≠ 0x22 := by
        rintro rfl
        simp [isPlain] at cPlain
      rw [List.cons_append, readChars.eq_def]
      simp [notQuote, isPlain_ne_backslash cPlain, cPlain, wholeRead, wholeBytes]

/-- Plain bytes in front mend no broken string. -/
theorem readChars_plain_append_none
    {front : Bytes} (plain : ∀ c ∈ front, isPlain c = true)
    {rest : Bytes} (read : readChars rest = none) :
    readChars (front ++ rest) = none := by
  induction front with
  | nil => exact read
  | cons c front inductionHypothesis =>
      have wholeRead := inductionHypothesis
        fun c member => plain c (List.mem_cons_of_mem _ member)
      have cPlain := plain c (by simp)
      have notQuote : c ≠ 0x22 := by
        rintro rfl
        simp [isPlain] at cPlain
      rw [List.cons_append, readChars.eq_def]
      simp [notQuote, isPlain_ne_backslash cPlain, cPlain, wholeRead]

namespace Parser

/-- `string_stop` moves over the plain bytes. -/
theorem stringStop_eq_moved (p : Parser) :
    p.stringStop = p.moved (p.rest.dropWhile isPlain)
      (p.rest.takeWhile isPlain).length 0 0 := by
  have same : (fun c : Byte => !(c == 0x22 || c == 0x5c || decide (c < 0x20))) =
      isPlain := by
    funext c
    have control : (!decide (c < 0x20)) = decide (0x20 ≤ c) := by
      simp [← decide_not, UInt8.not_lt]
    simp [isPlain, bne, Bool.and_assoc, control]
  rw [stringStop, same]
  exact advance_takeWhile p isPlain

/-- A walk to the closing quote found it exactly when the reader does. -/
def FindsQuote (result : Bool × Parser) (p : Parser) : Prop :=
  (∀ chars after, readChars p.rest = some (chars, after) →
    result = (true, p.moved (0x22 :: after) chars.bytes.length 0
      (countEscapes chars.bytes))) ∧
  (readChars p.rest = none → result.1 = false)

/-- A walk may first pass over the plain run in front of it. -/
theorem findsQuote_of_stringStop
    {result : Bool × Parser} {p : Parser}
    (stopped : FindsQuote result p.stringStop) : FindsQuote result p := by
  rw [FindsQuote, stringStop_eq_moved, moved_rest] at stopped
  have split : p.rest.takeWhile isPlain ++ p.rest.dropWhile isPlain = p.rest :=
    List.takeWhile_append_dropWhile
  have plain : ∀ c ∈ p.rest.takeWhile isPlain, isPlain c = true :=
    fun c member => List.mem_takeWhile_imp member
  cases read : readChars (p.rest.dropWhile isPlain) with
  | none =>
      have wholeRead := readChars_plain_append_none plain read
      rw [split] at wholeRead
      exact ⟨by simp [wholeRead], fun _ => stopped.2 read⟩
  | some found =>
      obtain ⟨chars, after⟩ := found
      obtain ⟨whole, wholeRead, wholeBytes⟩ :=
        readChars_plain_append plain _ after chars read
      rw [split] at wholeRead
      refine ⟨?_, by simp [wholeRead]⟩
      intro chars' after' read'
      rw [wholeRead, Option.some.injEq, Prod.mk.injEq] at read'
      obtain ⟨rfl, rfl⟩ := read'
      rw [stopped.1 chars after read, wholeBytes, countEscapes_append plain]
      simp

/-- An escape in front of a walk that finds its quote. -/
theorem findsQuote_escape
    {result : Bool × Parser} {p : Parser} (front : Bytes) {rest : Bytes}
    (wrap : Chars → Chars)
    (found : FindsQuote result (p.moved rest front.length 0 1))
    (read : readChars p.rest =
      (readChars rest).map fun (chars, after) => (wrap chars, after))
    (wrapBytes : ∀ chars, (wrap chars).bytes = front ++ chars.bytes)
    (wrapEscapes : ∀ bytes, countEscapes (front ++ bytes) =
      countEscapes bytes + 1) :
    FindsQuote result p := by
  obtain ⟨stops, fails⟩ := found
  rw [moved_rest] at stops fails
  rw [FindsQuote, read]
  cases inner : readChars rest with
  | none => exact ⟨by simp, fun _ => fails inner⟩
  | some found =>
      obtain ⟨chars, after⟩ := found
      refine ⟨?_, by simp⟩
      intro chars' after' equal
      simp only [Option.map_some, Option.some.injEq, Prod.mk.injEq] at equal
      obtain ⟨rfl, rfl⟩ := equal
      rw [stops chars after inner, wrapBytes, wrapEscapes]
      simp [Nat.add_comm]

/-- The letters that may follow a backslash. -/
theorem isEscapeChar_eq (c : Byte) :
    isEscapeChar c = (isEscape c || c == 0x75) := rfl

/-- A \u escape counts as one. -/
theorem countEscapes_unicode
    {h₁ h₂ h₃ h₄ : Byte} (hex : isHex h₁ = true ∧ isHex h₂ = true ∧
      isHex h₃ = true ∧ isHex h₄ = true) (bytes : Bytes) :
    countEscapes (0x5c :: 0x75 :: h₁ :: h₂ :: h₃ :: h₄ :: bytes) =
      countEscapes bytes + 1 := by
  obtain ⟨hex₁, hex₂, hex₃, hex₄⟩ := hex
  rw [countEscapes, if_pos rfl, countEscapes_cons (isHex_ne_backslash hex₁),
    countEscapes_cons (isHex_ne_backslash hex₂),
    countEscapes_cons (isHex_ne_backslash hex₃),
    countEscapes_cons (isHex_ne_backslash hex₄)]

/-- A backslash, with what may follow it. -/
theorem stringAt_backslash
    {again : Parser → Bool × Parser} {p : Parser} {rest : Bytes}
    (backslash : p.rest = 0x5c :: rest)
    (shorter : ∀ q : Parser, q.rest.length < p.rest.length →
      FindsQuote (again q) q) :
    FindsQuote (stringAt again p) p := by
  have notQuote : (0x5c : Byte) ≠ 0x22 := by decide
  have notControl : ¬ (0x5c : Byte) < 0x20 := by decide
  have step : ∀ (front after : Bytes) (n : Nat),
      p.rest = front ++ after → front.length = n →
      p.countEscape.advance n = p.moved after n 0 1 := by
    intro front after n split size
    rw [show p.countEscape = p.moved p.rest 0 0 1 from rfl,
      advance_eq_moved _ (p := p.moved p.rest 0 0 1) split size]
    simp
  rw [stringAt, backslash]
  simp only [notQuote, notControl, if_false]
  rw [backslash] at step shorter
  cases rest with
  | nil =>
      have read : readChars p.rest = none := by
        rw [backslash, readChars.eq_def]
        simp
      exact ⟨by simp [read], fun _ => rfl⟩
  | cons e more =>
      simp only [isEscapeChar_eq]
      by_cases escape : isEscape e = true
      · have notU : e ≠ 0x75 := by
          rintro rfl
          exact absurd escape (by decide)
        simp only [escape, Bool.true_or, if_true, notU, if_false]
        rw [step [0x5c, e] more 2 rfl rfl]
        refine findsQuote_escape [0x5c, e]
          (fun chars =>
            ⟨0x5c :: e :: chars.bytes, .escape _ _ escape chars.ok⟩)
          (shorter _ (by simp only [moved_rest, List.length_cons]; omega))
          ?_ (fun _ => rfl) (fun bytes => by simp [countEscapes])
        rw [backslash, readChars.eq_def]
        simp [escape]
      · by_cases unicode : e = 0x75
        · simp only [unicode, beq_self_eq_true, Bool.or_true, if_true]
          have notEscape : isEscape 0x75 = false := by decide
          have cut : ∀ {result : Bool × Parser}, more.length < 4 →
              result.1 = false → FindsQuote result p := by
            intro result short failed
            have read : readChars p.rest = none := by
              rw [backslash, readChars.eq_def]
              simp only [unicode, notEscape]
              match more with
              | [] => simp
              | [_] => simp
              | [_, _] => simp
              | [_, _, _] => simp
            exact ⟨by simp [read], fun _ => failed⟩
          match more with
          | h₁ :: h₂ :: h₃ :: h₄ :: after =>
              by_cases hex : isHex h₁ = true ∧ isHex h₂ = true ∧
                  isHex h₃ = true ∧ isHex h₄ = true
              · obtain ⟨hex₁, hex₂, hex₃, hex₄⟩ := hex
                simp only [hex₁, hex₂, hex₃, hex₄, Bool.and_self, if_true]
                rw [step [0x5c, e, h₁, h₂, h₃, h₄] after 6 rfl rfl]
                refine findsQuote_escape [0x5c, 0x75, h₁, h₂, h₃, h₄]
                  (fun chars =>
                    ⟨0x5c :: 0x75 :: h₁ :: h₂ :: h₃ :: h₄ :: chars.bytes,
                      .unicode _ _ _ _ _ hex₁ hex₂ hex₃ hex₄ chars.ok⟩)
                  (shorter _ (by simp only [moved_rest, List.length_cons]; omega))
                  ?_ (fun _ => rfl)
                  (countEscapes_unicode ⟨hex₁, hex₂, hex₃, hex₄⟩)
                rw [backslash, readChars.eq_def]
                simp [unicode, notEscape, hex₁, hex₂, hex₃, hex₄]
              · have read : readChars p.rest = none := by
                  rw [backslash, readChars.eq_def]
                  simp [unicode, notEscape, hex]
                refine ⟨by simp [read], fun _ => ?_⟩
                have notHex : (isHex h₁ && isHex h₂ && isHex h₃ && isHex h₄) =
                    false := by
                  simpa [Bool.and_assoc] using hex
                simp [notHex]
          | [] => exact cut (by simp) (by simp)
          | [_] => exact cut (by simp) (by simp)
          | [_, _] => exact cut (by simp) (by simp)
          | [_, _, _] => exact cut (by simp) (by simp)
        · have read : readChars p.rest = none := by
            rw [backslash, readChars.eq_def]
            simp [escape, unicode]
          refine ⟨by simp [read], fun _ => ?_⟩
          simp [escape, unicode]

/-- The byte a plain run stopped at. -/
theorem stringAt_findsQuote
    {again : Parser → Bool × Parser} {p : Parser}
    (stops : ∀ c rest, p.rest = c :: rest → isPlain c = false)
    (shorter : ∀ q : Parser, q.rest.length < p.rest.length →
      FindsQuote (again q) q) :
    FindsQuote (stringAt again p) p := by
  cases split : p.rest with
  | nil =>
      simp [FindsQuote, stringAt, split, readChars]
  | cons c rest =>
      by_cases quote : c = 0x22
      · have read : readChars p.rest = some (⟨[], .nil⟩, rest) := by
          rw [split, quote, readChars.eq_def]
          simp
        refine ⟨?_, by simp [read]⟩
        intro chars after equal
        rw [read, Option.some.injEq, Prod.mk.injEq] at equal
        obtain ⟨rfl, rfl⟩ := equal
        rw [stringAt, split]
        simp only [quote, if_true, List.length_nil, countEscapes]
        rw [moved_same (by rw [split, quote])]
      · by_cases backslash : c = 0x5c
        · exact stringAt_backslash (backslash ▸ split) shorter
        · have notPlain := stops c rest split
          have control : c < 0x20 := by
            simpa [isPlain, quote, backslash, UInt8.not_le] using notPlain
          have read : readChars p.rest = none := by
            rw [split, readChars.eq_def]
            simp [quote, backslash, notPlain]
          exact ⟨by simp [read], by simp [stringAt, split, quote, control]⟩

/-- The loop of `parse_string` finds the closing quote exactly when the
contents are those of a string. -/
theorem stringLoop_findsQuote
    {fuel : Nat} {p : Parser} (enough : p.rest.length < fuel) :
    FindsQuote (stringLoop fuel p) p := by
  induction fuel generalizing p with
  | zero => omega
  | succ fuel inductionHypothesis =>
      refine findsQuote_of_stringStop (stringAt_findsQuote ?_ ?_)
      · rw [stringStop_eq_moved, moved_rest]
        intro c rest equal
        have head := List.head_dropWhile_not isPlain (l := p.rest) (by simp [equal])
        simpa [equal] using head
      · intro q shorter
        refine inductionHypothesis ?_
        rw [stringStop_eq_moved, moved_rest] at shorter
        have size : (p.rest.dropWhile isPlain).length ≤ p.rest.length :=
          List.length_dropWhile_le ..
        omega

/-- `parse_string` on a quote. -/
theorem parseString_meets
    {p : Parser} {rest : Bytes} (quote : p.rest = 0x22 :: rest) :
    Meets p.parseString (readChars rest) (fun _ => True)
      (fun (chars, after) =>
        (⟨p.i + 1, chars.bytes⟩,
          p.moved after (chars.bytes.length + 2) 0
            (countEscapes chars.bytes))) := by
  have start := advance_one quote
  have finds := stringLoop_findsQuote (p := p.moved rest 1 0 0)
    (Nat.lt_succ_self rest.length)
  rw [FindsQuote, moved_rest] at finds
  rw [parseString, start, moved_rest]
  cases read : readChars rest with
  | none =>
      have failed := finds.2 read
      rw [meets_none]
      split
      · next equal => simp [equal] at failed
      · rfl
  | some found =>
      obtain ⟨chars, after⟩ := found
      refine ⟨fun _ => ?_, fun absurd => (absurd trivial).elim⟩
      rw [finds.1 chars after read]
      have split := readChars_spec read
      simp only [moved_moved]
      rw [@since_of_split _ _ chars.bytes _ split (by simp only [moved_i]; omega),
        @advance_one _ 0x22 after rfl]
      simp only [moved_i, moved_moved, Prod.mk.injEq, true_and]
      congr 1 <;> omega

/-! ## Numbers -/

/-- A part of a number against the reader of that part. -/
def ReadsPart (result : Bool × Parser) (p : Parser)
    (reading : Option (Bytes × Bytes)) : Prop :=
  match reading with
  | none => result.1 = false
  | some (bytes, after) => result = (true, p.moved after bytes.length 0 0)

/-- `digits` reads what the grammar's digits are. -/
theorem digits_readsPart (p : Parser) :
    ReadsPart p.digits p
      ((readDigits p.rest).map fun (digits, after) => (digits.1, after)) := by
  rw [digits, advance_takeWhile]
  by_cases some_digit : p.rest.takeWhile isDigit = []
  · simp [ReadsPart, readDigits, some_digit]
  · have positive := List.length_pos_of_ne_nil some_digit
    simp [ReadsPart, readDigits, some_digit, positive]

/-- The sign moves over a minus. -/
theorem minusSign_eq_moved (p : Parser) :
    p.minusSign = p.moved (readMinus p.rest).2 (readMinus p.rest).1.length 0 0 := by
  rw [minusSign]
  cases split : p.rest with
  | nil => simp [readMinus, moved_same split]
  | cons c rest =>
      by_cases minus : c = 0x2d
      · simp [readMinus, minus, advance_one split]
      · simp [readMinus, minus, moved_same split]

/-- The exponent's sign moves over a plus or a minus. -/
theorem expSign_eq_moved (p : Parser) :
    p.expSign = p.moved (readSign p.rest).2 (readSign p.rest).1.length 0 0 := by
  rw [expSign]
  cases split : p.rest with
  | nil => simp [readSign, moved_same split]
  | cons c rest =>
      by_cases sign : c = 0x2b ∨ c = 0x2d
      · simp [readSign, sign, advance_one split]
      · simp [readSign, sign, moved_same split]

/-- A part read after bytes that belong to it. -/
theorem ReadsPart.after
    {result : Bool × Parser} {p : Parser} (front : Bytes) {rest : Bytes}
    {reading : Option (Bytes × Bytes)}
    (inner : ReadsPart result (p.moved rest front.length 0 0) reading) :
    ReadsPart result p
      (reading.map fun (bytes, after) => (front ++ bytes, after)) := by
  cases reading with
  | none => exact inner
  | some found => simpa [ReadsPart] using inner

/-- The integer part reads what the grammar's is. -/
theorem intPart_readsPart (p : Parser) :
    ReadsPart p.intPart p (readInt p.rest) := by
  rw [intPart]
  cases split : p.rest with
  | nil => rfl
  | cons c rest =>
      by_cases zero : c = 0x30
      · have digit : isDigit 0x30 = true := by decide
        simp [ReadsPart, readInt, zero, digit, advance_one split]
      · have inner := digits_readsPart p
        by_cases digit : isDigit c = true
        · have some_digit : (c :: rest).takeWhile isDigit ≠ [] := by simp [digit]
          have read : readDigits (c :: rest) = some (⟨(c :: rest).takeWhile isDigit,
              some_digit, fun _ member => List.mem_takeWhile_imp member⟩,
              (c :: rest).dropWhile isDigit) := dif_pos some_digit
          simp only [split, read, Option.map_some, ReadsPart] at inner
          simp [ReadsPart, readInt, zero, digit, read, inner]
        · simp [ReadsPart, readInt, zero, digit, readDigits]

/-- So does the fraction. -/
theorem fracPart_readsPart (p : Parser) :
    ReadsPart p.fracPart p (readFrac p.rest) := by
  rw [fracPart]
  cases split : p.rest with
  | nil => simp [ReadsPart, readFrac, moved_same split]
  | cons c rest =>
      by_cases point : c = 0x2e
      · have inner := (digits_readsPart (p.moved rest 1 0 0)).after [0x2e]
        simp only [point, if_true, readFrac, advance_one split]
        simpa [Option.map_map, Function.comp_def] using inner
      · simp [ReadsPart, readFrac, point, moved_same split]

/-- So does the exponent. -/
theorem expPart_readsPart (p : Parser) :
    ReadsPart p.expPart p (readExp p.rest) := by
  rw [expPart]
  cases split : p.rest with
  | nil => simp [ReadsPart, readExp, moved_same split]
  | cons c rest =>
      by_cases marker : c = 0x65 ∨ c = 0x45
      · have inner := (digits_readsPart
            (p.moved (readSign rest).2 ((readSign rest).1.length + 1) 0 0)).after
          (c :: (readSign rest).1)
        simp only [marker, if_true, readExp, advance_one split, expSign_eq_moved]
        simpa [Option.map_map, Function.comp_def, Nat.add_comm] using inner
      · simp [ReadsPart, readExp, marker, moved_same split]

/-- `parse_number` against the reader of numbers. -/
theorem parseNumber_meets (p : Parser) :
    Meets p.parseNumber (readNumber p.rest) (fun _ => True)
      (fun (number, after) =>
        ({ type := .number, sv := ⟨p.i, number.bytes⟩ },
          p.moved after number.bytes.length 0 0)) := by
  have int := intPart_readsPart p.minusSign
  rw [minusSign_eq_moved, moved_rest] at int
  have noNumber : readNumberBytes p.rest = none → p.parseNumber.2.ok = false →
      Meets p.parseNumber (readNumber p.rest) (fun _ => True)
        (fun (number, after) =>
          ({ type := .number, sv := ⟨p.i, number.bytes⟩ },
            p.moved after number.bytes.length 0 0)) := by
    intro read failed
    rw [readNumber_eq_none_iff.mpr read]
    exact failed
  cases intRead : readInt (readMinus p.rest).2 with
  | none =>
      rw [intRead] at int
      refine noNumber (by simp [readNumberBytes, intRead]) ?_
      rw [parseNumber, minusSign_eq_moved]
      split
      · rfl
      · next equal => simp [ReadsPart, equal] at int
  | some foundInt =>
      obtain ⟨intBytes, s₁⟩ := foundInt
      rw [intRead, ReadsPart, moved_moved] at int
      have frac := fracPart_readsPart (p.moved s₁
        ((readMinus p.rest).1.length + intBytes.length) 0 0)
      rw [moved_rest] at frac
      cases fracRead : readFrac s₁ with
      | none =>
          rw [fracRead] at frac
          refine noNumber (by simp [readNumberBytes, intRead, fracRead]) ?_
          rw [parseNumber, minusSign_eq_moved, int]
          simp only
          split
          · rfl
          · next equal => simp [ReadsPart, equal] at frac
      | some foundFrac =>
          obtain ⟨fracBytes, s₂⟩ := foundFrac
          rw [fracRead, ReadsPart, moved_moved] at frac
          have exp := expPart_readsPart (p.moved s₂
            ((readMinus p.rest).1.length + intBytes.length + fracBytes.length) 0 0)
          rw [moved_rest] at exp
          cases expRead : readExp s₂ with
          | none =>
              rw [expRead] at exp
              refine noNumber (by
                simp [readNumberBytes, intRead, fracRead, expRead]) ?_
              rw [parseNumber, minusSign_eq_moved, int]
              simp only [Nat.add_zero, frac]
              split
              · rfl
              · next equal => simp [ReadsPart, equal] at exp
          | some foundExp =>
              obtain ⟨expBytes, s₃⟩ := foundExp
              rw [expRead, ReadsPart, moved_moved] at exp
              have read : readNumberBytes p.rest =
                  some ((readMinus p.rest).1 ++
                    (intBytes ++ (fracBytes ++ expBytes)), s₃) := by
                simp [readNumberBytes, intRead, fracRead, expRead]
              obtain ⟨shape, split⟩ := readNumberBytes_spec read
              have numberRead := (@readNumber_eq_some_iff _ _
                ⟨_, shape⟩).mpr read
              rw [numberRead]
              refine ⟨fun _ => ?_, fun absurd => (absurd trivial).elim⟩
              rw [parseNumber, minusSign_eq_moved, int]
              simp only [Nat.add_zero, frac, exp]
              rw [since_of_split split (by
                simp only [moved_i, List.length_append]; omega)]
              simp [Nat.add_assoc]

/-! ## Scalars -/

/-- The bytes begin with a word exactly when it can be taken off. -/
theorem take_eq_iff_strip {word s : Bytes} :
    s.take word.length = word ↔ strip word s = some (s.drop word.length) := by
  rw [strip_eq_some_iff]
  constructor
  · intro equal
    conv_lhs => rw [← List.take_append_drop word.length s, equal]
  · intro split
    rw [split]
    simp

/-- A literal name against the reader. -/
theorem word_meets
    {p : Parser} (word : Bytes) {value failed : Value} (l : Lit)
    (text : l.text = word) (isValue : ∀ «at», valueAt «at» (.lit l) = value) :
    Meets
      (if p.rest.take word.length = word then (value, p.advance word.length)
        else (failed, p.fail))
      ((strip word p.rest).map fun after => (Rfc8259.Json.lit l, after))
      (fun _ => True)
      (fun (found, after) =>
        (valueAt p.i found, p.moved after found.render.length 0 0)) := by
  split
  · next equal =>
      rw [take_eq_iff_strip] at equal
      have split := strip_eq_some_iff.mp equal
      rw [equal]
      refine ⟨fun _ => ?_, fun absurd => (absurd trivial).elim⟩
      rw [advance_eq_moved _ split rfl]
      simp [Rfc8259.Json.render, text, isValue]
  · next different =>
      cases stripped : strip word p.rest with
      | none => rfl
      | some after =>
          have split := strip_eq_some_iff.mp stripped
          exact absurd (by rw [split]; simp) different

/-- `parse_value_scalar` against the reader of scalars. -/
theorem parseValueScalar_meets (c : Byte) {p : Parser} {rest : Bytes}
    (front : p.rest = c :: rest) :
    Meets (p.parseValueScalar c) (readScalar c p.rest) (fun _ => True)
      (fun (found, after) =>
        (valueAt p.i found, p.moved after found.render.length 0 0)) := by
  rw [parseValueScalar, readScalar]
  by_cases isT : c = 0x74
  · have notFalse : p.rest.take 5 ≠ ascii "false" := by
      rw [front, isT]
      intro equal
      exact absurd (List.cons.inj equal).1 (by decide)
    simp only [isT, true_or, if_true, parseBool, notFalse, if_false]
    exact word_meets (ascii "true") .true rfl fun _ => by
      simp [valueAt]
  · by_cases isF : c = 0x66
    · have notTrue : p.rest.take 4 ≠ ascii "true" := by
        rw [front, isF]
        intro equal
        exact absurd (List.cons.inj equal).1 (by decide)
      simp only [isF, or_true, if_true, parseBool, notTrue, if_false]
      exact word_meets (ascii "false") .false rfl fun _ => by
        simp [valueAt]
    · by_cases isN : c = 0x6e
      · simp only [isN, if_true]
        exact word_meets (ascii "null") .null rfl fun _ => by
          simp [valueAt]
      · simp only [isT, isF, isN, or_self, if_false]
        have number := parseNumber_meets p
        cases read : readNumber p.rest with
        | none => simpa [read] using number
        | some found =>
            rw [read] at number
            simpa [valueAt, Rfc8259.Json.render] using number

/-! ## A cleared `ok` stays cleared -/

/-- A call never sets `ok` again. -/
def Sticky {α : Type} (run : Call α) : Prop :=
  ∀ p : Parser, p.ok = false → (run p).2.ok = false

@[simp] theorem advance_ok (p : Parser) (n : Nat) : (p.advance n).ok = p.ok := rfl

@[simp] theorem fail_ok (p : Parser) : p.fail.ok = false := rfl

@[simp] theorem ws_ok (p : Parser) : p.ws.ok = p.ok := rfl

@[simp] theorem commitValues_ok (p : Parser) (mark : Nat) :
    (p.commitValues mark).2.ok = p.ok := rfl

@[simp] theorem commitMembers_ok (p : Parser) (mark : Nat) :
    (p.commitMembers mark).2.ok = p.ok := rfl

/-- The loop over a string's bytes sets no failure of its own. -/
theorem stringLoop_ok (fuel : Nat) (p : Parser) :
    (stringLoop fuel p).2.ok = p.ok := by
  induction fuel generalizing p with
  | zero => rfl
  | succ fuel inductionHypothesis =>
      have stop : p.stringStop.ok = p.ok := rfl
      have counted : p.stringStop.countEscape.ok = p.ok := rfl
      rw [stringLoop, stringAt]
      repeat' split
      all_goals simp [inductionHypothesis, stop, counted]

/-- A failed parser stays failed over a string. -/
theorem parseString_sticky : Sticky parseString := by
  intro p failed
  have loop := stringLoop_ok ((p.advance 1).rest.length + 1) (p.advance 1)
  rw [parseString]
  split
  · next stop equal =>
      rw [equal] at loop
      simpa [failed] using loop
  · rfl

/-- Digits leave the flag as it is. -/
theorem digits_ok (p : Parser) : p.digits.2.ok = p.ok := rfl

/-- The sign leaves the flag as it is. -/
theorem minusSign_ok (p : Parser) : p.minusSign.ok = p.ok := by
  rw [minusSign_eq_moved, moved_ok]

/-- So does the integer part. -/
theorem intPart_ok (p : Parser) : p.intPart.2.ok = p.ok := by
  rw [intPart]
  repeat' split
  all_goals simp [digits_ok]

/-- So does the fraction. -/
theorem fracPart_ok (p : Parser) : p.fracPart.2.ok = p.ok := by
  rw [fracPart]
  repeat' split
  all_goals simp [digits_ok]

/-- So does the exponent. -/
theorem expPart_ok (p : Parser) : p.expPart.2.ok = p.ok := by
  rw [expPart]
  repeat' split
  all_goals simp [digits_ok, expSign_eq_moved]

/-- A failed parser stays failed over a number. -/
theorem parseNumber_sticky : Sticky parseNumber := by
  intro p failed
  have int := intPart_ok p.minusSign
  rw [minusSign_ok, failed] at int
  rw [parseNumber]
  split
  · rfl
  · next q equal =>
      have frac := fracPart_ok q
      rw [show q.ok = false by simpa [equal] using int] at frac
      split
      · rfl
      · next r equal =>
          have exp := expPart_ok r
          rw [show r.ok = false by simpa [equal] using frac] at exp
          split
          · rfl
          · next equal => simpa [equal] using exp

/-- And over any scalar. -/
theorem parseValueScalar_sticky (c : Byte) : Sticky (parseValueScalar c) := by
  intro p failed
  rw [parseValueScalar]
  split
  · rw [parseBool]
    repeat' split
    all_goals simp [failed]
  · split
    · split
      all_goals simp [failed]
    · exact parseNumber_sticky p failed

/-! ## Around the containers -/

/-- What is behind the whitespace. -/
theorem ws_rest (p : Parser) : p.ws.rest = (readWs p.rest).2 := by
  rw [ws_eq_moved, moved_rest]

/-- At the end there is nothing behind the whitespace either. -/
theorem readWs_eq_nil
    {p start : Parser} (skipped : start = p ∨ start = p.ws)
    (empty : start.rest = []) : (readWs p.rest).2 = [] := by
  rcases skipped with rfl | rfl
  · rw [empty, readWs_nil]
  · rwa [← ws_rest]

/-- Whitespace is skipped once. -/
theorem ws_ws (p : Parser) : p.ws.ws = p.ws := by
  rw [ws_eq_moved p.ws, ws_rest, readWs_readWs]
  exact moved_same (ws_rest p)

section Readings

variable {levels : Nat} {p : Parser}

/-- The first item of a reading is the value read first. -/
theorem readItems_first
    {kind : Kind} {fuel : Nat} {s s₁ s₂ after : Bytes} {head : Head kind}
    {value : Rfc8259.Json} {items : Items kind}
    (headRead : readHead kind s = some (head, s₁))
    (valueRead : readValue levels (readWs s₁).2 = some (value, s₂))
    (read : readItems (readValue levels) kind (fuel + 1) s =
      some (items, after)) :
    value.count ≤ items.count ∧ (UniqueKeysIn items → UniqueKeys value) := by
  simp only [readItems, headRead, Option.bind_some, valueRead] at read
  split at read
  · simp at read
  · split at read
    · simp only [Option.map_eq_some_iff, Prod.mk.injEq, Prod.exists] at read
      obtain ⟨rest, _, -, rfl, -⟩ := read
      exact ⟨by simp [Items.count], fun unique => unique.1⟩
    · split at read
      · simp only [Option.some.injEq, Prod.mk.injEq] at read
        obtain ⟨rfl, -⟩ := read
        exact ⟨by simp [Items.count], fun unique => unique⟩
      · simp at read

/-- Where a state stands after whitespace and one more byte. -/
theorem ws_advance_one
    {p : Parser} {c : Byte} {after : Bytes}
    (tail : (readWs p.rest).2 = c :: after) :
    p.ws.advance 1 =
      p.moved after ((readWs p.rest).1.bytes.length + 1) 0 0 := by
  rw [ws_eq_moved, tail, advance_one rfl, moved_moved]

/-- A key through its colon, as the reader and the loop read it. -/
theorem readHead_object
    {head : Head .object} {s₁ : Bytes}
    (read : readHead .object p.rest = some (head, s₁)) :
    p.ws.sees 0x22 ∧
      ∃ q, p.ws.parseString = (headView p.i head, q) ∧ q.ws.sees 0x3a ∧
        q.ws.advance 1 = p.moved s₁ head.render.length 0 (headEscapes head) := by
  simp only [readHead] at read
  split at read
  · next inside quote =>
      simp only [Option.bind_eq_some_iff, Prod.exists] at read
      obtain ⟨name, s₂, nameRead, read⟩ := read
      split at read
      · next s₃ colon =>
          simp only [Option.some.injEq] at read
          cases read
          have met := parseString_meets (p := p.ws) (ws_rest p ▸ quote)
          rw [nameRead] at met
          have parsed := met.eq_of_good trivial
          refine ⟨by rw [sees, ws_rest, quote]; rfl, _, parsed, ?_, ?_⟩
          · rw [sees, ws_rest, moved_rest, colon]
            rfl
          · rw [ws_advance_one colon, ws_eq_moved]
            simp only [moved_moved, moved_rest, Head.render, Key.render, quoted,
              headEscapes, List.length_append, List.length_cons, List.length_nil]
            congr 1 <;> omega
      · simp at read
  · simp at read

/-- Where the reader finds no key and colon, one of them is missing. -/
theorem readHead_none (read : readHead .object p.rest = none) :
    ¬ p.ws.sees 0x22 ∨ p.ws.parseString.2.ok = false ∨
      ∃ key q, p.ws.parseString = (key, q) ∧ ¬ q.ws.sees 0x3a := by
  simp only [readHead] at read
  split at read
  · next inside quote =>
      have met := parseString_meets (p := p.ws) (ws_rest p ▸ quote)
      cases nameRead : readChars inside with
      | none =>
          rw [nameRead] at met
          exact Or.inr (Or.inl met)
      | some found =>
          obtain ⟨name, s₂⟩ := found
          rw [nameRead] at met read
          refine Or.inr (Or.inr ⟨_, _, met.eq_of_good trivial, ?_⟩)
          rw [sees, ws_rest, moved_rest]
          intro colon
          simp only [Option.bind_some] at read
          split at read
          · simp at read
          · next noColon =>
              obtain ⟨s₃, shape⟩ := List.head?_eq_some_iff.mp colon
              exact noColon s₃ shape
  · next noQuote =>
      refine Or.inl ?_
      rw [sees, ws_rest]
      intro quote
      obtain ⟨inside, shape⟩ := List.head?_eq_some_iff.mp quote
      exact noQuote inside shape

/-- The elements of an array have no names. -/
theorem itemNames_array : ∀ items : Items .array, itemNames items = []
  | .last _ _ _ _ => rfl
  | .cons _ _ _ _ rest => by simp [itemNames, headName, itemNames_array rest]

/-- A value is at least one node. -/
theorem count_pos (value : Rfc8259.Json) : 1 ≤ value.count := by
  cases value <;> simp [Rfc8259.Json.count]

/-- A scalar is one node without escapes or keys. -/
theorem scalar_of_readScalar
    {c : Byte} {s after : Bytes} {value : Rfc8259.Json}
    (read : readScalar c s = some (value, after)) :
    value.count = 1 ∧ escapesIn value = 0 ∧ UniqueKeys value := by
  rw [readScalar] at read
  repeat' split at read
  all_goals
    simp only [Option.map_eq_some_iff, Prod.mk.injEq, Prod.exists] at read
  · obtain ⟨_, -, rfl, -⟩ := read
    exact ⟨rfl, rfl, trivial⟩
  · obtain ⟨_, -, rfl, -⟩ := read
    exact ⟨rfl, rfl, trivial⟩
  · obtain ⟨_, -, rfl, -⟩ := read
    exact ⟨rfl, rfl, trivial⟩
  · obtain ⟨_, _, -, rfl, -⟩ := read
    exact ⟨rfl, rfl, trivial⟩

end Readings

/-! ## The keys of an object -/

/-- What is known of the escapes since an object opened: without one, none of its
keys has a backslash. -/
structure EscapesKnown (keys : List Bytes) (escapesBefore escapes : Nat) : Prop where
  before : escapesBefore ≤ escapes
  plain : escapes = escapesBefore → ∀ key ∈ keys, Unescaped key

/-- Without keys no escape is counted. -/
theorem EscapesKnown.nil (escapes : Nat) : EscapesKnown [] escapes escapes :=
  ⟨Nat.le_refl _, by simp⟩

/-- One more key with its escapes. -/
theorem EscapesKnown.push
    {keys : List Bytes} {escapesBefore escapes : Nat}
    (known : EscapesKnown keys escapesBefore escapes) (head : Head .object)
    (more : Nat) :
    EscapesKnown (keys ++ [(Key.name head).bytes]) escapesBefore
      (escapes + (headEscapes head + more)) := by
  obtain ⟨before, plain⟩ := known
  refine ⟨by omega, fun same key member => ?_⟩
  rcases List.mem_append.mp member with earlier | last
  · exact plain (by omega) key earlier
  · have none : countEscapes (Key.name head).bytes = 0 := by
      simp only [headEscapes] at same
      omega
    rw [List.mem_singleton.mp last]
    exact unescaped_of_countEscapes_eq_zero (Key.name head).ok none

/-- The check at the close passes exactly on distinct names. -/
theorem closeKeys_eq
    {keys : List Bytes} {escapesBefore : Nat} {p : Parser} (mode : Keys)
    (known : EscapesKnown keys escapesBefore p.escapes) :
    ((mode = .unique → (keys.map unescapeString).Nodup) →
      p.closeKeys mode keys escapesBefore = p) ∧
    (¬ (mode = .unique → (keys.map unescapeString).Nodup) →
      (p.closeKeys mode keys escapesBefore).ok = false) := by
  have exact := @keysFresh_iff keys (p.escapes != escapesBefore) (by
    intro same
    exact known.plain (by simpa using same))
  rw [closeKeys]
  constructor
  · intro fresh
    rw [if_neg]
    rintro ⟨isUnique, stale⟩
    rw [exact.mpr (fresh isUnique)] at stale
    simp at stale
  · intro stale
    rw [if_pos]
    · rfl
    · rw [Classical.not_imp, ← exact, Bool.not_eq_true] at stale
      exact stale

end Parser
end Json
end Llmbridge
