import Llmbridge.Provider.JsonScanTree
import Llmbridge.Provider.KeyScan

/-!
# Readers on a part of a text

Where a string or an object ends is decided byte by byte.  So a reader that is given a
part of a text finds in it what it would find there in the whole text, as far as the
part holds it.
-/

namespace Llmbridge
namespace JsonScan

open Rfc8259

/-! ## The end of a string -/

/-- The quote that closes a string, counted from here; `escaped` behind a backslash
that escapes. -/
def quoteClose : (escaped : Bool) → Bytes → Option Nat
  | _, [] => none
  | true, _ :: rest => (quoteClose false rest).map (· + 1)
  | false, c :: rest =>
      if c = 0x22 then some 0 else (quoteClose (c == 0x5c) rest).map (· + 1)

/-- An odd run of backslashes escapes what follows it. -/
def escapes (before : Bytes) : Bool :=
  endRun before % 2 == 1

theorem escapes_slash (before : Bytes) : escapes (before ++ [0x5c]) = !escapes before := by
  rw [escapes, escapes, endRun_slash]
  rcases Nat.mod_two_eq_zero_or_one (endRun before) with even | odd
  · simp [Nat.add_mod, even]
  · simp [Nat.add_mod, odd]

theorem escapes_other (before : Bytes) {c : Byte} (notSlash : c ≠ 0x5c) :
    escapes (before ++ [c]) = false := by
  rw [escapes, endRun_other _ notSlash]
  rfl

theorem quoteClose_other {before : Bytes} {c : Byte} {rest : Bytes} (notQuote : c ≠ 0x22) :
    quoteClose (escapes before) (c :: rest) =
      (quoteClose (escapes (before ++ [c])) rest).map (· + 1) := by
  by_cases slash : c = 0x5c
  · subst slash
    rw [escapes_slash]
    cases escapes before with
    | true => rfl
    | false => rw [quoteClose, if_neg notQuote]; rfl
  · rw [escapes_other _ slash]
    cases escapes before with
    | true => rfl
    | false =>
        rw [quoteClose, if_neg notQuote, beq_eq_false_iff_ne.mpr slash]

theorem findQuote_none {b : Bytes} {start : Nat} (atEnd : b.drop start = []) :
    findQuote b start = none := by
  rw [findQuote, atEnd]
  rfl

theorem closeLoop_eq {b : Bytes} {i : Nat} :
    ∀ {s before : Bytes} {fuel : Nat}, b.drop i = before ++ s → s.length < fuel →
      closeLoop b i fuel (i + before.length) =
        (quoteClose (escapes before) s).map (i + before.length + ·) := by
  intro s
  induction s with
  | nil =>
      intro before fuel shape enough
      have atEnd : b.drop (i + before.length) = [] := by
        rw [← List.drop_drop, shape, List.append_nil, List.drop_length]
      cases fuel with
      | zero => rfl
      | succ fuel =>
          rw [closeLoop, findQuote_none atEnd]
          cases escapes before <;> rfl
  | cons c rest inductionHypothesis =>
      intro before fuel shape enough
      rw [List.length_cons] at enough
      have located : Located b i (before ++ c :: rest) := ⟨[], by rw [shape, List.append_nil]⟩
      have byte : b[i + before.length]? = some c := located.split.2.head
      have shape' : b.drop i = before ++ [c] ++ rest := by
        rw [shape, List.append_assoc, List.singleton_append]
      have next : i + before.length + 1 = i + (before ++ [c]).length := by
        rw [List.length_append, List.length_singleton, Nat.add_assoc]
      have shift : ∀ found : Option Nat,
          found.map (i + (before ++ [c]).length + ·) =
            (found.map (· + 1)).map (i + before.length + ·) := by
        intro found
        rw [Option.map_map]
        congr 1
        funext n
        rw [← next]
        exact (Nat.add_assoc _ _ _).trans (congrArg _ (Nat.add_comm 1 n))
      by_cases quote : c = 0x22
      · subst quote
        cases fuel with
        | zero => omega
        | succ fuel =>
            have run := slashRun_eq located.split.1
            rw [closeLoop, findQuote_here byte]
            dsimp only
            rw [run]
            cases odd : escapes before with
            | false =>
                have even : endRun before % 2 = 0 := by
                  rw [escapes, beq_eq_false_iff_ne] at odd
                  omega
                rw [if_pos even]
                rfl
            | true =>
                have notEven : ¬ endRun before % 2 = 0 := by
                  rw [escapes, beq_iff_eq] at odd
                  omega
                rw [if_neg notEven, next, inductionHypothesis shape' (by omega),
                  escapes_other _ (by decide), shift]
                rfl
      · rw [closeLoop_next byte quote, next, inductionHypothesis shape' (by omega), shift,
          ← quoteClose_other quote]

/-- `string_close`, byte by byte. -/
theorem stringClose_eq (b : Bytes) (i : Nat) :
    stringClose b i = (quoteClose false (b.drop i)).map (i + ·) :=
  @closeLoop_eq b i (b.drop i) [] (b.length + 1) rfl (by
    rw [List.length_drop]
    omega)

/-! ## The end of a container -/

/-- Past the bracket that closes a container, counted from here; in a string the
second argument says whether the next byte is escaped. -/
def bracketClose : (depth : Nat) → (inString : Option Bool) → Bytes → Option Nat
  | _, _, [] => none
  | depth, some true, _ :: rest => (bracketClose depth (some false) rest).map (· + 1)
  | depth, some false, c :: rest =>
      (bracketClose depth (if c = 0x22 then none else some (c == 0x5c)) rest).map (· + 1)
  | depth, none, c :: rest =>
      if c = 0x22 then (bracketClose depth (some false) rest).map (· + 1)
      else if c = 0x7b ∨ c = 0x5b then (bracketClose (depth + 1) none rest).map (· + 1)
      else if c = 0x7d ∨ c = 0x5d then
        if depth - 1 = 0 then some 1 else (bracketClose (depth - 1) none rest).map (· + 1)
      else (bracketClose depth none rest).map (· + 1)

theorem map_succ_map (found : Option Nat) (k : Nat) :
    (found.map (k + ·)).map (· + 1) = found.map (k + 1 + ·) := by
  rw [Option.map_map]
  congr 1
  funext n
  exact Nat.add_right_comm k n 1

/-- In a string the walk goes on behind its quote. -/
theorem bracketClose_string (depth : Nat) :
    ∀ (s : Bytes) (escaped : Bool), bracketClose depth (some escaped) s =
      (quoteClose escaped s).bind fun k =>
        (bracketClose depth none (s.drop (k + 1))).map (k + 1 + ·)
  | [], escaped => by cases escaped <;> rfl
  | c :: rest, true => by
      rw [bracketClose, quoteClose, bracketClose_string depth rest false]
      cases quoteClose false rest with
      | none => rfl
      | some k => exact map_succ_map _ _
  | c :: rest, false => by
      rw [bracketClose, quoteClose]
      by_cases quote : c = 0x22
      · rw [if_pos quote, if_pos quote]
        simp only [Option.bind_some, Nat.zero_add, List.drop_succ_cons, List.drop_zero]
        congr 1
        funext n
        exact Nat.add_comm n 1
      · rw [if_neg quote, if_neg quote, bracketClose_string depth rest (c == 0x5c)]
        cases quoteClose (c == 0x5c) rest with
        | none => rfl
        | some k => exact map_succ_map _ _

theorem skipContainer_eq {b : Bytes} :
    ∀ {fuel i depth : Nat}, b.length - i < fuel →
      skipContainer b fuel i depth = (bracketClose depth none (b.drop i)).map (i + ·) := by
  intro fuel
  induction fuel with
  | zero =>
      intro i depth enough
      omega
  | succ fuel inductionHypothesis =>
      intro i depth enough
      cases byte : b[i]? with
      | none =>
          have atEnd : b.drop i = [] :=
            List.drop_eq_nil_of_le (List.getElem?_eq_none_iff.mp byte)
          rw [skipContainer, byte, atEnd]
          rfl
      | some c =>
          have inside : i < b.length := (List.getElem?_eq_some_iff.mp byte).1
          have shape : b.drop i = c :: b.drop (i + 1) := by
            rw [List.drop_eq_getElem_cons inside, (List.getElem?_eq_some_iff.mp byte).2]
          have step : ∀ depth, skipContainer b fuel (i + 1) depth =
              ((bracketClose depth none (b.drop (i + 1))).map (· + 1)).map (i + ·) := by
            intro depth
            rw [inductionHypothesis (by omega), Option.map_map]
            congr 1
            funext n
            exact (Nat.add_assoc i 1 n).trans (congrArg _ (Nat.add_comm 1 n))
          rw [skipContainer, byte, shape, bracketClose]
          dsimp only
          split_ifs with quote opens closes last
          · rw [bracketClose_string, stringClose_eq]
            cases close : quoteClose false (b.drop (i + 1)) with
            | none => rfl
            | some k =>
                simp only [Option.map_some, Option.bind_some]
                rw [inductionHypothesis (by omega), List.drop_drop, Option.map_map,
                  Option.map_map]
                congr 1
                · funext n
                  simp only [Function.comp_apply]
                  omega
          · exact step _
          · rfl
          · exact step _
          · exact step _

theorem skipValue_object {b : Bytes} {v : Nat} (brace : b[v]? = some 0x7b) :
    skipValue b v = (bracketClose 0 none (b.drop v)).map (v + ·) := by
  have bound := (List.getElem?_eq_some_iff.mp brace).1
  have walk := @skipContainer_eq b (b.length + 1) v 0 (by omega)
  rw [skipValue, brace, ← walk]
  rfl

/-- The walk ends behind at least one byte, and inside the text. -/
theorem bracketClose_bounds :
    ∀ {s : Bytes} {depth : Nat} {inString : Option Bool} {e : Nat},
      bracketClose depth inString s = some e → 0 < e ∧ e ≤ s.length := by
  intro s
  induction s with
  | nil =>
      intro depth inString e found
      rw [bracketClose] at found
      cases found
  | cons c rest inductionHypothesis =>
      intro depth inString e found
      have next : ∀ {depth : Nat} {inString : Option Bool},
          (bracketClose depth inString rest).map (· + 1) = some e →
            0 < e ∧ e ≤ (c :: rest).length := by
        intro depth inString later
        rw [Option.map_eq_some_iff] at later
        obtain ⟨k, ended, rfl⟩ := later
        have bounds := inductionHypothesis ended
        rw [List.length_cons]
        omega
      unfold bracketClose at found
      split at found
      · cases found
      · simp_all only [List.cons.injEq]
        exact next found
      · simp_all only [List.cons.injEq]
        exact next found
      · simp_all only [List.cons.injEq]
        split_ifs at found
        · exact next found
        · exact next found
        · rw [Option.some.injEq] at found
          rw [List.length_cons]
          omega
        · exact next found
        · exact next found

/-- The walk ends behind a closing bracket. -/
theorem bracketClose_last :
    ∀ {s : Bytes} {depth : Nat} {inString : Option Bool} {e : Nat},
      bracketClose depth inString s = some e →
        s[e - 1]? = some 0x7d ∨ s[e - 1]? = some 0x5d := by
  intro s
  induction s with
  | nil =>
      intro depth inString e found
      rw [bracketClose] at found
      cases found
  | cons c rest inductionHypothesis =>
      intro depth inString e found
      have next : ∀ {depth : Nat} {inString : Option Bool},
          (bracketClose depth inString rest).map (· + 1) = some e →
            (c :: rest)[e - 1]? = some 0x7d ∨ (c :: rest)[e - 1]? = some 0x5d := by
        intro depth inString later
        rw [Option.map_eq_some_iff] at later
        obtain ⟨k, ended, rfl⟩ := later
        have some := (bracketClose_bounds ended).1
        rw [show k + 1 - 1 = k - 1 + 1 by omega, List.getElem?_cons_succ]
        exact inductionHypothesis ended
      cases inString with
      | some escaped =>
          cases escaped with
          | true => exact next found
          | false => exact next found
      | none =>
          unfold bracketClose at found
          split_ifs at found with quote opens closes last
          · exact next found
          · exact next found
          · rw [Option.some.injEq] at found
            subst found
            exact closes.imp (congrArg some) (congrArg some)
          · exact next found
          · exact next found

/-- A part of the text that holds the container finds its end, and no other part
does. -/
theorem bracketClose_take :
    ∀ {s : Bytes} {depth : Nat} {inString : Option Bool} {n e : Nat},
      bracketClose depth inString (s.take n) = some e ↔
        bracketClose depth inString s = some e ∧ e ≤ n := by
  intro s
  induction s with
  | nil =>
      intro depth inString n e
      rw [List.take_nil, bracketClose]
      simp
  | cons c rest inductionHypothesis =>
      intro depth inString n e
      cases n with
      | zero =>
          rw [List.take_zero]
          constructor
          · intro found
            rw [bracketClose] at found
            cases found
          · rintro ⟨found, small⟩
            have := (bracketClose_bounds found).1
            omega
      | succ n =>
          have next : ∀ {depth : Nat} {inString : Option Bool},
              (bracketClose depth inString (rest.take n)).map (· + 1) = some e ↔
                (bracketClose depth inString rest).map (· + 1) = some e ∧ e ≤ n + 1 := by
            intro depth inString
            simp only [Option.map_eq_some_iff, inductionHypothesis]
            constructor
            · rintro ⟨k, ⟨found, small⟩, rfl⟩
              exact ⟨⟨k, found, rfl⟩, by omega⟩
            · rintro ⟨⟨k, found, rfl⟩, small⟩
              exact ⟨k, ⟨found, by omega⟩, rfl⟩
          rw [List.take_succ_cons]
          cases inString with
          | some escaped =>
              cases escaped with
              | true => exact next
              | false => exact next
          | none =>
              unfold bracketClose
              split_ifs with quote opens closes last
              · exact next
              · exact next
              · rw [Option.some.injEq]
                omega
              · exact next
              · exact next

/-! ## A part of a text -/

/-- The bytes from `lo` up to `hi`. -/
def part (b : Bytes) (lo hi : Nat) : Bytes :=
  (b.take hi).drop lo

@[simp] theorem part_length (b : Bytes) (lo hi : Nat) :
    (part b lo hi).length = min hi b.length - lo := by
  rw [part, List.length_drop, List.length_take]

theorem part_getElem? (b : Bytes) (lo hi i : Nat) :
    (part b lo hi)[i]? = if lo + i < hi then b[lo + i]? else none := by
  rw [part, List.getElem?_drop, List.getElem?_take]

section Part

variable {b : Bytes} {lo hi : Nat}

theorem part_drop (b : Bytes) (lo hi k : Nat) : (part b lo hi).drop k = part b (lo + k) hi :=
  List.drop_drop

/-- Two parts that follow each other. -/
theorem part_append {middle : Nat} (first : lo ≤ middle) (second : middle ≤ hi)
    (inside : middle ≤ b.length) : part b lo middle ++ part b middle hi = part b lo hi := by
  have size : (b.take middle).length = middle := List.length_take_of_le inside
  have whole : b.take middle ++ (b.take hi).drop middle = b.take hi := by
    conv_rhs => rw [← List.take_append_drop middle (b.take hi)]
    rw [List.take_take, Nat.min_eq_left second]
  unfold part
  conv_rhs => rw [← whole]
  rw [List.drop_append_of_le_length (by omega)]

theorem part_byte {i : Nat} {c : Byte} :
    (part b lo hi)[i]? = some c ↔ b[lo + i]? = some c ∧ lo + i < hi := by
  rw [part_getElem?]
  split_ifs with inside
  · simp [inside]
  · simp [inside]

theorem WsRun.part {i j : Nat} :
    WsRun (part b lo hi) i j ↔ WsRun b (lo + i) (lo + j) ∧ (i < j → lo + j ≤ hi) := by
  constructor
  · intro run
    have le := run.ordered
    refine ⟨⟨by omega, fun r start stop => ?_⟩, fun some => ?_⟩
    · obtain ⟨c, byte, ws⟩ := run.each (r - lo) (by omega) (by omega)
      rw [part_byte, Nat.add_sub_cancel' (by omega)] at byte
      exact ⟨c, byte.1, ws⟩
    · obtain ⟨c, byte, -⟩ := run.each (j - 1) (by omega) (by omega)
      have := (part_byte.mp byte).2
      omega
  · rintro ⟨run, inside⟩
    have le := run.ordered
    refine ⟨by omega, fun r start stop => ?_⟩
    obtain ⟨c, byte, ws⟩ := run.each (lo + r) (by omega) (by omega)
    exact ⟨c, part_byte.mpr ⟨byte, by have := inside (by omega); omega⟩, ws⟩

/-- The keys of a part are those of the text whose separator and value begin in it. -/
theorem KeyAt.part {sep start len value : Nat} :
    KeyAt (part b lo hi) sep start len value ↔
      KeyAt b (lo + sep) (lo + start) len (lo + value) ∧ lo + value < hi := by
  constructor
  · intro key
    obtain ⟨c, first, colon, second⟩ := key.colon
    obtain ⟨d, present, notWs⟩ := key.present
    have present' := part_byte.mp present
    have sep_lt := key.sep_lt
    have inside := key.inside
    refine ⟨⟨?_, by omega, ?_, ⟨lo + c, ?_, (part_byte.mp colon).1, ?_⟩,
      ⟨d, present'.1, notWs⟩⟩, present'.2⟩
    · exact key.before.imp (fun brace => (part_byte.mp brace).1)
        fun comma => (part_byte.mp comma).1
    · exact (WsRun.part.mp key.lead).1
    · rw [Nat.add_assoc]
      exact (WsRun.part.mp first).1
    · rw [Nat.add_assoc]
      exact (WsRun.part.mp second).1
  · rintro ⟨key, small⟩
    obtain ⟨c, first, colon, second⟩ := key.colon
    obtain ⟨d, present, notWs⟩ := key.present
    have sep_lt := key.sep_lt
    have inside := key.inside
    have c_ge := first.ordered
    have v_ge := second.ordered
    obtain ⟨k, rfl⟩ : ∃ k, c = lo + k := ⟨c - lo, by omega⟩
    rw [Nat.add_assoc] at first second
    refine ⟨?_, by omega, WsRun.part.mpr ⟨key.lead, by omega⟩,
      ⟨k, WsRun.part.mpr ⟨first, by omega⟩, part_byte.mpr ⟨colon, by omega⟩,
        WsRun.part.mpr ⟨second, by omega⟩⟩, ⟨d, part_byte.mpr ⟨present, small⟩, notWs⟩⟩
    exact key.before.imp (fun brace => part_byte.mpr ⟨brace, by omega⟩)
      fun comma => part_byte.mpr ⟨comma, by omega⟩

/-- An object in a part ends where it ends in the text. -/
theorem skipValue_part {v e : Nat} (brace : b[lo + v]? = some 0x7b) (inside : lo + v < hi) :
    skipValue (part b lo hi) v = some e ↔ skipValue b (lo + v) = some (lo + e) ∧ lo + e ≤ hi := by
  rw [skipValue_object (part_byte.mpr ⟨brace, inside⟩), skipValue_object brace]
  have shape : (part b lo hi).drop v = (b.drop (lo + v)).take (hi - (lo + v)) := by
    rw [part, List.drop_drop, List.drop_take]
  rw [shape]
  simp only [Option.map_eq_some_iff, bracketClose_take]
  constructor
  · rintro ⟨k, ⟨found, small⟩, rfl⟩
    exact ⟨⟨k, found, by omega⟩, by omega⟩
  · rintro ⟨⟨k, found, shape⟩, small⟩
    exact ⟨k, ⟨found, by omega⟩, by omega⟩

end Part

end JsonScan
end Llmbridge
