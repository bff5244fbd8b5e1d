import Llmbridge.Provider.JsonScan
import Llmbridge.Scanning.Leftmost

/-!
# Key-anchored scans

The part of `json_scan` of `provider/src/json_scan.hpp` that finds a member by the
text of its key, without a walk from the start of the body, and what stands at a place
where it succeeds.
-/

namespace Llmbridge
namespace JsonScan

open Rfc8259 (Byte Bytes isWs isPlain quoted substr)
open Scanning (Matcher)

/-- `memmem` for `needle` in `b` from `start` on. -/
def memmem (b needle : Bytes) (start : Nat) : Option Nat :=
  (List.range' start (b.length - start)).find? fun p => needle.isPrefixOf (b.drop p)

/-- Where the whitespace before `p` begins. -/
def lookBack (b : Bytes) (p : Nat) : Nat :=
  p - ((b.take p).reverse.takeWhile isWs).length

/-- `key_value_at`: where the value of the key of `len` bytes found at `start` begins;
none when that match is not a key. -/
def keyValueAt (b : Bytes) (start len : Nat) : Option Nat :=
  let p := lookBack b start
  if p = 0 ∨ (b[p - 1]? ≠ some 0x7b ∧ b[p - 1]? ≠ some 0x2c) then none
  else
    let c := skipWs b (start + len)
    if b[c]? ≠ some 0x3a then none
    else
      let v := skipWs b (c + 1)
      if v < b.length then some v else none

/-- The object that is the value of the key found at `start`: where it begins and
ends. -/
def objectAt (b : Bytes) (start len : Nat) : Option (Nat × Nat) :=
  match keyValueAt b start len with
  | none => none
  | some v => if b[v]? ≠ some 0x7b then none else (skipValue b v).map fun e => (v, e)

/-! ## Runs of whitespace -/

/-- Whitespace from `i` up to `j`. -/
structure WsRun (b : Bytes) (i j : Nat) : Prop where
  ordered : i ≤ j
  each : ∀ r, i ≤ r → r < j → ∃ c, b[r]? = some c ∧ isWs c = true

/-- Two runs from one place that both end before another byte are one. -/
theorem WsRun.stop_unique {b : Bytes} {i j k : Nat} (first : WsRun b i j)
    (second : WsRun b i k) (firstEnds : ∀ c, b[j]? = some c → isWs c = false)
    (secondEnds : ∀ c, b[k]? = some c → isWs c = false) : j = k := by
  have le : ∀ {j k : Nat}, WsRun b i j → WsRun b i k →
      (∀ c, b[j]? = some c → isWs c = false) → ¬ j < k := by
    intro j k first second ends shorter
    obtain ⟨c, byte, ws⟩ := second.each j first.ordered shorter
    rw [ends c byte] at ws
    exact Bool.noConfusion ws
  have := le first second firstEnds
  have := le second first secondEnds
  omega

/-- The whitespace between another byte and one place is one run. -/
theorem WsRun.start_unique {b : Bytes} {i j k : Nat} (first : WsRun b (i + 1) k)
    (second : WsRun b (j + 1) k) (firstEnds : ∀ c, b[i]? = some c → isWs c = false)
    (secondEnds : ∀ c, b[j]? = some c → isWs c = false) (i_lt : i < k) (j_lt : j < k) :
    i = j := by
  have le : ∀ {i j : Nat}, WsRun b (j + 1) k → i < k →
      (∀ c, b[i]? = some c → isWs c = false) → ¬ j < i := by
    intro i j run i_lt ends shorter
    obtain ⟨c, byte, ws⟩ := run.each i (by omega) i_lt
    rw [ends c byte] at ws
    exact Bool.noConfusion ws
  have := le second i_lt firstEnds
  have := le first j_lt secondEnds
  omega

/-- A run of a class at the front of a list, byte by byte. -/
theorem takeWhile_getElem? {p : Byte → Bool} {s : Bytes} {r : Nat}
    (inside : r < (s.takeWhile p).length) : ∃ c, s[r]? = some c ∧ p c = true := by
  obtain ⟨rest, shape⟩ := List.takeWhile_prefix p (l := s)
  have byte : s[r]? = (s.takeWhile p)[r]? := by
    rw [← List.getElem?_append_left inside, shape]
  refine ⟨(s.takeWhile p)[r], by rw [byte, List.getElem?_eq_getElem inside], ?_⟩
  exact List.all_eq_true.mp List.all_takeWhile _ (List.getElem_mem inside)

/-- The byte behind the run is of another class. -/
theorem takeWhile_ends {p : Byte → Bool} {s : Bytes} {c : Byte}
    (byte : s[(s.takeWhile p).length]? = some c) : p c = false := by
  induction s with
  | nil => simp at byte
  | cons d rest inductionHypothesis =>
      cases inClass : p d with
      | false =>
          rw [List.takeWhile_cons_of_neg (by simp [inClass])] at byte
          simp only [List.length_nil, List.getElem?_cons_zero, Option.some.injEq] at byte
          rw [← byte, inClass]
      | true =>
          rw [List.takeWhile_cons_of_pos inClass, List.length_cons,
            List.getElem?_cons_succ] at byte
          exact inductionHypothesis byte

theorem skipWs_run (b : Bytes) (i : Nat) : WsRun b i (skipWs b i) := by
  refine ⟨Nat.le_add_right _ _, fun r start stop => ?_⟩
  rw [skipWs] at stop
  obtain ⟨c, byte, ws⟩ := @takeWhile_getElem? isWs (b.drop i) (r - i) (by omega)
  rw [List.getElem?_drop, Nat.add_sub_cancel' start] at byte
  exact ⟨c, byte, ws⟩

theorem skipWs_ends {b : Bytes} {i : Nat} {c : Byte} (byte : b[skipWs b i]? = some c) :
    isWs c = false := by
  rw [skipWs, ← List.getElem?_drop] at byte
  exact takeWhile_ends byte

theorem skipWs_eq {b : Bytes} {i j : Nat} (run : WsRun b i j)
    (ends : ∀ c, b[j]? = some c → isWs c = false) : skipWs b i = j :=
  (skipWs_run b i).stop_unique run (fun _ => skipWs_ends) ends

theorem lookBack_run {b : Bytes} {p : Nat} (inside : p ≤ b.length) :
    WsRun b (lookBack b p) p := by
  refine ⟨Nat.sub_le _ _, fun r start stop => ?_⟩
  have size : (b.take p).length = p := List.length_take_of_le inside
  rw [lookBack] at start
  obtain ⟨c, byte, ws⟩ := @takeWhile_getElem? isWs (b.take p).reverse (p - 1 - r) (by omega)
  rw [List.getElem?_reverse (by omega), size, List.getElem?_take_of_lt (by omega)] at byte
  exact ⟨c, by rwa [show p - 1 - (p - 1 - r) = r by omega] at byte, ws⟩

theorem lookBack_ends {b : Bytes} {p : Nat} {c : Byte} (inside : p ≤ b.length)
    (some : lookBack b p ≠ 0) (byte : b[lookBack b p - 1]? = .some c) : isWs c = false := by
  have size : (b.take p).length = p := List.length_take_of_le inside
  rw [lookBack] at byte some
  apply @takeWhile_ends isWs (b.take p).reverse c
  rw [List.getElem?_reverse (by omega), size, List.getElem?_take_of_lt (by omega)]
  rwa [Nat.sub_right_comm]

/-! ## Keys -/

/-- At `start` stands a key of `len` bytes: behind `sep`, a brace or a comma, and
before a colon and a value that begins at `value`. -/
structure KeyAt (b : Bytes) (sep start len value : Nat) : Prop where
  before : b[sep]? = some 0x7b ∨ b[sep]? = some 0x2c
  sep_lt : sep < start
  lead : WsRun b (sep + 1) start
  colon : ∃ c, WsRun b (start + len) c ∧ b[c]? = some 0x3a ∧ WsRun b (c + 1) value
  present : ∃ c, b[value]? = some c ∧ isWs c = false

section KeyAt

variable {b : Bytes} {sep start len value : Nat}

theorem KeyAt.inside (key : KeyAt b sep start len value) : start + len < value := by
  obtain ⟨c, first, -, second⟩ := key.colon
  have := first.ordered
  have := second.ordered
  omega

theorem KeyAt.value_lt (key : KeyAt b sep start len value) : value < b.length := by
  obtain ⟨c, byte, -⟩ := key.present
  exact (List.getElem?_eq_some_iff.mp byte).1

theorem KeyAt.before_ends (key : KeyAt b sep start len value) :
    ∀ c, b[sep]? = some c → isWs c = false := by
  rintro c byte
  rcases key.before with brace | comma
  · rw [brace] at byte
    rw [← Option.some.inj byte]
    decide
  · rw [comma] at byte
    rw [← Option.some.inj byte]
    decide

/-- A place is a key in one way. -/
theorem KeyAt.unique {sep' value' : Nat} (key : KeyAt b sep start len value)
    (other : KeyAt b sep' start len value') : sep = sep' ∧ value = value' := by
  have notWs : ∀ {c : Nat}, b[c]? = some 0x3a → ∀ d, b[c]? = some d → isWs d = false := by
    rintro c colon d byte
    rw [colon] at byte
    rw [← Option.some.inj byte]
    decide
  have ends : ∀ {v : Nat}, (∃ c, b[v]? = some c ∧ isWs c = false) →
      ∀ d, b[v]? = some d → isWs d = false := by
    rintro v ⟨c, byte, notWs⟩ d byte'
    rw [byte] at byte'
    rwa [← Option.some.inj byte']
  refine ⟨key.lead.start_unique other.lead key.before_ends other.before_ends key.sep_lt
    other.sep_lt, ?_⟩
  obtain ⟨c, first, colon, second⟩ := key.colon
  obtain ⟨c', first', colon', second'⟩ := other.colon
  obtain rfl := first.stop_unique first' (notWs colon) (notWs colon')
  exact second.stop_unique second' (ends key.present) (ends other.present)

/-- `key_value_at` finds exactly the keys. -/
theorem keyValueAt_eq_some (inside : start ≤ b.length) :
    keyValueAt b start len = some value ↔ ∃ sep, KeyAt b sep start len value := by
  have run := lookBack_run inside
  constructor
  · intro found
    unfold keyValueAt at found
    dsimp only at found
    by_cases before : lookBack b start = 0 ∨
        (b[lookBack b start - 1]? ≠ some 0x7b ∧ b[lookBack b start - 1]? ≠ some 0x2c)
    · rw [if_pos before] at found
      cases found
    · rw [if_neg before] at found
      by_cases colon : b[skipWs b (start + len)]? ≠ some 0x3a
      · rw [if_pos colon] at found
        cases found
      · rw [if_neg colon, Option.ite_none_right_eq_some, Option.some.injEq] at found
        obtain ⟨small, rfl⟩ := found
        obtain ⟨some, separator⟩ := not_or.mp before
        have le := run.ordered
        refine ⟨lookBack b start - 1, ?_, by omega, ?_, ?_, ?_⟩
        · tauto
        · rwa [Nat.sub_add_cancel (by omega)]
        · exact ⟨_, skipWs_run b _, not_not.mp colon, skipWs_run b _⟩
        · exact ⟨_, List.getElem?_eq_getElem small,
            skipWs_ends (List.getElem?_eq_getElem small)⟩
  · rintro ⟨sep, key⟩
    have atSep : lookBack b start = sep + 1 := by
      have le := run.ordered
      by_cases none : lookBack b start = 0
      · -- The separator would be whitespace.
        obtain ⟨c, byte, ws⟩ := run.each sep (by omega) key.sep_lt
        rw [key.before_ends c byte] at ws
        exact Bool.noConfusion ws
      · have same : lookBack b start - 1 = sep :=
          WsRun.start_unique (by rwa [Nat.sub_add_cancel (by omega)]) key.lead
            (fun c => lookBack_ends inside none) key.before_ends (by omega) key.sep_lt
        omega
    obtain ⟨c, first, colon, second⟩ := key.colon
    obtain ⟨d, present, notWs⟩ := key.present
    have toColon : skipWs b (start + len) = c := skipWs_eq first (by
      rintro e byte
      rw [colon] at byte
      rw [← Option.some.inj byte]
      decide)
    have toValue : skipWs b (c + 1) = value := skipWs_eq second (by
      rintro e byte
      rw [present] at byte
      rwa [← Option.some.inj byte])
    have separator : ¬ (lookBack b start = 0 ∨
        (b[lookBack b start - 1]? ≠ some 0x7b ∧ b[lookBack b start - 1]? ≠ some 0x2c)) := by
      rw [atSep, Nat.add_sub_cancel]
      have := key.before
      tauto
    unfold keyValueAt
    dsimp only
    rw [if_neg separator, toColon, if_neg (not_not.mpr colon), toValue,
      if_pos key.value_lt]

end KeyAt

end JsonScan
end Llmbridge
