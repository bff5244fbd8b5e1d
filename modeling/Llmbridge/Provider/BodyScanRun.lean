import Llmbridge.Provider.BodyScan

/-!
# The scan does not depend on where the body was cut

However the body arrives, a feed takes the scan through the same states as one
byte at a time over the whole body (`feed_take`).  The bulk run over string
bytes and the reread of the byte behind a number fall together with single
bytes, and keys are read back from bytes every prefix has.
-/

namespace Llmbridge
namespace BodyScan

open Rfc8259 (Byte Bytes ascii isWs isDigit isHex isEscape isPlain substr
  substr_length_le substr_take)
open Scan

/-! ## One byte at a time -/

/-- One byte of the body, the reread behind a number included. -/
def byteStep (body : Bytes) (s : Scan) (i : Nat) (c : Byte) :
    Bool × Scan :=
  if s.syn.st = .str then
    if isPlain c then (true, s) else s.stringStop body i c
  else
    match s.stepByte i c with
    | (false, s, _) => (false, s)
    | (true, s, j) =>
        if j = i then ((s.stepByte i c).1, (s.stepByte i c).2.1) else (true, s)

/-- Every byte of `rest` in turn, from position `i`. -/
def run (body : Bytes) : Scan → Nat → Bytes → Bool × Scan
  | s, _, [] => (true, s)
  | s, i, c :: rest =>
      match byteStep body s i c with
      | (false, s) => (false, s)
      | (true, s) => run body s (i + 1) rest

/-- A run is its first byte and the run behind it. -/
theorem run_cons (body : Bytes) (s : Scan) (i : Nat) (c : Byte)
    (rest : Bytes) :
    run body s i (c :: rest) =
      match byteStep body s i c with
      | (false, s) => (false, s)
      | (true, s) => run body s (i + 1) rest := rfl

/-- A run over a front and then the rest. -/
theorem run_append
    (body : Bytes) (s : Scan) (i : Nat) (front rest : Bytes) :
    run body s i (front ++ rest) =
      match run body s i front with
      | (false, s) => (false, s)
      | (true, s) => run body s (i + front.length) rest := by
  induction front generalizing s i with
  | nil => rfl
  | cons c front inductionHypothesis =>
      rw [List.cons_append, run_cons, run_cons]
      cases byteStep body s i c with
      | mk ok s' =>
          cases ok with
          | false => rfl
          | true =>
              dsimp only
              rw [inductionHypothesis, List.length_cons, Nat.add_assoc,
                Nat.add_comm 1]

/-! ## Keys stay inside what was scanned -/

/-- The bytes a scan at `i` may read back all lie before `i`. -/
structure Bounded (m : Marks) (i : Nat) : Prop where
  str : m.str ≤ i
  spans : ∀ span ∈ m.top ++ m.options, span.«at» + span.len ≤ i

/-- What lies before a place lies before a later one. -/
theorem Bounded.mono
    {m : Marks} {i j : Nat} (bounded : Bounded m i) (le : i ≤ j) :
    Bounded m j :=
  ⟨Nat.le_trans bounded.str le,
    fun span member => Nat.le_trans (bounded.spans span member) le⟩

/-- The tables and the place of the last key. -/
def Marks.tables (m : Marks) : Nat × List Span × List Span :=
  (m.str, m.top, m.options)

/-- Only the tables hold places of keys. -/
theorem Bounded.of_tables
    {m m' : Marks} {i : Nat} (bounded : Bounded m i)
    (same : m'.tables = m.tables) : Bounded m' i := by
  simp only [Marks.tables, Prod.mk.injEq] at same
  obtain ⟨str, top, options⟩ := same
  exact ⟨by rw [str]; exact bounded.str,
    by rw [top, options]; exact bounded.spans⟩

namespace Marks

@[simp] theorem valueDone_tables (m : Marks) (depth stop : Nat) :
    (m.valueDone depth stop).tables = m.tables := by
  simp only [valueDone]
  repeat' split
  all_goals rfl

@[simp] theorem valueStart_tables (m : Marks) (depth «at» : Nat) (c : Byte) :
    (m.valueStart depth «at» c).2.tables = m.tables := by
  simp only [valueStart, because]
  repeat' split
  all_goals rfl

@[simp] theorem opened_tables
    (m : Marks) (depth stop : Nat) (isObject options : Bool) :
    (m.opened depth stop isObject options).tables = m.tables := by
  simp only [opened]
  repeat' split
  all_goals rfl

@[simp] theorem closed_tables (m : Marks) (depth : Nat) :
    (m.closed depth).tables = m.tables := by
  simp only [closed]
  split <;> rfl

@[simp] theorem comma_tables (m : Marks) (depth «at» : Nat) :
    (m.comma depth «at»).tables = m.tables := by
  simp only [comma]
  split <;> rfl

@[simp] theorem keyHold_tables (m : Marks) (depth : Nat) (k : Bytes) :
    (m.keyHold depth k).2.tables = m.tables := by
  simp only [keyHold, because]
  repeat' split
  all_goals rfl

@[simp] theorem keyModel_tables (m : Marks) (depth : Nat) (k : Bytes) :
    (m.keyModel depth k).2.tables = m.tables := by
  simp only [keyModel, because]
  repeat' split
  all_goals rfl

/-- A key starts at the byte read. -/
theorem keyStart_bounded
    {m : Marks} {i : Nat} (bounded : Bounded m i) (depth : Nat) :
    Bounded (m.keyStart depth i) (i + 1) :=
  ⟨Nat.le_refl _, fun span member =>
    Nat.le_succ_of_le (bounded.spans span member)⟩

/-- A key that closed at `i` is stored inside what was scanned. -/
theorem keyTable_bounded
    {m : Marks} {i len : Nat} (bounded : Bounded m i) (body : Bytes) (depth : Nat)
    {k : Bytes} (size : k.length ≤ len) (inside : m.str + len ≤ i) :
    Bounded (m.keyTable body depth k).2 i := by
  have stored : m.str % 2 ^ 32 + k.length % 2 ^ 32 ≤ i := by
    have first := Nat.mod_le m.str (2 ^ 32)
    have second := Nat.mod_le k.length (2 ^ 32)
    omega
  obtain ⟨str, spans⟩ := bounded
  simp only [List.mem_append] at spans
  simp only [keyTable, because]
  repeat' split
  all_goals refine ⟨str, fun span member => ?_⟩
  all_goals simp only [List.mem_append, List.mem_singleton] at member
  all_goals grind

/-- A key ends before the byte read. -/
theorem keyDone_bounded
    {m : Marks} {i : Nat} (bounded : Bounded m i) (body : Bytes) (depth : Nat) :
    Bounded (m.keyDone body depth i).2 i := by
  rw [keyDone]
  split
  · exact bounded
  · dsimp only
    split
    · exact bounded.of_tables rfl
    · have hold := m.keyHold_tables depth (substr body m.str (i - m.str))
      split
      · next equal =>
          rw [equal] at hold
          exact bounded.of_tables hold
      · next m₁ equal =>
          rw [equal] at hold
          have model := m₁.keyModel_tables depth (substr body m.str (i - m.str))
          split
          · next equal =>
              rw [equal, hold] at model
              exact bounded.of_tables model
          · next m₂ equal =>
              rw [equal, hold] at model
              have sameStr : m₂.str = m.str := congrArg Prod.fst model
              have inside : m₂.str + (i - m.str) ≤ i := by
                have str := bounded.str
                omega
              exact keyTable_bounded (bounded.of_tables model) body depth
                (substr_length_le body m.str (i - m.str)) inside

/-! ### Reading back from a prefix -/

/-- A span is compared inside the bytes seen. -/
theorem spanMatches_take
    {body k : Bytes} {n : Nat} {span : Span}
    (inside : span.«at» + span.len ≤ n) :
    spanMatches (body.take n) k span = spanMatches body k span := by
  rw [spanMatches, spanMatches]
  by_cases size : span.len = k.length
  · rw [substr_take (by omega)]
  · rw [beq_eq_false_iff_ne.mpr size, Bool.false_and, Bool.false_and]

/-- The table of keys looks only at bytes seen. -/
theorem keyTable_take
    {m : Marks} {body k : Bytes} {i n : Nat} (bounded : Bounded m i)
    (inside : i ≤ n) (depth : Nat) :
    m.keyTable (body.take n) depth k = m.keyTable body depth k := by
  have same : ∀ set : List Span, (∀ span ∈ set, span.«at» + span.len ≤ i) →
      set.any (spanMatches (body.take n) k) = set.any (spanMatches body k) := by
    intro set spans
    rw [Bool.eq_iff_iff, List.any_eq_true, List.any_eq_true]
    refine exists_congr fun span => and_congr_right fun member => ?_
    rw [spanMatches_take (Nat.le_trans (spans span member) inside)]
  have top := same m.top fun span member =>
    bounded.spans span (List.mem_append_left _ member)
  have options := same m.options fun span member =>
    bounded.spans span (List.mem_append_right _ member)
  rw [keyTable, keyTable]
  by_cases root : depth = 1
  · simp only [root, if_true, top]
  · simp only [root, if_false, options]

/-- So do the checks of a key. -/
theorem keyDone_take
    {m : Marks} {body : Bytes} {i n : Nat} (bounded : Bounded m i)
    (inside : i ≤ n) (depth : Nat) :
    m.keyDone (body.take n) depth i = m.keyDone body depth i := by
  have str := bounded.str
  rw [keyDone, keyDone, substr_take (by omega)]
  split
  · rfl
  · dsimp only
    split
    · rfl
    · have hold := m.keyHold_tables depth (substr body m.str (i - m.str))
      split
      · rfl
      · next m₁ equal =>
          rw [equal] at hold
          have model := m₁.keyModel_tables depth (substr body m.str (i - m.str))
          split
          · rfl
          · next m₂ equal =>
              rw [equal, hold] at model
              exact keyTable_take (bounded.of_tables model) inside depth

end Marks

/-! ## Steps keep the bound -/

/-- A value that ends notes no place ahead. -/
theorem valueDone_bounded
    {s : Scan} {i : Nat} (stop : Nat) (bounded : Bounded s.marks i) :
    Bounded (s.valueDone stop).marks i :=
  bounded.of_tables (Marks.valueDone_tables ..)

/-- Nor does one that starts. -/
theorem startValue_bounded
    {s : Scan} {i j : Nat} (bounded : Bounded s.marks i) (c : Byte) :
    Bounded (s.startValue j c).2.marks i := by
  have start := s.marks.valueStart_tables s.syn.depth j c
  rw [startValue]
  dsimp only
  split
  · next equal =>
      rw [equal] at start
      exact bounded.of_tables start
  · next marks equal =>
      rw [equal] at start
      have inner : Bounded marks i := bounded.of_tables start
      repeat' split
      all_goals first
        | exact inner
        | exact inner.of_tables rfl
        | exact inner.of_tables (Marks.opened_tables ..)

/-- Nor does a container that closes. -/
theorem closeContainer_bounded
    {s : Scan} {i j : Nat} (bounded : Bounded s.marks i) :
    Bounded (s.closeContainer j).marks i :=
  valueDone_bounded _ (bounded.of_tables (Marks.closed_tables ..))

/-- Nor does a key that starts. -/
theorem startKey_bounded
    {s : Scan} {i : Nat} (bounded : Bounded s.marks i) (c : Byte) :
    Bounded (s.startKey i c).2.marks (i + 1) := by
  rw [startKey]
  split
  · exact bounded.mono (Nat.le_succ i)
  · exact Marks.keyStart_bounded bounded s.syn.depth

/-- Nor does a mark. -/
theorem stepMark_bounded
    {s : Scan} {i : Nat} (bounded : Bounded s.marks i) (c : Byte) :
    Bounded (s.stepMark i c).2.marks (i + 1) := by
  have later := bounded.mono (Nat.le_succ i)
  rw [stepMark]
  repeat' split
  all_goals first
    | exact later
    | exact startKey_bounded bounded c
    | exact startValue_bounded later c
    | exact closeContainer_bounded later
    | exact later.of_tables (Marks.comma_tables ..)
    | exact later.of_tables rfl

/-- Nor does a byte between tokens. -/
theorem stepBetween_bounded
    {s : Scan} {i : Nat} (bounded : Bounded s.marks i) (c : Byte) :
    Bounded (s.stepBetween i c).2.marks (i + 1) := by
  rw [stepBetween]
  split
  · exact bounded.mono (Nat.le_succ i)
  · exact stepMark_bounded bounded c

/-- Nor does any byte outside a string. -/
theorem stepByte_bounded
    {s : Scan} {i : Nat} (bounded : Bounded s.marks i) (c : Byte) :
    Bounded (s.stepByte i c).2.1.marks (i + 1) := by
  have later := bounded.mono (Nat.le_succ i)
  rw [stepByte]
  dsimp only
  repeat' split
  all_goals first
    | exact later
    | exact stepBetween_bounded bounded c
    | exact valueDone_bounded _ later

/-- A byte is left where it is only behind a number that ended. -/
theorem stepByte_reread
    {s s' : Scan} {i : Nat} {c : Byte}
    (stepped : s.stepByte i c = (true, s', i)) :
    s' = s.valueDone i := by
  rw [stepByte] at stepped
  dsimp only [taken] at stepped
  repeat' split at stepped
  all_goals
    simp only [Prod.mk.injEq, Bool.false_eq_true, false_and, true_and,
      Nat.succ_ne_self, and_false, and_true] at stepped
  all_goals exact stepped.symm

/-- Nor does the byte that stops a run. -/
theorem stringStop_bounded
    {s : Scan} {i : Nat} (bounded : Bounded s.marks i) (body : Bytes)
    (d : Byte) : Bounded (s.stringStop body i d).2.marks (i + 1) := by
  have later := bounded.mono (Nat.le_succ i)
  rw [stringStop]
  repeat' split
  · exact later
  · exact later.of_tables rfl
  · exact valueDone_bounded _ later
  · exact (Marks.keyDone_bounded bounded body s.syn.depth).mono (Nat.le_succ i)

/-- Nor does any byte. -/
theorem byteStep_bounded
    {s : Scan} {i : Nat} (bounded : Bounded s.marks i) (body : Bytes)
    (c : Byte) : Bounded (byteStep body s i c).2.marks (i + 1) := by
  have later := bounded.mono (Nat.le_succ i)
  have first := stepByte_bounded bounded c
  rw [byteStep]
  split
  · split
    · exact later
    · exact stringStop_bounded bounded body c
  · split
    · next equal => rwa [equal] at first
    · next s' j equal =>
        split
        · next same =>
            rw [same] at equal
            rw [stepByte_reread equal]
            exact stepByte_bounded (valueDone_bounded _ bounded) c
        · rwa [equal] at first

/-! ## Runs of string bytes -/

/-- The last place counts. -/
theorem goto_goto (s : Scan) (a b : St) : (s.goto a).goto b = s.goto b := rfl

/-- Going where the scan is changes nothing. -/
theorem goto_self {s : Scan} {st : St} (same : s.syn.st = st) :
    s.goto st = s := by
  subst same
  rfl

/-- A byte that an escape takes the scan back into the string with. -/
theorem byteStep_escape
    {body : Bytes} {s : Scan} (inString : s.syn.st = .str) {e : Byte}
    (notU : e ≠ 0x75) (i : Nat) :
    byteStep body (s.goto .strEsc) i e = (isEscape e, s) := by
  have stepped : (s.goto .strEsc).stepByte i e = (isEscape e, s, i + 1) := by
    have back : (s.goto .strEsc).goto .str = s := by
      rw [goto_goto, goto_self inString]
    simp [stepByte, goto, notU, taken] at back ⊢
    exact back
  have escaping : (s.goto .strEsc).syn.st ≠ .str := by simp [goto]
  rw [byteStep, if_neg escaping, stepped]
  cases isEscape e <;> simp

/-- A bulk run over string bytes is the same bytes one at a time. -/
theorem run_stringRun
    (body : Bytes) {s : Scan} (inString : s.syn.st = .str)
    (rest : Bytes) (i : Nat) :
    (stringRun rest i = none → run body s i rest = (false, s)) ∧
    (∀ j tail, stringRun rest i = some (j, tail) →
      ∃ front, rest = front ++ tail ∧ j = i + front.length ∧
        run body s i rest = run body s j tail ∧
        ∀ d more, tail = d :: more → isPlain d = false) := by
  fun_induction stringRun rest i with
  | case1 i =>
      refine ⟨by simp, ?_⟩
      rintro j tail ⟨⟩
      exact ⟨[], rfl, rfl, rfl, by simp⟩
  | case2 c rest i plain inductionHypothesis =>
      have step : run body s i (c :: rest) = run body s (i + 1) rest := by
        simp [run_cons, byteStep, inString, plain]
      refine ⟨fun none => step.trans (inductionHypothesis.1 none), ?_⟩
      intro j tail stopped
      obtain ⟨front, split, place, same, stops⟩ :=
        inductionHypothesis.2 j tail stopped
      exact ⟨c :: front, by rw [split]; rfl,
        by rw [place, List.length_cons]; omega, step.trans same, stops⟩
  | case3 i notPlain =>
      refine ⟨by simp, ?_⟩
      rintro j tail ⟨⟩
      refine ⟨[], rfl, rfl, rfl, ?_⟩
      rintro d more ⟨⟩
      simpa using notPlain
  | case4 i more notPlain =>
      refine ⟨by simp, ?_⟩
      rintro j tail ⟨⟩
      refine ⟨[], rfl, rfl, rfl, ?_⟩
      rintro d more ⟨⟩
      simpa using notPlain
  | case5 i e more notU escape notPlain inductionHypothesis =>
      have step : run body s i (0x5c :: e :: more) = run body s (i + 2) more := by
        have first : byteStep body s i 0x5c = (true, s.goto .strEsc) := by
          simp [byteStep, inString, notPlain, stringStop]
        rw [run_cons, first]
        dsimp only
        rw [run_cons, byteStep_escape inString notU, escape]
      refine ⟨fun none => step.trans (inductionHypothesis.1 none), ?_⟩
      intro j tail stopped
      obtain ⟨front, split, place, same, stops⟩ :=
        inductionHypothesis.2 j tail stopped
      exact ⟨0x5c :: e :: front, by rw [split]; rfl,
        by rw [place, List.length_cons, List.length_cons]; omega,
        step.trans same, stops⟩
  | case6 i e more notU notEscape notPlain =>
      refine ⟨fun _ => ?_, by simp⟩
      have first : byteStep body s i 0x5c = (true, s.goto .strEsc) := by
        simp [byteStep, inString, notPlain, stringStop]
      rw [run_cons, first]
      dsimp only
      rw [run_cons, byteStep_escape inString notU]
      simp [notEscape]
  | case7 c rest i notPlain notBackslash =>
      refine ⟨by simp, ?_⟩
      rintro j tail ⟨⟩
      refine ⟨[], rfl, rfl, rfl, ?_⟩
      rintro d more ⟨⟩
      simpa using notPlain

/-- The byte that stops a run is judged by the bytes seen. -/
theorem stringStop_take
    {s : Scan} {body : Bytes} {i n : Nat} (bounded : Bounded s.marks i)
    (inside : i ≤ n) (d : Byte) :
    s.stringStop (body.take n) i d = s.stringStop body i d := by
  have same : (s.goto .colon).keyDone (body.take n) i =
      (s.goto .colon).keyDone body i := by
    simp only [keyDone]
    rw [Marks.keyDone_take (m := (s.goto .colon).marks) bounded inside]
  simp only [stringStop, same]

/-! ## The loop of `feed` -/

/-- Outside a string a step takes one byte. -/
theorem step_of_not_str
    {s : Scan} {b rest : Bytes} {i : Nat} {c : Byte}
    (notString : s.syn.st ≠ .str) (shape : b.drop i = c :: rest) :
    s.step b i = s.stepByte i c := by
  rw [step, shape]
  split
  · next inString => exact absurd inString notString
  · next nil _ => simp at nil
  · next cons _ =>
      cases cons
      rfl

/-- Inside a string it takes a run. -/
theorem step_of_str
    {s : Scan} (inString : s.syn.st = .str) (b : Bytes) (i : Nat) :
    s.step b i =
      match stringRun (b.drop i) i with
      | none => (false, s, i)
      | some (i, []) => (true, s, i)
      | some (i, d :: _) => taken i (s.stringStop b i d) := by
  apply Eq.trans
  · rw [step, inString]
  · rfl

/-- A value that ended is no open string. -/
theorem valueDone_not_str (s : Scan) (stop : Nat) :
    (s.valueDone stop).syn.st ≠ .str := by
  simp only [valueDone]
  repeat' split
  all_goals simp

/-- Behind a value the next byte is always taken. -/
theorem stepByte_valueDone
    (s : Scan) (stop i : Nat) (c : Byte) :
    (s.valueDone stop).stepByte i c =
      taken i ((s.valueDone stop).stepBetween i c) := by
  have place : (s.valueDone stop).syn.st = .end ∨
      (s.valueDone stop).syn.st = .objNext ∨
      (s.valueDone stop).syn.st = .arrNext := by
    simp only [valueDone]
    repeat' split
    all_goals simp
  rw [stepByte]
  rcases place with place | place | place <;> simp only [place]

/-- A byte is left or taken. -/
theorem stepByte_index
    {s s' : Scan} {i j : Nat} {c : Byte}
    (stepped : s.stepByte i c = (true, s', j)) : j = i ∨ j = i + 1 := by
  rw [stepByte] at stepped
  dsimp only [taken] at stepped
  repeat' split at stepped
  all_goals
    simp only [Prod.mk.injEq, Bool.false_eq_true, false_and] at stepped
  all_goals omega

/-- What the loop and the run of the same bytes end with. -/
def Agrees (n : Nat) (loop : Bool × Scan × Nat) (run : Bool × Scan) :
    Prop :=
  loop.1 = run.1 ∧ loop.2.1 = run.2 ∧ (run.1 = true → loop.2.2 = n)

/-- At the end of what is fed the loop stops. -/
theorem feedLoop_end
    {b : Bytes} {n fuel : Nat} (s : Scan) (ends : b.length ≤ n) :
    feedLoop b fuel s n = (true, s, n) := by
  cases fuel with
  | zero => rfl
  | succ fuel => rw [feedLoop, if_neg (by omega)]

/-- The loop on a prefix runs the bytes of the prefix it has not seen. -/
theorem feedLoop_eq_run
    {body : Bytes} {n fuel : Nat} {s : Scan} {i : Nat}
    (whole : n ≤ body.length) (bounded : Bounded s.marks i) (inside : i ≤ n)
    (enough : 2 * (n - i) ≤ fuel) :
    Agrees n (feedLoop (body.take n) fuel s i)
      (run body s i ((body.take n).drop i)) := by
  have size : (body.take n).length = n := by
    rw [List.length_take]
    omega
  generalize left : n - i = k
  induction k using Nat.strong_induction_on generalizing s i fuel with
  | _ k inductionHypothesis =>
  by_cases ended : i = n
  · subst ended
    rw [feedLoop_end s (Nat.le_of_eq size), List.drop_eq_nil_of_le (by omega)]
    exact ⟨rfl, rfl, fun _ => rfl⟩
  · obtain ⟨fuel, rfl⟩ : ∃ less, fuel = less + 2 := ⟨fuel - 2, by omega⟩
    obtain ⟨c, rest, shape⟩ : ∃ c rest, (body.take n).drop i = c :: rest := by
      refine List.exists_cons_of_ne_nil ?_
      rw [Ne, List.drop_eq_nil_iff]
      omega
    have onward : (body.take n).drop (i + 1) = rest := by
      rw [← List.drop_drop, shape]
      rfl
    rw [feedLoop, if_pos (by omega), shape]
    by_cases inString : s.syn.st = .str
    · have bulk := run_stringRun body inString (c :: rest) i
      rw [step_of_str inString, shape]
      cases stop : stringRun (c :: rest) i with
      | none =>
          rw [bulk.1 stop]
          exact ⟨rfl, rfl, by simp⟩
      | some found =>
          obtain ⟨j, tail⟩ := found
          obtain ⟨front, split, place, same, stops⟩ := bulk.2 j tail stop
          have lengths := congrArg List.length (shape.trans split)
          simp only [List.length_drop, List.length_append] at lengths
          rw [same]
          cases tail with
          | nil =>
              have last : j = n := by
                simp only [List.length_nil] at lengths
                omega
              subst last
              dsimp only
              rw [feedLoop_end s (Nat.le_of_eq size)]
              exact ⟨rfl, rfl, fun _ => rfl⟩
          | cons d more =>
              simp only [List.length_cons] at lengths
              have after : (body.take n).drop (j + 1) = more := by
                rw [place, Nat.add_assoc, ← List.drop_drop, shape, split,
                  ← List.drop_drop, List.drop_left]
                rfl
              have notPlain := stops d more rfl
              have here := bounded.mono (show i ≤ j by omega)
              have bounded' := stringStop_bounded here body d
              dsimp only
              rw [stringStop_take here (by omega), run_cons, byteStep,
                if_pos inString, if_neg (by simp [notPlain])]
              cases stopped : s.stringStop body j d with
              | mk ok s' =>
                  rw [stopped] at bounded'
                  cases ok with
                  | false => exact ⟨rfl, rfl, by simp [taken]⟩
                  | true =>
                      dsimp only [taken]
                      rw [← after]
                      exact inductionHypothesis _ (by omega) bounded'
                        (by omega) (by omega) rfl
    · rw [step_of_not_str inString shape, run_cons, byteStep, if_neg inString]
      cases stepped : s.stepByte i c with
      | mk ok result =>
          obtain ⟨s', j⟩ := result
          have bounded' := stepByte_bounded bounded c
          rw [stepped] at bounded'
          cases ok with
          | false => exact ⟨rfl, rfl, by simp⟩
          | true =>
              dsimp only
              rcases stepByte_index stepped with rfl | rfl
              · obtain rfl := stepByte_reread stepped
                have again := stepByte_valueDone s j j c
                have bounded₂ := stepByte_bounded
                  (valueDone_bounded j bounded) c
                rw [if_pos rfl, feedLoop, if_pos (by omega),
                  step_of_not_str (valueDone_not_str s j) shape, again]
                rw [again] at bounded₂
                cases between : (s.valueDone j).stepBetween j c with
                | mk ok s' =>
                    rw [between] at bounded₂
                    cases ok with
                    | false => exact ⟨rfl, rfl, by simp [taken]⟩
                    | true =>
                        dsimp only [taken]
                        rw [← onward]
                        exact inductionHypothesis _ (by omega) bounded₂
                          (by omega) (by omega) rfl
              · rw [if_neg (by omega), ← onward]
                exact inductionHypothesis _ (by omega) bounded' (by omega)
                  (by omega) rfl

/-- Every run keeps the places before it. -/
theorem run_bounded
    {body : Bytes} {s : Scan} {i : Nat} (bounded : Bounded s.marks i)
    (rest : Bytes) (ok : (run body s i rest).1 = true) :
    Bounded (run body s i rest).2.marks (i + rest.length) := by
  induction rest generalizing s i with
  | nil => exact bounded
  | cons c rest inductionHypothesis =>
      rw [run_cons] at ok ⊢
      have stepped := byteStep_bounded bounded body c
      cases equal : byteStep body s i c with
      | mk taken s' =>
          rw [equal] at ok stepped
          cases taken with
          | false => simp at ok
          | true =>
              have later := inductionHypothesis stepped ok
              rw [List.length_cons, Nat.add_comm rest.length, ← Nat.add_assoc]
              exact later

/-! ## Cuts -/

/-- The whole body fed through the prefixes of these lengths, and then whole
with `last`. -/
def feedCuts (s : BodyScan) (body : Bytes) (cuts : List Nat) : BodyScan :=
  (cuts.foldl (fun s n => s.feed (body.take n) false) s).feed body true

/-- A refused scan, with the reason it is given. -/
def refusedScan (s : Scan) (why : String) : Scan :=
  { s with marks := { s.marks with why := some why } }

/-- The scan of the whole body, a byte at a time. -/
def outcome (body : Bytes) (start : Scan) : Verdict × Scan :=
  match run body start 0 body with
  | (false, s) =>
      (.refused, refusedScan s (s.marks.why.getD "body is not valid JSON"))
  | (true, s) =>
      if (endsNumber s).syn.st = .end then (.done, endsNumber s)
      else (.refused, refusedScan (endsNumber s) "body ends inside a value")

/-- A state that feeds of prefixes lead to: the run of the prefix seen, or the
outcome when that is a refusal. -/
def Reached (body : Bytes) (start : Scan) (s : BodyScan) : Prop :=
  (s.verdict = .more ∧ s.pos ≤ body.length ∧
    run body start 0 (body.take s.pos) = (true, s.toScan)) ∨
  (s.verdict = .refused ∧ (run body start 0 body).1 = false ∧
    s.toScan = (outcome body start).2)

/-- A refusal on a prefix is the refusal of the whole body. -/
theorem run_refused_of_prefix
    {body : Bytes} {start scan : Scan} {n : Nat}
    (refused : run body start 0 (body.take n) = (false, scan)) :
    run body start 0 body = (false, scan) := by
  have split := run_append body start 0 (body.take n) (body.drop n)
  rw [List.take_append_drop, refused] at split
  exact split

/-- The run of a longer prefix goes on from the run of a shorter one. -/
theorem run_take_of_le
    {body : Bytes} {start scan : Scan} {m n : Nat} (le : m ≤ n)
    (inside : m ≤ body.length)
    (reached : run body start 0 (body.take m) = (true, scan)) :
    run body start 0 (body.take n) =
      run body scan m ((body.take n).drop m) := by
  have split := run_append body start 0 ((body.take n).take m)
    ((body.take n).drop m)
  rw [List.take_append_drop, List.take_take, Nat.min_eq_left le, reached] at split
  dsimp only at split
  rw [split, List.length_take, Nat.min_eq_left inside, Nat.zero_add]

/-- What a feed of a prefix not shorter than what was seen does. -/
theorem feedLoop_of_reached
    {body : Bytes} {start : Scan} {s : BodyScan} {n : Nat}
    (initial : Bounded start.marks 0) (seen : s.pos ≤ n) (whole : n ≤ body.length)
    (reached : run body start 0 (body.take s.pos) = (true, s.toScan)) :
    Agrees n (feedLoop (body.take n) (2 * (body.take n).length) s.toScan s.pos)
      (run body start 0 (body.take n)) := by
  have bounded := run_bounded initial (body.take s.pos) (by rw [reached])
  rw [reached, List.length_take, Nat.min_eq_left (by omega),
    Nat.zero_add] at bounded
  have size : (body.take n).length = n := by
    rw [List.length_take]
    omega
  rw [run_take_of_le seen (by omega) reached]
  exact feedLoop_eq_run whole bounded seen (by rw [size]; omega)

/-- A feed of a prefix leads from a reached state to one. -/
theorem feed_take
    {body : Bytes} {start : Scan} (initial : Bounded start.marks 0)
    {s : BodyScan} (reached : Reached body start s) (n : Nat) :
    Reached body start (s.feed (body.take n) false) := by
  rcases reached with ⟨more, inside, ran⟩ | ⟨refused, failed, same⟩
  · wlog whole : n ≤ body.length generalizing n
    · have all := this body.length (Nat.le_refl _)
      rw [List.take_length] at all
      rwa [List.take_of_length_le (by omega)]
    rw [feed, if_neg (by simp [more])]
    by_cases seen : s.pos ≤ n
    · have agrees := feedLoop_of_reached initial seen whole ran
      cases looped : feedLoop (body.take n) (2 * (body.take n).length) s.toScan
          s.pos with
      | mk ok result =>
          obtain ⟨scan, i⟩ := result
          rw [looped] at agrees
          obtain ⟨flag, scanned, stop⟩ := agrees
          dsimp only at flag scanned stop
          have ran' : run body start 0 (body.take n) = (ok, scan) :=
            Prod.ext flag.symm scanned.symm
          cases ok with
          | false =>
              have failed := run_refused_of_prefix ran'
              refine Or.inr ⟨rfl, by rw [failed], ?_⟩
              rw [outcome, failed]
              rfl
          | true =>
              obtain rfl := stop (by rw [ran'])
              exact Or.inl ⟨more, whole, ran'⟩
    · have size : (body.take n).length ≤ s.pos := by
        rw [List.length_take]
        omega
      rw [feedLoop_end s.toScan size]
      exact Or.inl ⟨more, inside, ran⟩
  · rw [feed, if_pos (by simp [refused])]
    exact Or.inr ⟨refused, failed, same⟩

/-- Feeds of prefixes lead to reached states. -/
theorem feeds_take
    {body : Bytes} {start : Scan} (initial : Bounded start.marks 0)
    {s : BodyScan} (reached : Reached body start s) (cuts : List Nat) :
    Reached body start (cuts.foldl (fun s n => s.feed (body.take n) false) s) := by
  induction cuts generalizing s with
  | nil => exact reached
  | cons n cuts inductionHypothesis =>
      exact inductionHypothesis (feed_take initial reached n)

/-- The last feed ends with the outcome of the whole body. -/
theorem feed_last
    {body : Bytes} {start : Scan} (initial : Bounded start.marks 0)
    {s : BodyScan} (reached : Reached body start s) :
    (s.feed body true).verdict = (outcome body start).1 ∧
      (s.feed body true).toScan = (outcome body start).2 := by
  rcases reached with ⟨more, inside, ran⟩ | ⟨refused, failed, same⟩
  · have agrees := feedLoop_of_reached initial inside (Nat.le_refl _) ran
    rw [List.take_length] at agrees
    rw [feed, if_neg (by simp [more])]
    cases looped : feedLoop body (2 * body.length) s.toScan s.pos with
    | mk ok result =>
        obtain ⟨scan, i⟩ := result
        rw [looped] at agrees
        obtain ⟨flag, scanned, -⟩ := agrees
        dsimp only at flag scanned
        have ran' : run body start 0 body = (ok, scan) :=
          Prod.ext flag.symm scanned.symm
        rw [outcome, ran']
        cases ok with
        | false => exact ⟨rfl, rfl⟩
        | true =>
            dsimp only [finish]
            by_cases ended : (endsNumber scan).syn.st = .end
            · simp [ended]
            · simp [ended, refuse, refusedScan]
  · have out : (outcome body start).1 = .refused := by
      rw [outcome]
      cases ran : run body start 0 body with
      | mk ok scan =>
          rw [ran] at failed
          cases ok with
          | false => rfl
          | true => simp at failed
    rw [feed, if_pos (by simp [refused])]
    exact ⟨refused.trans out.symm, same⟩

/-- A fresh scan has no places. -/
theorem reset_bounded (allKeys trackModel : Bool) (members : UInt8) :
    Bounded (reset allKeys trackModel members).marks 0 :=
  ⟨Nat.le_refl _, by simp [reset]⟩

/-- A fresh scan is reached. -/
theorem reset_reached
    (body : Bytes) (allKeys trackModel : Bool) (members : UInt8) :
    Reached body (reset allKeys trackModel members).toScan
      (reset allKeys trackModel members) :=
  Or.inl ⟨rfl, Nat.zero_le _, rfl⟩

/-- Whatever the cuts, the body ends with its outcome. -/
theorem feedCuts_eq_outcome
    (body : Bytes) (allKeys trackModel : Bool) (members : UInt8)
    (cuts : List Nat) :
    (feedCuts (reset allKeys trackModel members) body cuts).verdict =
        (outcome body (reset allKeys trackModel members).toScan).1 ∧
      (feedCuts (reset allKeys trackModel members) body cuts).toScan =
        (outcome body (reset allKeys trackModel members).toScan).2 :=
  feed_last (reset_bounded allKeys trackModel members)
    (feeds_take (reset_bounded allKeys trackModel members)
      (reset_reached body allKeys trackModel members) cuts)

end BodyScan
end Llmbridge
