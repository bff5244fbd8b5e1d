import Llmbridge.Provider.BodyScanRun
import Llmbridge.Rfc8259.Automaton

/-!
# The scan recognises the grammar

The syntax half of the scan is the recogniser of `Rfc8259.Automaton`: its place
is a state, its stack of containers a depth and 64 bits, and the members' half
observes what it passes.  So a scan ends well exactly when the body has a tree
and that tree, shown to the members' half, is not refused.
-/

namespace Llmbridge
namespace BodyScan

open Rfc8259
open Scan

/-- The members' half as an observer of the recogniser. -/
def observe (body : Bytes) : Event → Marks → Option Marks
  | .start depth «at» c, m =>
      match m.valueStart depth «at» c with
      | (false, _) => none
      | (true, started) =>
          if c = 0x7b ∨ c = 0x5b then
            some (started.opened (depth + 1) («at» + 1) (c = 0x7b) m.optionsNext)
          else some started
  | .keyStart depth «at», m => some (m.keyStart depth «at»)
  | .keyEnd depth «at», m =>
      match m.keyDone body depth «at» with
      | (false, _) => none
      | (true, m) => some m
  | .comma depth «at», m => some (m.comma depth «at»)
  | .close depth, m => some (m.closed depth)
  | .finish depth stop, m => some (m.valueDone depth stop)

/-! ## States that stand for each other -/

/-- The number of a literal name in `kLits`. -/
def litNumber : Lit → Nat
  | .true => 0
  | .false => 1
  | .null => 2

/-- The state of a place, `stack` being open. -/
def stOf : Place → List Kind → St
  | .value, _ => .value
  | .first .array, _ => .arrFirst
  | .first .object, _ => .objFirst
  | .key, _ => .objKey
  | .colon, _ => .colon
  | .next, [] => .end
  | .next, .object :: _ => .objNext
  | .next, .array :: _ => .arrNext
  | .chars _, _ => .str
  | .escape _, _ => .strEsc
  | .hex _ _, _ => .strHex
  | .sign, _ => .numSign
  | .zero, _ => .numZero
  | .int, _ => .numInt
  | .dot, _ => .numDot
  | .frac, _ => .numFrac
  | .e, _ => .numE
  | .eSign, _ => .numESign
  | .exp, _ => .numExp
  | .lit _ _, _ => .lit

/-- What a place keeps besides its state. -/
def HoldsPlace (syn : Syn) (stack : List Kind) : Place → Prop
  | .first kind => stack.head? = some kind
  | .chars isKey => syn.key = isKey
  | .escape isKey => syn.key = isKey
  | .hex isKey seen => syn.key = isKey ∧ syn.hex = seen ∧ seen ≤ 3
  | .lit l seen =>
      syn.lit = litNumber l * 8 + seen ∧ seen < l.text.length
  | _ => True

/-- The depth and the bits stand for the stack. -/
structure HoldsStack (syn : Syn) (stack : List Kind) : Prop where
  depth : syn.depth = stack.length
  shallow : stack.length ≤ Json.kMaxDepth
  kinds : ∀ (d : Nat) (kind : Kind), stack.reverse[d]? = some kind →
    syn.kinds.getLsbD d = decide (kind = .object)

/-- A state of the scan stands for one of the recogniser. -/
structure Matches (m : Machine) (syn : Syn) : Prop where
  stack : HoldsStack syn m.stack
  st : syn.st = stOf m.place m.stack
  place : HoldsPlace syn m.stack m.place

/-- A step of the scan against one of the recogniser. -/
def Simulates (result : Bool × Scan) (step : Option (Machine × Marks)) : Prop :=
  match step with
  | none => result.1 = false
  | some (m, marks) =>
      result.1 = true ∧ result.2.marks = marks ∧ Matches m result.2.syn

section Stack

variable {syn : Syn} {stack : List Kind}

theorem HoldsStack.congr
    {syn' : Syn} (holds : HoldsStack syn stack) (depth : syn'.depth = syn.depth)
    (kinds : syn'.kinds = syn.kinds) : HoldsStack syn' stack :=
  ⟨depth.trans holds.depth, holds.shallow,
    fun d kind at' => by rw [kinds]; exact holds.kinds d kind at'⟩

/-- The innermost container's bit. -/
theorem HoldsStack.head
    {kind : Kind} (holds : HoldsStack syn (kind :: stack)) :
    syn.kinds.getLsbD (syn.depth - 1) = decide (kind = .object) := by
  refine holds.kinds _ kind ?_
  rw [holds.depth]
  simp

theorem HoldsStack.pop
    {kind : Kind} (holds : HoldsStack syn (kind :: stack)) :
    HoldsStack { syn with depth := syn.depth - 1 } stack := by
  refine ⟨by simp [holds.depth], Nat.le_of_succ_le holds.shallow, ?_⟩
  intro d inner inside
  refine holds.kinds d inner ?_
  have bound : d < stack.reverse.length := by
    rw [List.getElem?_eq_some_iff] at inside
    exact inside.1
  rw [List.reverse_cons, List.getElem?_append_left bound]
  exact inside

/-- A container opens: its bit is set or cleared, the others stay. -/
theorem HoldsStack.push
    (holds : HoldsStack syn stack) (room : stack.length ≠ Json.kMaxDepth)
    (kind : Kind) :
    HoldsStack { syn with
      kinds := if kind.opens = 0x7b then syn.kinds ||| 1#64 <<< syn.depth
        else syn.kinds &&& ~~~(1#64 <<< syn.depth)
      depth := syn.depth + 1 } (kind :: stack) := by
  have shallow := holds.shallow
  have depth := holds.depth
  refine ⟨by simp [depth], by simp only [List.length_cons]; omega, ?_⟩
  intro d inner inside
  have small : stack.length < 64 := by
    simp only [Json.kMaxDepth] at shallow room
    omega
  have bound : d < (kind :: stack).reverse.length := by
    rw [List.getElem?_eq_some_iff] at inside
    exact inside.1
  simp only [List.length_reverse, List.length_cons] at bound
  rw [List.reverse_cons] at inside
  by_cases last : d = stack.length
  · subst last
    have same : kind = inner := by simpa using inside
    subst same
    cases kind <;> simp [Kind.opens, depth, small]
  · have below : d < stack.reverse.length := by
      rw [List.length_reverse]
      omega
    rw [List.getElem?_append_left below] at inside
    have bit := holds.kinds d inner inside
    have other : (1#64 <<< syn.depth).getLsbD d = false := by
      rw [depth]
      simp
      omega
    have wide : d < 64 := by omega
    generalize 1#64 <<< syn.depth = mask at other ⊢
    have notMask : (~~~mask).getLsbD d = true := by
      rw [BitVec.getLsbD_not, other]
      simpa using wide
    cases kind with
    | array =>
        have cleared : (syn.kinds &&& ~~~mask).getLsbD d =
            decide (inner = .object) := by
          rw [BitVec.getLsbD_and, notMask, bit, Bool.and_true]
        exact cleared
    | object =>
        have kept : (syn.kinds ||| mask).getLsbD d =
            decide (inner = .object) := by
          rw [BitVec.getLsbD_or, other, bit, Bool.or_false]
        exact kept

end Stack

/-! ## Steps -/

section Steps

variable {body : Bytes} {s : Scan} {stack : List Kind}

variable (body) in
theorem valueDone_simulates
    (holds : HoldsStack s.syn stack) (stop : Nat) :
    Simulates (true, s.valueDone stop)
      (Rfc8259.valueDone (observe body) stack stop s.marks) := by
  have depth := holds.depth
  refine ⟨rfl, by simp [Scan.valueDone, depth], ?_, ?_, trivial⟩
  · exact holds.congr rfl rfl
  · cases stack with
    | nil => simp [Scan.valueDone, stOf, depth]
    | cons kind outer =>
        have bit := holds.head
        cases kind <;> simp [Scan.valueDone, stOf, depth] at bit ⊢ <;>
          simp [bit]

theorem startValue_simulates
    (holds : HoldsStack s.syn stack) (i : Nat) (c : Byte) :
    Simulates (s.startValue i c)
      (beginValue Json.kMaxDepth (observe body) stack i c s.marks) := by
  have depth := holds.depth
  rw [startValue, beginValue]
  dsimp only [observe]
  rw [← depth]
  cases started : s.marks.valueStart s.syn.depth i c with
  | mk ok marks =>
      cases ok with
      | false => rfl
      | true =>
          dsimp only
          by_cases quote : c = 0x22
          · subst quote
            exact ⟨rfl, rfl, holds.congr rfl rfl, rfl, rfl⟩
          by_cases container : c = 0x7b ∨ c = 0x5b
          · obtain ⟨kind, rfl⟩ : ∃ kind : Kind, c = kind.opens := by
              rcases container with rfl | rfl
              · exact ⟨.object, rfl⟩
              · exact ⟨.array, rfl⟩
            by_cases full : stack.length = Json.kMaxDepth
            · cases kind <;> simp [Kind.opens, openContainer, full, depth, Simulates,
                Scan.because]
            · have pushed := holds.push full kind
              cases kind <;>
                simp [Kind.opens, openContainer, full, depth, Simulates] <;>
                exact ⟨pushed.congr (by simp [depth])
                  (by simp [Kind.opens, depth]), rfl, rfl⟩
          rw [if_neg quote, if_neg container, if_neg container]
          rw [not_or] at container
          simp only [Option.bind_some, quote, container, if_false]
          by_cases isT : c = 0x74
          · subst isT
            exact ⟨rfl, rfl, holds.congr rfl rfl, rfl, rfl, by decide⟩
          by_cases isF : c = 0x66
          · subst isF
            exact ⟨rfl, rfl, holds.congr rfl rfl, rfl, rfl, by decide⟩
          by_cases isN : c = 0x6e
          · subst isN
            exact ⟨rfl, rfl, holds.congr rfl rfl, rfl, rfl, by decide⟩
          simp only [isT, isF, isN, or_self, if_false]
          repeat' split
          · exact ⟨rfl, rfl, holds.congr rfl rfl, rfl, trivial⟩
          · exact ⟨rfl, rfl, holds.congr rfl rfl, rfl, trivial⟩
          · exact ⟨rfl, rfl, holds.congr rfl rfl, rfl, trivial⟩
          · rfl

theorem startKey_simulates
    (holds : HoldsStack s.syn stack) (i : Nat) (c : Byte) :
    Simulates (s.startKey i c) (beginKey (observe body) stack i c s.marks) := by
  rw [startKey, beginKey]
  by_cases quote : c = 0x22
  · rw [if_neg (by simp [quote]), if_pos quote]
    refine ⟨rfl, by simp [holds.depth], holds.congr rfl rfl, rfl, rfl⟩
  · rw [if_pos quote, if_neg quote]
    rfl

theorem closeContainer_simulates
    {kind : Kind} (holds : HoldsStack s.syn (kind :: stack)) (i : Nat) :
    Simulates (true, s.closeContainer i)
      (Rfc8259.closeContainer (observe body) stack i s.marks) := by
  have depth : s.syn.depth - 1 = stack.length := by simp [holds.depth]
  have closed := valueDone_simulates body
    (s := { s with
      marks := s.marks.closed (s.syn.depth - 1)
      syn := { s.syn with depth := s.syn.depth - 1 } }) holds.pop (i + 1)
  rw [Scan.closeContainer, Rfc8259.closeContainer]
  simpa [observe, depth] using closed

theorem stepMark_simulates
    {m : Machine} (same : Matches m s.syn) (i : Nat) (c : Byte) :
    Simulates (s.stepMark i c)
      (Rfc8259.stepMark Json.kMaxDepth (observe body) m i c s.marks) := by
  obtain ⟨place, stack⟩ := m
  obtain ⟨holds, st, kept⟩ := same
  dsimp only at holds st kept
  rw [Scan.stepMark, st]
  cases place with
  | value => exact startValue_simulates holds i c
  | first kind =>
      cases stack with
      | nil => simp [HoldsPlace] at kept
      | cons inner outer =>
          obtain rfl : inner = kind := by simpa [HoldsPlace] using kept
          cases inner with
          | array =>
              dsimp only [stOf, Rfc8259.stepMark]
              by_cases close : c = 0x5d
              · rw [if_pos close, if_pos close]
                exact closeContainer_simulates holds i
              · rw [if_neg close, if_neg close]
                exact startValue_simulates holds i c
          | object =>
              dsimp only [stOf, Rfc8259.stepMark]
              by_cases close : c = 0x7d
              · rw [if_pos close, if_pos close]
                exact closeContainer_simulates holds i
              · rw [if_neg close, if_neg close]
                exact startKey_simulates holds i c
  | key => exact startKey_simulates holds i c
  | colon =>
      dsimp only [stOf, Rfc8259.stepMark]
      by_cases colon : c = 0x3a
      · simp only [colon, if_true, decide_true]
        exact ⟨rfl, rfl, holds.congr rfl rfl, rfl, trivial⟩
      · simp [colon, Simulates]
  | next =>
      cases stack with
      | nil => rfl
      | cons inner outer =>
          cases inner with
          | array =>
              dsimp only [stOf, Rfc8259.stepMark]
              by_cases comma : c = 0x2c
              · rw [if_pos comma, if_pos comma]
                exact ⟨rfl, rfl, holds.congr rfl rfl, rfl, trivial⟩
              by_cases close : c = 0x5d
              · simp only [close, ne_eq, not_true_eq_false, if_false, if_true]
                exact closeContainer_simulates holds i
              · simp [comma, close, Simulates]
          | object =>
              dsimp only [stOf, Rfc8259.stepMark]
              by_cases comma : c = 0x2c
              · rw [if_pos comma, if_pos comma]
                refine ⟨rfl, ?_, holds.congr rfl rfl, rfl, trivial⟩
                rw [holds.depth]
              by_cases close : c = 0x7d
              · simp only [close, ne_eq, not_true_eq_false, if_false, if_true]
                exact closeContainer_simulates holds i
              · simp [comma, close, Simulates]
  | chars | escape | hex | sign | zero | int | dot | frac | e | eSign | exp
  | lit => rfl

theorem stepBetween_simulates
    {m : Machine} (same : Matches m s.syn) (i : Nat) (c : Byte) :
    Simulates (s.stepBetween i c)
      (Rfc8259.stepBetween Json.kMaxDepth (observe body) m i c s.marks) := by
  rw [Scan.stepBetween, Rfc8259.stepBetween]
  by_cases ws : isWs c = true
  · rw [if_pos ws, if_pos ws]
    exact ⟨rfl, rfl, same⟩
  · rw [if_neg ws, if_neg ws]
    exact stepMark_simulates same i c

/-- A byte that is taken. -/
theorem byteStep_of_taken
    {i : Nat} {c : Byte} {result : Bool × Scan} (outside : s.syn.st ≠ .str)
    (stepped : s.stepByte i c = taken i result) :
    byteStep body s i c = result := by
  rw [byteStep, if_neg outside, stepped]
  obtain ⟨ok, s'⟩ := result
  cases ok with
  | false => rfl
  | true => simp [taken]

/-- The states between tokens. -/
def betweenTokens : List St :=
  [.value, .arrFirst, .objFirst, .objKey, .colon, .objNext, .arrNext, .end]

theorem byteStep_of_between
    (place : s.syn.st ∈ betweenTokens) (i : Nat) (c : Byte) :
    s.stepByte i c = taken i (s.stepBetween i c) ∧ s.syn.st ≠ .str := by
  rw [Scan.stepByte]
  simp only [betweenTokens, List.mem_cons, List.not_mem_nil, or_false] at place
  rcases place with st | st | st | st | st | st | st | st <;> simp [st]

/-- A byte behind a number is looked at once more. -/
theorem byteStep_of_ended
    {i : Nat} {c : Byte} (outside : s.syn.st ≠ .str)
    (stepped : s.stepByte i c = (true, s.valueDone i, i)) :
    byteStep body s i c = (s.valueDone i).stepBetween i c := by
  have place : (s.valueDone i).syn.st ∈ betweenTokens := by
    simp only [Scan.valueDone]
    split
    · decide
    · split <;> decide
  rw [byteStep, if_neg outside, stepped]
  dsimp only
  rw [if_pos rfl, (byteStep_of_between place i c).1]
  rfl

theorem endNumber_simulates
    (holds : HoldsStack s.syn stack) (i : Nat) (c : Byte) :
    Simulates ((s.valueDone i).stepBetween i c)
      (endNumber Json.kMaxDepth (observe body) stack i c s.marks) := by
  have done := valueDone_simulates body holds i
  rw [endNumber]
  cases ended : Rfc8259.valueDone (observe body) stack i s.marks with
  | none => simp [Rfc8259.valueDone, observe] at ended
  | some result =>
      obtain ⟨m, marks⟩ := result
      rw [ended] at done
      obtain ⟨-, marked, same⟩ := done
      dsimp only at marked same
      subst marked
      exact stepBetween_simulates same i c

/-- A byte that must be a digit. -/
theorem stepDigit_simulates
    (holds : HoldsStack s.syn stack) (c : Byte) {place : Place} {st : St}
    (state : stOf place stack = st) (kept : ∀ syn, HoldsPlace syn stack place) :
    Simulates (isDigit c, s.goto st) (stepDigit stack c s.marks place) := by
  rw [stepDigit]
  by_cases digit : isDigit c = true
  · rw [if_pos digit, digit]
    exact ⟨rfl, rfl, holds.congr rfl rfl, state.symm, kept _⟩
  · rw [if_neg digit]
    simpa [Simulates] using digit

theorem litNumber_shift (l : Lit) (seen : Nat) (small : seen < 8) :
    (litNumber l * 8 + seen) >>> 3 = litNumber l ∧
      (litNumber l * 8 + seen) &&& 7 = seen := by
  have low : ∀ n, n &&& 7 = n % 2 ^ 3 := fun n => Nat.and_two_pow_sub_one_eq_mod n 3
  rw [Nat.shiftRight_eq_div_pow, low]
  omega

theorem kLits_litNumber (l : Lit) : kLits (litNumber l) = l.text := by
  cases l <;> rfl

theorem Lit.text_length_le (l : Lit) : l.text.length ≤ 5 := by
  cases l <;> decide

/-- A byte of a literal name. -/
theorem lit_simulates
    {l : Lit} {seen : Nat} (same : Matches ⟨.lit l seen, stack⟩ s.syn) (i : Nat)
    (c : Byte) :
    Simulates (byteStep body s i c)
      (Rfc8259.stepByte Json.kMaxDepth (observe body) ⟨.lit l seen, stack⟩ i c
        s.marks) := by
  obtain ⟨holds, st, number, inside⟩ := same
  dsimp only [stOf] at holds st number inside
  have short := Lit.text_length_le l
  obtain ⟨which, low⟩ := litNumber_shift l seen (by omega)
  have lowNext := (litNumber_shift l (seen + 1) (by omega)).2
  have outside : s.syn.st ≠ .str := by simp [st]
  have stepped : s.stepByte i c =
      if l.text[seen]? ≠ some c then (false, s, i)
      else
        let next := { s with syn := { s.syn with lit := s.syn.lit + 1 } }
        if seen + 1 = l.text.length then taken i (true, next.valueDone (i + 1))
        else taken i (true, next) := by
    rw [Scan.stepByte, st]
    simp only [number, which, low, kLits_litNumber]
    rw [Nat.add_assoc, lowNext]
  dsimp only [Rfc8259.stepByte]
  by_cases wrong : l.text[seen]? = some c
  · rw [if_pos wrong]
    rw [if_neg (by simpa using wrong)] at stepped
    by_cases last : seen + 1 = l.text.length
    · rw [if_pos last]
      simp only [last, if_true] at stepped
      rw [byteStep_of_taken outside stepped]
      exact valueDone_simulates _
        (s := { s with syn := { s.syn with lit := s.syn.lit + 1 } })
        (holds.congr rfl rfl) (i + 1)
    · rw [if_neg last]
      simp only [last, if_false] at stepped
      rw [byteStep_of_taken outside stepped]
      refine ⟨rfl, rfl, holds.congr rfl rfl, st, ?_, by omega⟩
      simp only [number, Nat.add_assoc]
  · rw [if_neg wrong]
    rw [if_pos (by simpa using wrong)] at stepped
    simp [byteStep, outside, stepped, Simulates]

/-- A byte of a string. -/
theorem chars_simulates
    {isKey : Bool} (same : Matches ⟨.chars isKey, stack⟩ s.syn) (i : Nat)
    (c : Byte) :
    Simulates (byteStep body s i c)
      (Rfc8259.stepByte Json.kMaxDepth (observe body) ⟨.chars isKey, stack⟩ i c
        s.marks) := by
  obtain ⟨holds, st, key⟩ := same
  dsimp only [stOf, HoldsPlace] at holds st key
  rw [byteStep, if_pos st]
  dsimp only [Rfc8259.stepByte]
  by_cases quote : c = 0x22
  · subst quote
    rw [if_neg (by decide), stringStop, if_neg (by decide), if_neg (by decide),
      if_pos rfl, key]
    cases isKey with
    | false =>
        simp only [if_true, Bool.false_eq_true, if_false]
        exact valueDone_simulates _ holds (i + 1)
    | true =>
        simp only [Bool.true_eq_false, if_false, if_true, observe]
        rw [Scan.keyDone]
        have depth : (s.goto .colon).syn.depth = stack.length := holds.depth
        rw [depth]
        change Simulates _ (Option.map _ (match s.marks.keyDone body _ i with
          | (false, _) => none
          | (true, m) => some m))
        cases closed : s.marks.keyDone body stack.length i with
        | mk ok marks =>
            have same : (s.goto .colon).marks = s.marks := rfl
            rw [same, closed]
            cases ok with
            | false => rfl
            | true => exact ⟨rfl, rfl, holds.congr rfl rfl, rfl, trivial⟩
  · by_cases escape : c = 0x5c
    · subst escape
      exact ⟨rfl, rfl, holds.congr rfl rfl, rfl, key⟩
    · rw [if_neg quote, if_neg escape]
      by_cases plain : isPlain c = true
      · rw [if_pos plain, if_pos plain]
        exact ⟨rfl, rfl, holds, st, key⟩
      · rw [if_neg plain, if_neg plain, stringStop, if_neg escape, if_pos quote]
        rfl

/-- A byte that only moves the scan. -/
theorem goto_simulates
    {i : Nat} {c : Byte} {place : Place} {st : St} (holds : HoldsStack s.syn stack)
    (outside : s.syn.st ≠ .str) (stepped : s.stepByte i c = taken i (true, s.goto st))
    (state : stOf place stack = st) (kept : ∀ syn, HoldsPlace syn stack place) :
    Simulates (byteStep body s i c) (some (⟨place, stack⟩, s.marks)) := by
  rw [byteStep_of_taken outside stepped]
  exact ⟨rfl, rfl, holds.congr rfl rfl, state.symm, kept _⟩

/-- A byte behind an integer part: a point, an exponent or the number's end. -/
theorem marker_simulates
    {i : Nat} {c : Byte} {ended : Option (Machine × Marks)}
    (holds : HoldsStack s.syn stack) (outside : s.syn.st ≠ .str)
    (ends : s.stepByte i c = (true, s.valueDone i, i) →
      Simulates (byteStep body s i c) ended)
    (step : s.stepByte i c =
      if c = 0x2e then taken i (true, s.goto .numDot)
      else if c = 0x65 ∨ c = 0x45 then taken i (true, s.goto .numE)
      else (true, s.valueDone i, i)) :
    Simulates (byteStep body s i c)
      (if c = 0x2e then some (⟨.dot, stack⟩, s.marks)
      else if c = 0x65 ∨ c = 0x45 then some (⟨.e, stack⟩, s.marks)
      else ended) := by
  by_cases dot : c = 0x2e
  · rw [if_pos dot] at step ⊢
    exact goto_simulates holds outside step rfl fun _ => trivial
  rw [if_neg dot] at step ⊢
  by_cases e : c = 0x65 ∨ c = 0x45
  · rw [if_pos e] at step ⊢
    exact goto_simulates holds outside step rfl fun _ => trivial
  rw [if_neg e] at step ⊢
  exact ends step

/-- A byte of a number. -/
theorem number_simulates
    {place : Place} (same : Matches ⟨place, stack⟩ s.syn) (i : Nat) (c : Byte)
    (number : place ∈ [.sign, .zero, .int, .dot, .frac, .e, .eSign, .exp]) :
    Simulates (byteStep body s i c)
      (Rfc8259.stepByte Json.kMaxDepth (observe body) ⟨place, stack⟩ i c
        s.marks) := by
  obtain ⟨holds, st, -⟩ := id same
  dsimp only at holds st
  have outside : s.syn.st ≠ .str := by
    rw [st]
    simp only [List.mem_cons, List.not_mem_nil, or_false] at number
    rcases number with rfl | rfl | rfl | rfl | rfl | rfl | rfl | rfl <;>
      simp [stOf]
  have stays : s.stepByte i c = taken i (true, s) →
      Simulates (byteStep body s i c) (some (⟨place, stack⟩, s.marks)) := by
    intro stepped
    rw [byteStep_of_taken outside stepped]
    exact ⟨rfl, rfl, same⟩
  have ends : s.stepByte i c = (true, s.valueDone i, i) →
      Simulates (byteStep body s i c)
        (endNumber Json.kMaxDepth (observe body) stack i c s.marks) := by
    intro stepped
    rw [byteStep_of_ended outside stepped]
    exact endNumber_simulates holds i c
  have step := Scan.stepByte.eq_def s i c
  cases place with
  | sign =>
      simp only [st, stOf] at step
      dsimp only [Rfc8259.stepByte]
      rw [byteStep_of_taken outside step]
      by_cases zero : c = 0x30 <;>
        exact stepDigit_simulates holds c (by simp [zero, stOf])
          (by simp [zero, HoldsPlace])
  | zero =>
      simp only [st, stOf] at step
      dsimp only [Rfc8259.stepByte]
      by_cases digit : isDigit c = true
      · simp only [digit, if_true] at step ⊢
        rw [byteStep_of_taken outside step]
        rfl
      · simp only [digit, Bool.false_eq_true, if_false] at step ⊢
        exact marker_simulates holds outside ends step
  | int =>
      simp only [st, stOf] at step
      dsimp only [Rfc8259.stepByte]
      by_cases digit : isDigit c = true
      · simp only [digit, if_true] at step ⊢
        exact stays step
      · simp only [digit, Bool.false_eq_true, if_false] at step ⊢
        exact marker_simulates holds outside ends step
  | dot =>
      simp only [st, stOf] at step
      rw [byteStep_of_taken outside step]
      exact stepDigit_simulates holds c rfl fun _ => trivial
  | frac =>
      simp only [st, stOf] at step
      dsimp only [Rfc8259.stepByte]
      by_cases digit : isDigit c = true
      · simp only [digit, if_true] at step ⊢
        exact stays step
      by_cases e : c = 0x65 ∨ c = 0x45
      · simp only [digit, e, Bool.false_eq_true, if_false, if_true] at step ⊢
        exact goto_simulates holds outside step rfl fun _ => trivial
      simp only [digit, e, Bool.false_eq_true, if_false] at step ⊢
      exact ends step
  | e =>
      simp only [st, stOf] at step
      dsimp only [Rfc8259.stepByte]
      by_cases sign : c = 0x2b ∨ c = 0x2d
      · simp only [sign, if_true] at step ⊢
        exact goto_simulates holds outside step rfl fun _ => trivial
      simp only [sign, if_false] at step ⊢
      rw [byteStep_of_taken outside step]
      exact stepDigit_simulates holds c rfl fun _ => trivial
  | eSign =>
      simp only [st, stOf] at step
      rw [byteStep_of_taken outside step]
      exact stepDigit_simulates holds c rfl fun _ => trivial
  | exp =>
      simp only [st, stOf] at step
      dsimp only [Rfc8259.stepByte]
      by_cases digit : isDigit c = true
      · simp only [digit, if_true] at step ⊢
        exact stays step
      simp only [digit, Bool.false_eq_true, if_false] at step ⊢
      exact ends step
  | _ => simp at number

theorem escape_simulates
    {isKey : Bool} (same : Matches ⟨.escape isKey, stack⟩ s.syn) (i : Nat)
    (c : Byte) :
    Simulates (byteStep body s i c)
      (Rfc8259.stepByte Json.kMaxDepth (observe body) ⟨.escape isKey, stack⟩ i c
        s.marks) := by
  obtain ⟨holds, st, key⟩ := same
  dsimp only [stOf, HoldsPlace] at holds st key
  have outside : s.syn.st ≠ .str := by simp [st]
  have step := Scan.stepByte.eq_def s i c
  simp only [st] at step
  dsimp only [Rfc8259.stepByte]
  by_cases isU : c = 0x75
  · simp only [isU, if_true] at step ⊢
    rw [byteStep_of_taken outside step]
    exact ⟨rfl, rfl, holds.congr rfl rfl, rfl, key, rfl, Nat.zero_le _⟩
  · simp only [isU, if_false] at step ⊢
    rw [byteStep_of_taken outside step]
    by_cases escape : isEscape c = true
    · rw [if_pos escape, escape]
      exact ⟨rfl, rfl, holds.congr rfl rfl, rfl, key⟩
    · simp [escape, Simulates]

theorem hex_simulates
    {isKey : Bool} {seen : Nat} (same : Matches ⟨.hex isKey seen, stack⟩ s.syn)
    (i : Nat) (c : Byte) :
    Simulates (byteStep body s i c)
      (Rfc8259.stepByte Json.kMaxDepth (observe body) ⟨.hex isKey seen, stack⟩ i c
        s.marks) := by
  obtain ⟨holds, st, key, count, few⟩ := same
  dsimp only [stOf] at holds st key count few
  have outside : s.syn.st ≠ .str := by simp [st]
  have step := Scan.stepByte.eq_def s i c
  simp only [st, count] at step
  dsimp only [Rfc8259.stepByte]
  rw [byteStep_of_taken outside step]
  by_cases hex : isHex c = true
  · rw [if_pos hex, hex]
    by_cases last : seen = 3
    · rw [if_pos last]
      refine ⟨rfl, rfl, holds.congr rfl rfl, ?_, key⟩
      simp [last, stOf]
    · rw [if_neg last]
      refine ⟨rfl, rfl, holds.congr rfl rfl, ?_, key, rfl, by omega⟩
      simp [last, stOf]
  · simp [hex, Simulates]

variable (body) in
/-- One byte. -/
theorem byteStep_simulates
    {m : Machine} (same : Matches m s.syn) (i : Nat) (c : Byte) :
    Simulates (byteStep body s i c)
      (Rfc8259.stepByte Json.kMaxDepth (observe body) m i c s.marks) := by
  obtain ⟨place, stack⟩ := m
  have between : s.syn.st ∈ betweenTokens → Simulates (byteStep body s i c)
      (Rfc8259.stepBetween Json.kMaxDepth (observe body) ⟨place, stack⟩ i c
        s.marks) := by
    intro st
    obtain ⟨stepped, outside⟩ := byteStep_of_between st i c
    rw [byteStep_of_taken outside stepped]
    exact stepBetween_simulates same i c
  obtain ⟨holds, st, kept⟩ := id same
  dsimp only at holds st kept
  cases place with
  | chars isKey => exact chars_simulates same i c
  | lit l seen => exact lit_simulates same i c
  | value | key | colon => exact between (by rw [st]; simp [stOf, betweenTokens])
  | first kind =>
      cases kind <;> exact between (by rw [st]; simp [stOf, betweenTokens])
  | next =>
      rcases stack with _ | ⟨kind, outer⟩
      · exact between (by rw [st]; simp [stOf, betweenTokens])
      · cases kind <;> exact between (by rw [st]; simp [stOf, betweenTokens])
  | escape isKey => exact escape_simulates same i c
  | hex isKey seen => exact hex_simulates same i c
  | sign | zero | int | dot | frac | e | eSign | exp =>
      exact number_simulates same i c (by simp)

end Steps

/-! ## Runs -/

/-- The marks but for what is held back: at the end nothing is. -/
def Marks.unheld (m : Marks) : Marks :=
  { m with hold := sizeMax }

theorem Marks.valueDone_root (m : Marks) (stop : Nat) :
    (m.valueDone 0 stop).unheld = m.unheld := by
  simp only [Marks.valueDone, Marks.unheld]
  repeat' split
  all_goals simp_all

/-- The end of the body, against the end of the recogniser. -/
theorem endsNumber_simulates
    (body : Bytes) {m : Machine} {s : Scan} (same : Matches m s.syn) (i : Nat) :
    match stop (observe body) m i s.marks with
    | none => (endsNumber s).syn.st ≠ .end
    | some marks =>
        (endsNumber s).syn.st = .end ∧
          (endsNumber s).marks.unheld = marks.unheld := by
  obtain ⟨place, stack⟩ := m
  obtain ⟨holds, st, -⟩ := same
  have depth := holds.depth
  dsimp only at st depth
  cases stack with
  | nil =>
      cases place with
      | first kind =>
          cases kind <;> simp [stop, endsNumber, st, stOf]
      | next => simp [stop, endsNumber, st, stOf]
      | zero | int | frac | exp =>
          simp [stop, endsNumber, st, stOf, depth, observe, goto,
            Marks.valueDone_root]
      | _ => simp [stop, endsNumber, st, stOf]
  | cons kind outer =>
      have stopped : stop (observe body) ⟨place, kind :: outer⟩ i s.marks = none := by
        cases place <;> rfl
      have nested : endsNumber s = s := by simp [endsNumber, depth]
      rw [stopped, nested]
      dsimp only
      rw [st]
      cases place with
      | first inner => cases inner <;> simp [stOf]
      | next => cases kind <;> simp [stOf]
      | _ => simp [stOf]

/-- The run of the rest of a body against the recogniser's scan of it. -/
theorem run_simulates
    (body : Bytes) {m : Machine} {s : Scan} (same : Matches m s.syn) (i : Nat)
    (rest : Bytes) :
    match scan Json.kMaxDepth (observe body) m i s.marks rest with
    | none =>
        (run body s i rest).1 = false ∨
          (endsNumber (run body s i rest).2).syn.st ≠ .end
    | some marks =>
        (run body s i rest).1 = true ∧
          (endsNumber (run body s i rest).2).syn.st = .end ∧
          (endsNumber (run body s i rest).2).marks.unheld = marks.unheld := by
  induction rest generalizing m s i with
  | nil =>
      have ends := endsNumber_simulates body same i
      rw [scan]
      cases stopped : stop (observe body) m i s.marks with
      | none =>
          rw [stopped] at ends
          exact Or.inr ends
      | some marks =>
          rw [stopped] at ends
          exact ⟨rfl, ends⟩
  | cons c rest inductionHypothesis =>
      have stepped := byteStep_simulates body same i c
      rw [scan_cons, run_cons]
      cases next : Rfc8259.stepByte Json.kMaxDepth (observe body) m i c s.marks with
      | none =>
          rw [next] at stepped
          cases taken : byteStep body s i c with
          | mk ok s' =>
              rw [taken] at stepped
              dsimp only [Simulates] at stepped
              subst stepped
              exact Or.inl rfl
      | some found =>
          obtain ⟨m', marks⟩ := found
          rw [next] at stepped
          cases taken : byteStep body s i c with
          | mk ok s' =>
              rw [taken] at stepped
              obtain ⟨isTrue, marked, matched⟩ := stepped
              dsimp only at isTrue marked matched
              subst isTrue marked
              exact inductionHypothesis matched (i + 1)

theorem reset_matches (allKeys trackModel : Bool) (members : UInt8) :
    Matches ⟨.value, []⟩ (reset allKeys trackModel members).syn :=
  ⟨⟨rfl, by decide, by simp⟩, rfl, trivial⟩

/-- The scan of a body ends well when it has a tree whose showing is not
refused, and remembers what the showing leaves. -/
theorem outcome_eq_show
    (body : Bytes) (allKeys trackModel : Bool) (members : UInt8) :
    match (readText Json.kMaxDepth body).bind fun text =>
        showValue (observe body) 0 text.pre.bytes.length text.value
          (reset allKeys trackModel members).marks with
    | none =>
        (outcome body (reset allKeys trackModel members).toScan).1 = .refused
    | some marks =>
        (outcome body (reset allKeys trackModel members).toScan).1 = .done ∧
          (outcome body (reset allKeys trackModel members).toScan).2.marks.unheld =
            marks.unheld := by
  have simulated := run_simulates body
    (s := (reset allKeys trackModel members).toScan)
    (reset_matches allKeys trackModel members) 0 body
  rw [scan_text] at simulated
  rw [outcome]
  cases ran : run body (reset allKeys trackModel members).toScan 0 body with
  | mk ok s =>
      rw [ran] at simulated
      cases shown : (readText Json.kMaxDepth body).bind fun text =>
          showValue (observe body) 0 text.pre.bytes.length text.value
            (reset allKeys trackModel members).marks with
      | none =>
          rw [shown] at simulated
          cases ok with
          | false => rfl
          | true =>
              have notEnd : (endsNumber s).syn.st ≠ .end := by
                simpa using simulated
              simp [notEnd]
      | some marks =>
          rw [shown] at simulated
          obtain ⟨isTrue, ended, same⟩ := simulated
          dsimp only at isTrue ended same
          subst isTrue
          simp [ended, same]

end BodyScan
end Llmbridge
