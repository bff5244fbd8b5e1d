import Llmbridge.Provider.JsonScalars

/-!
# The walk over opaque members

`skip_value` and its loops build nothing: they check the syntax, the depth, the
count of the values and the repeated keys of what they pass over.  They are
compared with the reference reader as the parser's own functions are, and leave
the parser where building the value would leave it.
-/

namespace Llmbridge
namespace Json

open Rfc8259

namespace Parser

/-! ## A cleared `ok` stays cleared -/

/-- A walk never sets `ok` again. -/
def SkipSticky (skip : Parser → Parser) : Prop :=
  ∀ p : Parser, p.ok = false → (skip p).ok = false

@[simp] theorem dropKeys_ok (p : Parser) (mark : Nat) : (p.dropKeys mark).ok = p.ok := rfl

@[simp] theorem pushKey_ok (p : Parser) (key : View) : (p.pushKey key).ok = p.ok := rfl

theorem closeKeys_sticky
    (mode : Keys) (keys : List Bytes) (escapesBefore : Nat)
    {p : Parser} (failed : p.ok = false) :
    (p.closeKeys mode keys escapesBefore).ok = false := by
  rw [closeKeys]
  split
  · rfl
  · exact failed

/-- A round whose value failed leaves a failed loop. -/
theorem skipArrayLoop_failed
    {skip : Parser → Parser} {rounds : Nat}
    (again : SkipSticky (skipArrayLoop skip rounds)) {p : Parser}
    (failed : (skip p).ok = false) : (skipArrayLoop skip (rounds + 1) p).ok = false := by
  rw [skipArrayLoop]
  dsimp only
  split
  · next cleared => exact cleared
  · split
    · exact again _ failed
    · split
      · exact failed
      · rfl

theorem skipArrayLoop_sticky
    {skip : Parser → Parser} (inner : SkipSticky skip) (rounds : Nat) :
    SkipSticky (skipArrayLoop skip rounds) := by
  induction rounds with
  | zero => exact fun p _ => rfl
  | succ rounds inductionHypothesis =>
      exact fun p failed => skipArrayLoop_failed inductionHypothesis (inner p failed)

theorem skipArray_sticky
    {skip : Parser → Parser} (inner : SkipSticky skip) : SkipSticky (skipArray skip) := by
  intro p failed
  rw [skipArray]
  split
  · exact failed
  · exact skipArrayLoop_sticky inner _ _ failed

/-- A round whose member failed leaves a failed loop. -/
theorem skipObjectLoop_failed
    (mode : Keys) {skip : Parser → Parser} {mark escapesBefore rounds : Nat}
    (again : SkipSticky (skipObjectLoop mode skip mark escapesBefore rounds))
    {p : Parser}
    (failed : (skip (((p.ws.parseString.2.pushKey p.ws.parseString.1).ws.advance 1))).ok =
      false) :
    (skipObjectLoop mode skip mark escapesBefore (rounds + 1) p).ok = false := by
  rw [skipObjectLoop]
  dsimp only
  split
  · rfl
  · split
    · split
      · split
        · exact again _ failed
        · split
          · exact closeKeys_sticky _ _ _ failed
          · rfl
      · rfl
    · rfl

theorem skipObjectLoop_sticky
    {mode : Keys} {skip : Parser → Parser} (inner : SkipSticky skip)
    (mark escapesBefore rounds : Nat) :
    SkipSticky (skipObjectLoop mode skip mark escapesBefore rounds) := by
  induction rounds with
  | zero => exact fun p _ => rfl
  | succ rounds inductionHypothesis =>
      exact fun p failed => skipObjectLoop_failed _ inductionHypothesis
        (inner _ (parseString_sticky p.ws failed))

theorem skipObject_sticky
    {mode : Keys} {skip : Parser → Parser} (inner : SkipSticky skip) :
    SkipSticky (skipObject mode skip) := by
  intro p failed
  rw [skipObject]
  split
  · exact failed
  · exact skipObjectLoop_sticky inner _ _ _ _ failed

theorem skipValue_sticky (mode : Keys) (levels : Nat) :
    SkipSticky (skipValue mode levels) := by
  induction levels with
  | zero =>
      intro p failed
      rw [skipValue]
      dsimp only
      split
      · rfl
      · split
        · rfl
        · next c rest front =>
            split
            · exact parseString_sticky _ failed
            · split
              · split <;> rfl
              · exact parseValueScalar_sticky c _ failed
  | succ levels inductionHypothesis =>
      intro p failed
      rw [skipValue]
      dsimp only
      split
      · rfl
      · split
        · rfl
        · next c rest front =>
            split
            · exact parseString_sticky _ failed
            · split
              · split
                · rfl
                · split
                  · exact skipObject_sticky inductionHypothesis _ failed
                  · exact skipArray_sticky inductionHypothesis _ failed
              · exact parseValueScalar_sticky c _ failed

/-! ## Arrays -/

/-- A walk against the reader, `levels` containers deep: `ok` stays set exactly on
a value within the limits, and the walk passes over it. -/
def SkipMeets (mode : Keys) (levels : Nat) (skip : Parser → Parser) : Prop :=
  ∀ p : Parser, p.ok = true → p.depth + levels = kMaxDepth →
    Meets ((), skip p) (readValue levels (readWs p.rest).2)
      (fun (value, _) => p.nodes + value.count ≤ kMaxNodes ∧
        (mode = .unique → UniqueKeys value))
      (fun (value, after) =>
        ((), p.moved after ((readWs p.rest).1.bytes.length + value.render.length)
          value.count (escapesIn value)))

section Loops

variable {mode : Keys} {levels : Nat} {skip : Parser → Parser}

/-- Whitespace skipped ahead of a value changes nothing. -/
theorem SkipMeets.of_ws
    (inner : SkipMeets mode levels skip) {p start : Parser}
    (skipped : start = p ∨ start = p.ws) (ok : p.ok = true)
    (level : p.depth + levels = kMaxDepth) :
    Meets ((), skip start) (readValue levels (readWs p.rest).2)
      (fun (value, _) => p.nodes + value.count ≤ kMaxNodes ∧
        (mode = .unique → UniqueKeys value))
      (fun (value, after) =>
        ((), p.moved after ((readWs p.rest).1.bytes.length + value.render.length)
          value.count (escapesIn value))) := by
  rcases skipped with rfl | rfl
  · exact inner start ok level
  · have met := inner p.ws ok level
    rw [ws_eq_moved, moved_rest, readWs_readWs] at met
    rw [ws_eq_moved]
    simpa [moved_moved] using met

section ArrayRound

variable {rounds : Nat} {p q : Parser} {after : Bytes}

/-- A value and a comma take the loop to its next round. -/
theorem skipArrayLoop_comma
    (ok : p.ok = true) (passed : skip p = q) (tail : (readWs q.rest).2 = 0x2c :: after) :
    skipArrayLoop skip (rounds + 1) p =
      skipArrayLoop skip rounds
        (q.moved after ((readWs q.rest).1.bytes.length + 1) 0 0) := by
  have comma : q.ws.sees 0x2c := by simp [sees, ws_rest, tail]
  rw [skipArrayLoop, if_neg (by simp [ok]), passed]
  dsimp only
  rw [if_pos comma, ws_advance_one tail]

/-- A value and a closing bracket end the loop. -/
theorem skipArrayLoop_close
    (ok : p.ok = true) (passed : skip p = q) (tail : (readWs q.rest).2 = 0x5d :: after) :
    skipArrayLoop skip (rounds + 1) p =
      q.moved after ((readWs q.rest).1.bytes.length + 1) 0 0 := by
  have notComma : ¬ q.ws.sees 0x2c := by simp [sees, ws_rest, tail]
  have close : q.ws.sees 0x5d := by simp [sees, ws_rest, tail]
  rw [skipArrayLoop, if_neg (by simp [ok]), passed]
  dsimp only
  rw [if_neg notComma, if_pos close, ws_advance_one tail]

/-- Anything else after a value fails the loop. -/
theorem skipArrayLoop_stuck
    (ok : p.ok = true) (passed : skip p = q)
    (notComma : (readWs q.rest).2.head? ≠ some 0x2c)
    (notClose : (readWs q.rest).2.head? ≠ some 0x5d) :
    (skipArrayLoop skip (rounds + 1) p).ok = false := by
  have noComma : ¬ q.ws.sees 0x2c := by simpa [sees, ws_rest] using notComma
  have noClose : ¬ q.ws.sees 0x5d := by simpa [sees, ws_rest] using notClose
  rw [skipArrayLoop, if_neg (by simp [ok]), passed]
  dsimp only
  rw [if_neg noComma, if_neg noClose]
  rfl

end ArrayRound

/-- The loop of `skip_array` against the reader of items. -/
theorem skipArrayLoop_meets
    (inner : SkipMeets mode levels skip) (sticky : SkipSticky skip)
    (rounds : Nat) {p start : Parser} (skipped : start = p ∨ start = p.ws)
    (ok : p.ok = true) (level : p.depth + levels = kMaxDepth) :
    Meets ((), skipArrayLoop skip rounds start)
      (readItems (readValue levels) .array rounds p.rest)
      (fun (items, _) => p.nodes + items.count ≤ kMaxNodes ∧
        (mode = .unique → UniqueKeysIn items))
      (fun (items, after) =>
        ((), p.moved after (items.render.length + 1) items.count
          (escapesInItems items))) := by
  induction rounds generalizing p start with
  | zero => rfl
  | succ rounds inductionHypothesis =>
      have met := inner.of_ws skipped ok level
      have startOk : start.ok = true := by
        rcases skipped with rfl | rfl <;> exact ok
      have loopFailed := skipArrayLoop_failed
        (skipArrayLoop_sticky sticky rounds) (p := start)
      cases valueRead : readValue levels (readWs p.rest).2 with
      | none =>
          rw [valueRead] at met
          simpa [readItems, readHead, valueRead] using loopFailed met
      | some found =>
          obtain ⟨value, s₂⟩ := found
          rw [valueRead] at met
          by_cases good : p.nodes + value.count ≤ kMaxNodes ∧
              (mode = .unique → UniqueKeys value)
          · have passed : skip start = _ := congrArg Prod.snd (met.eq_of_good good)
            simp only [readItems, readHead, Option.bind_some, valueRead]
            cases tail : (readWs s₂).2 with
            | nil =>
                exact skipArrayLoop_stuck startOk passed (by simp [tail]) (by simp [tail])
            | cons c s₃ =>
                by_cases comma : c = 0x2c
                · subst comma
                  rw [skipArrayLoop_comma startOk passed tail]
                  dsimp only
                  rw [if_pos rfl]
                  refine Meets.map (inductionHypothesis (Or.inl rfl) ok level) ?_ ?_
                  · rintro ⟨items, after⟩
                    simp only [Items.count, UniqueKeysIn, moved_nodes, Nat.add_zero]
                    constructor
                    · rintro ⟨nodes, unique⟩
                      exact ⟨by omega, fun isUnique => (unique isUnique).2⟩
                    · rintro ⟨nodes, unique⟩
                      exact ⟨by omega, fun isUnique =>
                        ⟨good.2 isUnique, unique isUnique⟩⟩
                  · rintro ⟨items, after⟩
                    simp [moved, Items.render, Items.count, escapesInItems, headEscapes,
                      Head.render, Nat.add_assoc]
                    omega
                · by_cases close : c = Kind.closes .array
                  · subst close
                    rw [skipArrayLoop_close startOk passed tail]
                    dsimp only
                    rw [if_neg comma, if_pos rfl]
                    refine ⟨fun _ => ?_, fun bad => (bad ?_).elim⟩
                    · simp [moved, Items.render, Items.count, escapesInItems, headEscapes,
                        Head.render, Nat.add_assoc]
                    · simpa only [Items.count, UniqueKeysIn] using good
                  · dsimp only
                    rw [if_neg comma, if_neg close]
                    exact skipArrayLoop_stuck startOk passed (by simpa [tail] using comma)
                      (by simpa [tail, Kind.closes] using close)
          · refine meets_of_failed (loopFailed (met.2 good)) ?_
            rintro ⟨items, after⟩ read ⟨nodes, unique⟩
            have first := readItems_first (by rfl) valueRead read
            exact good ⟨by omega, fun isUnique => first.2 (unique isUnique)⟩

/-! ## Objects -/

section ObjectRound

variable {mark escapesBefore rounds : Nat} {p q r : Parser} {key : View} {after : Bytes}

/-- A key and a colon were read, and a value passed over. -/
structure SkipsMember (skip : Parser → Parser) (p : Parser) (key : View)
    (q r : Parser) : Prop where
  ok : p.ok = true
  quote : p.ws.sees 0x22
  keyRead : p.ws.parseString = (key, q)
  colon : q.ws.sees 0x3a
  passed : skip ((q.ws.advance 1).pushKey key) = r

theorem pushKey_ws (p : Parser) (key : View) : (p.pushKey key).ws = p.ws.pushKey key := rfl

theorem pushKey_advance (p : Parser) (key : View) (n : Nat) :
    (p.pushKey key).advance n = (p.advance n).pushKey key := rfl

/-- A round through its value. -/
theorem SkipsMember.round (read : SkipsMember skip p key q r) :
    skipObjectLoop mode skip mark escapesBefore (rounds + 1) p =
      if r.ws.sees 0x2c then
        skipObjectLoop mode skip mark escapesBefore rounds (r.ws.advance 1)
      else if r.ws.sees 0x7d then
        ((r.ws.advance 1).closeKeys mode ((r.ws.advance 1).okeys.drop mark)
          escapesBefore).dropKeys mark
      else r.ws.fail.dropKeys mark := by
  rw [skipObjectLoop, if_neg (by simp [read.ok])]
  dsimp only
  rw [if_pos read.quote, read.keyRead]
  dsimp only
  have colon : (q.pushKey key).ws.sees 0x3a := read.colon
  rw [if_pos colon, pushKey_ws, pushKey_advance, read.passed]

/-- A round that finds no key and colon fails. -/
theorem skipObjectLoop_noHead
    (sticky : SkipSticky skip) (read : readHead .object p.rest = none) :
    (skipObjectLoop mode skip mark escapesBefore (rounds + 1) p).ok = false := by
  rcases readHead_none read with noQuote | noString | ⟨key, q, parsed, noColon⟩
  · rw [skipObjectLoop]
    dsimp only
    rw [if_neg noQuote]
    split <;> rfl
  · exact skipObjectLoop_failed _ (skipObjectLoop_sticky sticky _ _ _)
      (sticky _ noString)
  · have notColon : ¬ (q.pushKey key).ws.sees 0x3a := noColon
    rw [skipObjectLoop]
    dsimp only
    rw [parsed]
    dsimp only
    rw [if_neg notColon]
    split
    · rfl
    · split <;> rfl

end ObjectRound

/-- The loop of `skip_object` against the reader of items. -/
theorem skipObjectLoop_meets
    (inner : SkipMeets mode levels skip) (sticky : SkipSticky skip)
    {mark escapesBefore : Nat} (rounds : Nat) {p : Parser} (ok : p.ok = true)
    (level : p.depth + levels = kMaxDepth) (marked : mark ≤ p.okeys.length)
    (known : EscapesKnown (p.okeys.drop mark) escapesBefore p.escapes) :
    Meets ((), skipObjectLoop mode skip mark escapesBefore rounds p)
      (readItems (readValue levels) .object rounds p.rest)
      (fun (items, _) => p.nodes + items.count ≤ kMaxNodes ∧
        (mode = .unique → UniqueKeysIn items ∧
          ((p.okeys.drop mark).map unescapeString ++ itemNames items).Nodup))
      (fun (items, after) =>
        ((), { p.moved after (items.render.length + 1) items.count
            (escapesInItems items) with
          okeys := p.okeys.take mark })) := by
  induction rounds generalizing p with
  | zero => rfl
  | succ rounds inductionHypothesis =>
      cases headRead : readHead .object p.rest with
      | none =>
          simpa [readItems, headRead] using skipObjectLoop_noHead sticky headRead
      | some found =>
          obtain ⟨head, s₁⟩ := found
          obtain ⟨quote, q, keyRead, colon, entered⟩ := readHead_object headRead
          have met := inner ((p.moved s₁ head.render.length 0
            (headEscapes head)).pushKey (headView p.i head)) ok level
          have loopFailed := skipObjectLoop_failed mode
            (skipObjectLoop_sticky sticky mark escapesBefore rounds) (p := p)
          rw [keyRead] at loopFailed
          dsimp only at loopFailed
          rw [pushKey_ws, pushKey_advance, entered] at loopFailed
          have rest : ((p.moved s₁ head.render.length 0 (headEscapes head)).pushKey
              (headView p.i head)).rest = s₁ := rfl
          rw [rest] at met
          cases valueRead : readValue levels (readWs s₁).2 with
          | none =>
              rw [valueRead] at met
              simpa [readItems, headRead, valueRead] using loopFailed met
          | some found =>
              obtain ⟨value, s₂⟩ := found
              rw [valueRead] at met
              by_cases good : p.nodes + value.count ≤ kMaxNodes ∧
                  (mode = .unique → UniqueKeys value)
              · have passed := congrArg Prod.snd (met.eq_of_good good)
                dsimp only at passed
                have member : SkipsMember skip p (headView p.i head) q _ :=
                  ⟨ok, quote, keyRead, colon, entered ▸ passed⟩
                simp only [readItems, headRead, Option.bind_some, valueRead]
                rw [member.round, entered]
                have seen : ∀ (r : Parser) (c : Byte),
                    r.ws.sees c ↔ (readWs r.rest).2.head? = some c := by
                  intro r c
                  rw [sees, ws_rest]
                simp only [seen, moved_rest]
                have keys : ∀ (bytes nodes escapes : Nat) (after : Bytes),
                    (((p.moved s₁ head.render.length 0 (headEscapes head)).pushKey
                      (headView p.i head)).moved after bytes nodes escapes).okeys.drop
                        mark = p.okeys.drop mark ++ [(Key.name head).bytes] := by
                  intro bytes nodes escapes after
                  exact List.drop_append_of_le_length marked
                cases tail : (readWs s₂).2 with
                | nil => rfl
                | cons c s₃ =>
                    have stepped := fun bytes nodes escapes => ws_advance_one
                      (p := ((p.moved s₁ head.render.length 0 (headEscapes head)).pushKey
                        (headView p.i head)).moved s₂ bytes nodes escapes) tail
                    simp only [List.head?_cons, Option.some.injEq]
                    by_cases comma : c = 0x2c
                    · subst comma
                      rw [if_pos rfl, if_pos rfl, stepped, moved_moved]
                      refine Meets.map (inductionHypothesis ok level ?_ ?_) ?_ ?_
                      · simp only [pushKey, moved, List.length_append]
                        omega
                      · rw [keys]
                        simp only [pushKey, moved_escapes, Nat.add_assoc]
                        exact known.push head _
                      · rintro ⟨items, after⟩
                        rw [keys]
                        simp only [Items.count, List.map_append, List.map_singleton,
                          UniqueKeysIn, itemNames, headName, List.append_assoc]
                        simp only [pushKey, moved_nodes]
                        constructor
                        · rintro ⟨nodes, unique⟩
                          exact ⟨by omega, fun isUnique =>
                            ⟨(unique isUnique).1.2, (unique isUnique).2⟩⟩
                        · rintro ⟨nodes, unique⟩
                          exact ⟨by omega, fun isUnique =>
                            ⟨⟨good.2 isUnique, (unique isUnique).1⟩,
                              (unique isUnique).2⟩⟩
                      · rintro ⟨items, after⟩
                        simp [pushKey, moved, Items.render, Items.count, escapesInItems,
                          List.take_append_of_le_length marked, Nat.add_assoc]
                        omega
                    · by_cases close : c = 0x7d
                      · subst close
                        have check := fun bytes nodes escapes => closeKeys_eq
                          (p := (((p.moved s₁ head.render.length 0
                            (headEscapes head)).pushKey (headView p.i head)).moved s₃ bytes
                              nodes escapes)) mode
                            ((keys bytes nodes escapes s₃).symm ▸
                              (Nat.add_assoc _ _ _).symm ▸ known.push head escapes)
                        rw [if_neg comma, if_pos rfl, if_neg comma,
                          if_pos (show (0x7d : Byte) = Kind.closes .object from rfl), stepped,
                          moved_moved]
                        simp only [keys, List.map_append, List.map_singleton] at check ⊢
                        refine ⟨fun allGood => ?_, fun bad => ?_⟩
                        · rw [(check _ _ _).1 fun isUnique => (allGood.2 isUnique).2]
                          simp [dropKeys, pushKey, moved, Items.render, Items.count,
                            escapesInItems, List.take_append_of_le_length marked,
                            Nat.add_assoc]
                        · rw [dropKeys_ok]
                          refine (check _ _ _).2 fun fresh => bad ⟨?_, fun isUnique => ?_⟩
                          · simpa only [Items.count] using good.1
                          · exact ⟨good.2 isUnique, fresh isUnique⟩
                      · rw [if_neg comma, if_neg close, if_neg comma,
                          if_neg (show ¬ c = Kind.closes .object from close)]
                        rfl
              · refine meets_of_failed (loopFailed (met.2 good)) ?_
                rintro ⟨items, after⟩ read ⟨nodes, unique⟩
                have first := readItems_first headRead valueRead read
                exact good ⟨by omega, fun isUnique => first.2 (unique isUnique).1⟩

/-! ## Containers -/

/-- A container's walk against the reader, past the count of the container
itself. -/
def ContainerSkips (mode : Keys) (levels : Nat) (kind : Kind)
    (skip : Parser → Parser) : Prop :=
  ∀ (p : Parser) (rest : Bytes), p.rest = kind.opens :: rest → p.ok = true →
    p.depth + levels = kMaxDepth → p.nodes ≤ kMaxNodes →
    Meets ((), skip p) (readContainer (readValue levels) kind rest)
      (fun (value, _) => p.nodes + (value.count - 1) ≤ kMaxNodes ∧
        (mode = .unique → UniqueKeys value))
      (fun (value, after) =>
        ((), p.moved after value.render.length (value.count - 1) (escapesIn value)))

/-- A container with nothing in it is passed over. -/
theorem skips_empty
    (kind : Kind) {p : Parser} {rest tail : Bytes}
    (first : (readWs rest).2 = kind.closes :: tail) (room : p.nodes ≤ kMaxNodes) :
    Meets ((), (p.moved rest 1 0 0).ws.advance 1)
      (some (Rfc8259.Json.empty kind (readWs rest).1, tail))
      (fun (value, _) => p.nodes + (value.count - 1) ≤ kMaxNodes ∧
        (mode = .unique → UniqueKeys value))
      (fun (value, after) =>
        ((), p.moved after value.render.length (value.count - 1) (escapesIn value))) := by
  have closing := ws_advance_one (p := p.moved rest 1 0 0) first
  refine ⟨fun _ => ?_, fun bad => (bad ?_).elim⟩
  · rw [closing]
    simp only [moved_moved, moved_rest, Rfc8259.Json.render, Rfc8259.Json.count,
      escapesIn, List.length_cons, List.length_append, List.length_nil]
    congr 2
    omega
  · exact ⟨room, fun _ => trivial⟩

theorem skipArray_meets
    (inner : SkipMeets mode levels skip) (sticky : SkipSticky skip) :
    ContainerSkips mode levels .array (skipArray skip) := by
  intro p rest opened ok level room
  rw [skipArray, readContainer, advance_one opened]
  have seen : ∀ c, ((p.moved rest 1 0 0).ws.sees c) ↔
      (readWs rest).2.head? = some c := by
    intro c
    rw [sees, ws_rest, moved_rest]
  simp only [seen]
  have met := skipArrayLoop_meets inner sticky rest.length
    (p := p.moved rest 1 0 0) (Or.inr rfl) ok level
  cases first : (readWs rest).2 with
  | nil =>
      have nothing : readItems (readValue levels) .array rest.length rest = none := by
        cases rest.length <;> simp [readItems, readHead, first, readValue_nil]
      rw [moved_rest, nothing] at met
      exact met
  | cons c tail =>
      by_cases close : c = Kind.closes .array
      · subst close
        simp only [List.head?_cons, Kind.closes, if_true]
        exact skips_empty .array first room
      · have notClose : ¬ c = 0x5d := close
        simp only [List.head?_cons, Option.some.injEq, notClose, close, if_false]
        refine Meets.map met ?_ ?_
        · rintro ⟨items, after⟩
          simp [Rfc8259.Json.count, UniqueKeys, itemNames_array]
        · rintro ⟨items, after⟩
          simp [moved, Rfc8259.Json.render, Rfc8259.Json.count, escapesIn]
          omega

theorem skipObject_meets
    (inner : SkipMeets mode levels skip) (sticky : SkipSticky skip) :
    ContainerSkips mode levels .object (skipObject mode skip) := by
  intro p rest opened ok level room
  rw [skipObject, readContainer, advance_one opened]
  have seen : ∀ c, ((p.moved rest 1 0 0).ws.sees c) ↔
      (readWs rest).2.head? = some c := by
    intro c
    rw [sees, ws_rest, moved_rest]
  simp only [seen]
  obtain ⟨rounds, size⟩ | nothing : (∃ rounds, rest.length = rounds + 1) ∨ rest = [] := by
    cases rest with
    | nil => exact Or.inr rfl
    | cons c rest => exact Or.inl ⟨rest.length, rfl⟩
  swap
  · subst nothing
    simp [readWs_nil, skipObjectLoop]
  have known : EscapesKnown ((p.moved rest 1 0 0).okeys.drop p.okeys.length) p.escapes
      (p.moved rest 1 0 0).escapes := by
    rw [show (p.moved rest 1 0 0).okeys = p.okeys from rfl, List.drop_length]
    exact EscapesKnown.nil p.escapes
  have met := skipObjectLoop_meets inner sticky (rounds + 1)
    (p := p.moved rest 1 0 0) ok level (Nat.le_refl _) known
  have again : skipObjectLoop mode skip p.okeys.length p.escapes (rounds + 1)
      (p.moved rest 1 0 0).ws =
      skipObjectLoop mode skip p.okeys.length p.escapes (rounds + 1)
        (p.moved rest 1 0 0) := by
    have stillOk : ¬ p.ok = false := by simp [ok]
    rw [skipObjectLoop, if_neg (show ¬ (p.moved rest 1 0 0).ws.ok = false from stillOk),
      skipObjectLoop, if_neg (show ¬ (p.moved rest 1 0 0).ok = false from stillOk), ws_ws]
  rw [moved_okeys, ← again] at met
  simp only [moved_rest, size]
  cases first : (readWs rest).2 with
  | nil =>
      have nothing : readItems (readValue levels) .object (rounds + 1) rest = none := by
        simp [readItems, readHead, first]
      rw [moved_rest, nothing] at met
      exact met
  | cons c tail =>
      by_cases close : c = Kind.closes .object
      · subst close
        simp only [List.head?_cons, Kind.closes, if_true]
        exact skips_empty .object first room
      · have notClose : ¬ c = 0x7d := close
        simp only [List.head?_cons, Option.some.injEq, notClose, close, if_false]
        refine Meets.map met ?_ ?_
        · rintro ⟨items, after⟩
          simp [Rfc8259.Json.count, UniqueKeys, moved, and_comm]
        · rintro ⟨items, after⟩
          simp [moved, Rfc8259.Json.render, Rfc8259.Json.count, escapesIn]
          omega

end Loops

/-- A container that may still open, seen from before its count. -/
theorem countedContainer_skips
    {mode : Keys} {levels : Nat} {kind : Kind} {skip : Parser → Parser} {p : Parser}
    {w rest : Bytes} (inner : ContainerSkips mode levels kind skip) (ok : p.ok = true)
    (level : p.depth + (levels + 1) = kMaxDepth) (room : p.nodes + 1 ≤ kMaxNodes) :
    Meets ((), (skip (p.moved (kind.opens :: rest) w.length 1 0).enter).leave)
      (readContainer (readValue levels) kind rest)
      (fun (value, _) => p.nodes + value.count ≤ kMaxNodes ∧
        (mode = .unique → UniqueKeys value))
      (fun (value, after) =>
        ((), p.moved after (w.length + value.render.length) value.count
          (escapesIn value))) := by
  have met := inner (p.moved (kind.opens :: rest) w.length 1 0).enter rest rfl ok
    (by simp only [enter, moved_depth]; omega) room
  have back : ∀ value : Rfc8259.Json, 1 + (value.count - 1) = value.count := by
    intro value
    have positive := count_pos value
    omega
  cases read : readContainer (readValue levels) kind rest with
  | none =>
      rw [read] at met
      exact met
  | some found =>
      obtain ⟨value, after⟩ := found
      rw [read] at met
      have nodes : p.nodes + 1 + (value.count - 1) = p.nodes + value.count := by
        have := back value
        omega
      constructor
      · intro good
        have passed : skip (p.moved (kind.opens :: rest) w.length 1 0).enter = _ :=
          congrArg Prod.snd (met.eq_of_good (by
            simpa only [enter, moved_nodes, nodes] using good))
        rw [passed]
        simp only [enter, leave, moved, Nat.add_sub_cancel, Nat.add_assoc, Nat.zero_add,
          back]
      · intro bad
        refine met.2 fun good => bad ?_
        simpa only [enter, moved_nodes, nodes] using good

/-- `skip_value` against the reader. -/
theorem skipValue_meets (mode : Keys) (levels : Nat) :
    SkipMeets mode levels (skipValue mode levels) := by
  induction levels using Nat.strong_induction_on with
  | _ levels inductionHypothesis =>
  intro p ok level
  rw [skipValue.eq_def]
  dsimp only
  by_cases full : kMaxNodes < p.countNode.nodes
  · rw [if_pos full]
    refine meets_of_failed rfl ?_
    rintro ⟨value, after⟩ - ⟨nodes, -⟩
    dsimp only at nodes
    have counted : p.countNode.nodes = p.nodes + 1 := rfl
    have positive := count_pos value
    omega
  rw [if_neg full]
  have room : p.nodes + 1 ≤ kMaxNodes := Nat.not_lt.mp full
  have skipped : p.countNode.ws = p.moved (readWs p.rest).2
      (readWs p.rest).1.bytes.length 1 0 := by
    rw [countNode_eq_moved, ws_eq_moved, moved_rest, moved_moved]
    simp
  rw [skipped]
  cases front : (readWs p.rest).2 with
  | nil =>
      rw [readValue_nil]
      rfl
  | cons c rest =>
      simp only [moved_rest]
      by_cases quote : c = 0x22
      · subst quote
        rw [if_pos rfl, readValue_quote]
        have met := parseString_meets (p := p.moved (0x22 :: rest)
          (readWs p.rest).1.bytes.length 1 0) rfl
        refine Meets.map (met.onValue fun _ => ()) ?_ ?_
        · rintro ⟨chars, after⟩
          simpa [Rfc8259.Json.count, UniqueKeys] using room
        · rintro ⟨chars, after⟩
          simp [escapesIn, Rfc8259.Json.render, Rfc8259.Json.count, quoted]
      rw [if_neg quote]
      by_cases container : c = 0x7b ∨ c = 0x5b
      · rw [if_pos container]
        cases levels with
        | zero =>
            have deep : kMaxDepth ≤ p.depth := by omega
            have unread : readValue 0 (c :: rest) = none := by
              rcases container with rfl | rfl
              · exact readValue_deep .object rest
              · exact readValue_deep .array rest
            rw [unread]
            simp [deep]
        | succ levels =>
            have shallow : ¬ kMaxDepth ≤ p.depth := by omega
            have inner := inductionHypothesis levels (Nat.lt_succ_self levels)
            have sticky := skipValue_sticky mode levels
            simp only [moved_depth, shallow, if_false]
            rcases container with rfl | rfl
            · rw [show readValue (levels + 1) (0x7b :: rest) = _ from
                readValue_container levels .object rest]
              simp only [if_true]
              exact countedContainer_skips (skipObject_meets inner sticky) ok level room
            · rw [show readValue (levels + 1) (0x5b :: rest) = _ from
                readValue_container levels .array rest]
              have notObject : ¬ (0x5b : Byte) = 0x7b := by decide
              simp only [notObject, if_false]
              exact countedContainer_skips (skipArray_meets inner sticky) ok level room
      · rw [if_neg container, readValue_scalar levels rest quote container]
        have met := parseValueScalar_meets c (p := p.moved (c :: rest)
          (readWs p.rest).1.bytes.length 1 0) rfl
        rw [moved_rest] at met
        cases read : readScalar c (c :: rest) with
        | none => simpa [read] using met
        | some found =>
            obtain ⟨value, after⟩ := found
            obtain ⟨count, escapes, unique⟩ := scalar_of_readScalar read
            rw [read] at met
            refine ⟨fun _ => ?_, fun bad => (bad ?_).elim⟩
            · rw [met.eq_of_good trivial]
              simp [count, escapes]
            · exact ⟨by simpa [count] using room, fun _ => unique⟩

end Parser
end Json
end Llmbridge
