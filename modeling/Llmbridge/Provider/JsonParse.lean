import Llmbridge.Provider.JsonSkip

/-!
# `json::parse` decides its documents

Every function of the parser is compared with the reference reader on the same
bytes.  Where the reader finds nothing, or finds a value past one of the
parser's limits, the parser clears `ok` and never sets it again; where it finds
a value within them, the parser is in the one state that value leaves behind.
-/

namespace Llmbridge
namespace Json

open Rfc8259

namespace Parser

/-! ## A cleared `ok` stays cleared -/

/-- A round whose value failed leaves a failed loop. -/
theorem arrayLoop_failed
    {parse : Call Value} {mark rounds : Nat}
    (again : Sticky (arrayLoop parse mark rounds))
    {p : Parser} (failed : (parse p).2.ok = false) :
    (arrayLoop parse mark (rounds + 1) p).2.ok = false := by
  rw [arrayLoop]
  dsimp only
  split
  · rfl
  · split
    · exact again _ failed
    · split
      · exact failed
      · rfl

/-- A failed parser stays failed over the rest of an array. -/
theorem arrayLoop_sticky
    {parse : Call Value} (inner : Sticky parse) (mark rounds : Nat) :
    Sticky (arrayLoop parse mark rounds) := by
  induction rounds with
  | zero => exact fun p _ => rfl
  | succ rounds inductionHypothesis =>
      exact fun p failed =>
        arrayLoop_failed inductionHypothesis (inner p failed)

/-- And over an array. -/
theorem parseArray_sticky
    {parse : Call Value} (inner : Sticky parse) : Sticky (parseArray parse) := by
  intro p failed
  rw [parseArray]
  dsimp only
  split
  · exact failed
  · exact arrayLoop_sticky inner _ _ _ failed

/-- A round whose member failed leaves a failed loop. -/
theorem objectLoop_failed
    (mode : Keys) {member : Bytes → Call Value} {mark escapesBefore rounds : Nat}
    (again : Sticky (objectLoop mode member mark escapesBefore rounds))
    {p : Parser}
    (failed : (member p.ws.parseString.1.bytes
      (p.ws.parseString.2.ws.advance 1)).2.ok = false) :
    (objectLoop mode member mark escapesBefore (rounds + 1) p).2.ok = false := by
  rw [objectLoop]
  dsimp only
  split
  · rfl
  · split
    · split
      · split
        · exact again _ failed
        · split
          · exact closeKeys_sticky _ _ _ failed
          · rfl
      · rfl
    · rfl

/-- And over the rest of an object. -/
theorem objectLoop_sticky
    {mode : Keys} {member : Bytes → Call Value}
    (inner : ∀ key, Sticky (member key)) (mark escapesBefore rounds : Nat) :
    Sticky (objectLoop mode member mark escapesBefore rounds) := by
  induction rounds with
  | zero => exact fun p _ => rfl
  | succ rounds inductionHypothesis =>
      exact fun p failed => objectLoop_failed _ inductionHypothesis
        (inner _ _ (parseString_sticky p.ws failed))

/-- And over an object. -/
theorem parseObject_sticky
    {mode : Keys} {member : Bytes → Call Value}
    (inner : ∀ key, Sticky (member key)) : Sticky (parseObject mode member) := by
  intro p failed
  rw [parseObject]
  dsimp only
  split
  · exact failed
  · exact objectLoop_sticky inner _ _ _ _ failed

/-- And over an opaque value. -/
theorem parseOpaque_sticky
    {parse : Call Value} {skip : Parser → Parser} (inner : Sticky parse)
    (walk : SkipSticky skip) : Sticky (parseOpaque parse skip) := by
  intro p failed
  rw [parseOpaque]
  dsimp only
  split
  · exact inner _ failed
  · split
    · exact inner _ failed
    · exact walk _ failed

/-- And over any member. -/
theorem member_sticky
    {mode : Keys} {names : List Bytes} {levels : Nat} {parse : Call Value}
    (inner : Sticky parse) (key : Bytes) :
    Sticky (if names.contains key then parseOpaque parse (skipValue mode levels)
      else parse) := by
  split
  · exact parseOpaque_sticky inner (skipValue_sticky mode levels)
  · exact inner

/-- And over any value. -/
theorem parseValue_sticky (mode : Keys) (names : List Bytes) (levels : Nat) :
    Sticky (parseValue mode names levels) := by
  induction levels with
  | zero =>
      intro p failed
      rw [parseValue]
      dsimp only
      split
      · rfl
      · split
        · rfl
        · next c rest front =>
            split
            · exact parseString_sticky _ failed
            · split
              · split
                · rfl
                · rfl
              · exact parseValueScalar_sticky c _ failed
  | succ levels inductionHypothesis =>
      intro p failed
      rw [parseValue]
      dsimp only
      split
      · rfl
      · split
        · rfl
        · next c rest front =>
            split
            · exact parseString_sticky _ failed
            · split
              · split
                · rfl
                · split
                  · exact parseObject_sticky (member_sticky inductionHypothesis) _ failed
                  · exact parseArray_sticky inductionHypothesis _ failed
              · exact parseValueScalar_sticky c _ failed

/-! ## Values -/

/-- A value's call against the reader, `levels` containers deep: `ok` stays
set exactly on a value within the limits, and what `tree` makes of that value is
returned. -/
def ValueMeets (mode : Keys) (levels : Nat) (tree : Nat → Rfc8259.Json → Value)
    (parse : Call Value) : Prop :=
  ∀ p : Parser, p.ok = true → p.depth + levels = kMaxDepth →
    Meets (parse p) (readValue levels (readWs p.rest).2)
      (fun (value, _) => p.nodes + value.count ≤ kMaxNodes ∧
        (mode = .unique → UniqueKeys value))
      (fun (value, after) =>
        (tree (p.i + (readWs p.rest).1.bytes.length) value,
          p.moved after
            ((readWs p.rest).1.bytes.length + value.render.length)
            value.count (escapesIn value)))

/-- What is made of the value of a member with this key. -/
def memberAt (names : List Bytes) (key : Bytes) («at» : Nat) (value : Rfc8259.Json) :
    Value :=
  if names.contains key then (valueAt «at» value).leaf else opaqueAt names «at» value

/-- A value that is pushed does not change the whitespace behind it. -/
theorem pushValue_ws (p : Parser) (value : Value) :
    (p.pushValue value).ws = p.ws.pushValue value := rfl

/-- Nor the bytes. -/
theorem pushValue_advance (p : Parser) (value : Value) (n : Nat) :
    (p.pushValue value).advance n = (p.advance n).pushValue value := rfl

@[simp] theorem pushValue_rest (p : Parser) (value : Value) :
    (p.pushValue value).rest = p.rest := rfl

@[simp] theorem pushValue_vstack (p : Parser) (value : Value) :
    (p.pushValue value).vstack = p.vstack ++ [value] := rfl

/-- A member that is pushed does not change the whitespace behind it. -/
theorem pushMember_ws (p : Parser) (key : View) (value : Value) :
    (p.pushMember key value).ws = p.ws.pushMember key value := rfl

/-- Nor the bytes. -/
theorem pushMember_advance (p : Parser) (key : View) (value : Value) (n : Nat) :
    (p.pushMember key value).advance n = (p.advance n).pushMember key value := rfl

@[simp] theorem pushMember_rest (p : Parser) (key : View) (value : Value) :
    (p.pushMember key value).rest = p.rest := rfl

@[simp] theorem pushMember_mstack (p : Parser) (key : View) (value : Value) :
    (p.pushMember key value).mstack = p.mstack ++ [(key, value)] := rfl

section Loops

variable {mode : Keys} {levels : Nat} {parse : Call Value} {names : List Bytes}

section ArrayRound

variable {mark rounds : Nat} {p q : Parser} {value : Value} {after : Bytes}

/-- A value and a comma take the loop to its next round. -/
theorem arrayLoop_comma
    (nonempty : p.rest ≠ []) (parsed : parse p = (value, q))
    (tail : (readWs q.rest).2 = 0x2c :: after) :
    arrayLoop parse mark (rounds + 1) p =
      arrayLoop parse mark rounds
        ((q.moved after ((readWs q.rest).1.bytes.length + 1) 0 0).pushValue
          value) := by
  have comma : (q.pushValue value).ws.sees 0x2c := by
    simp [sees, ws_rest, tail]
  rw [arrayLoop, if_neg nonempty, parsed]
  dsimp only
  rw [if_pos comma, pushValue_ws, pushValue_advance, ws_advance_one tail]

/-- A value and a closing bracket end the loop. -/
theorem arrayLoop_close
    (nonempty : p.rest ≠ []) (parsed : parse p = (value, q))
    (tail : (readWs q.rest).2 = 0x5d :: after) :
    arrayLoop parse mark (rounds + 1) p =
      ((q.moved after ((readWs q.rest).1.bytes.length + 1) 0 0).pushValue
          value).commitValues mark := by
  have notComma : ¬ (q.pushValue value).ws.sees 0x2c := by
    simp [sees, ws_rest, tail]
  have close : (q.pushValue value).ws.sees 0x5d := by
    simp [sees, ws_rest, tail]
  rw [arrayLoop, if_neg nonempty, parsed]
  dsimp only
  rw [if_neg notComma, if_pos close, pushValue_ws, pushValue_advance,
    ws_advance_one tail]

/-- Anything else after a value fails the loop. -/
theorem arrayLoop_stuck
    (parsed : parse p = (value, q))
    (notComma : (readWs q.rest).2.head? ≠ some 0x2c)
    (notClose : (readWs q.rest).2.head? ≠ some 0x5d) :
    (arrayLoop parse mark (rounds + 1) p).2.ok = false := by
  have noComma : ¬ (q.pushValue value).ws.sees 0x2c := by
    simpa [sees, ws_rest] using notComma
  have noClose : ¬ (q.pushValue value).ws.sees 0x5d := by
    simpa [sees, ws_rest] using notClose
  rw [arrayLoop, parsed]
  dsimp only
  rw [if_neg noComma, if_neg noClose]
  split <;> rfl

end ArrayRound

/-- Whitespace skipped ahead of a value changes nothing: the value skips it
again. -/
theorem ValueMeets.of_ws
    {tree : Nat → Rfc8259.Json → Value} (inner : ValueMeets mode levels tree parse)
    {p start : Parser}
    (skipped : start = p ∨ start = p.ws) (ok : p.ok = true)
    (level : p.depth + levels = kMaxDepth) :
    Meets (parse start) (readValue levels (readWs p.rest).2)
      (fun (value, _) => p.nodes + value.count ≤ kMaxNodes ∧
        (mode = .unique → UniqueKeys value))
      (fun (value, after) =>
        (tree (p.i + (readWs p.rest).1.bytes.length) value,
          p.moved after
            ((readWs p.rest).1.bytes.length + value.render.length)
            value.count (escapesIn value))) := by
  rcases skipped with rfl | rfl
  · exact inner start ok level
  · have met := inner p.ws ok level
    rw [ws_eq_moved, moved_rest, readWs_readWs] at met
    rw [ws_eq_moved]
    simpa [moved_moved] using met

/-- The loop of `parse_array` against the reader of items, started with or
without the whitespace in front of the first value. -/
theorem arrayLoop_meets
    (inner : ValueMeets mode levels (opaqueAt names) parse) (sticky : Sticky parse)
    (mark rounds : Nat) {p start : Parser}
    (skipped : start = p ∨ start = p.ws) (ok : p.ok = true)
    (level : p.depth + levels = kMaxDepth) (marked : mark ≤ p.vstack.length) :
    Meets (arrayLoop parse mark rounds start)
      (readItems (readValue levels) .array rounds p.rest)
      (fun (items, _) => p.nodes + items.count ≤ kMaxNodes ∧
        (mode = .unique → UniqueKeysIn items))
      (fun (items, after) =>
        (p.vstack.drop mark ++ (opaqueEntries names p.i items).map fun entry => entry.2,
          { p.moved after (items.render.length + 1) items.count
              (escapesInItems items) with
            vstack := p.vstack.take mark })) := by
  induction rounds generalizing p start with
  | zero => rfl
  | succ rounds inductionHypothesis =>
      have met := inner.of_ws skipped ok level
      have loopFailed := arrayLoop_failed
        (arrayLoop_sticky sticky mark rounds) (p := start)
      cases valueRead : readValue levels (readWs p.rest).2 with
      | none =>
          rw [valueRead] at met
          simpa [readItems, readHead, valueRead] using loopFailed met
      | some found =>
          obtain ⟨value, s₂⟩ := found
          rw [valueRead] at met
          by_cases good : p.nodes + value.count ≤ kMaxNodes ∧
              (mode = .unique → UniqueKeys value)
          · have parsed := met.eq_of_good good
            have nonempty : start.rest ≠ [] := by
              intro empty
              rw [readWs_eq_nil skipped empty, readValue_nil] at valueRead
              simp at valueRead
            simp only [readItems, readHead, Option.bind_some, valueRead]
            cases tail : (readWs s₂).2 with
            | nil => exact arrayLoop_stuck parsed (by simp [tail]) (by simp [tail])
            | cons c s₃ =>
                by_cases comma : c = 0x2c
                · subst comma
                  rw [arrayLoop_comma nonempty parsed tail]
                  dsimp only
                  rw [if_pos rfl]
                  refine Meets.map
                    (inductionHypothesis (Or.inl rfl) ok level ?_) ?_ ?_
                  · simp only [pushValue_vstack, moved_vstack, List.length_append]
                    omega
                  · rintro ⟨items, after⟩
                    simp only [Items.count, UniqueKeysIn, pushValue, moved_nodes,
                      Nat.add_zero]
                    constructor
                    · rintro ⟨nodes, unique⟩
                      exact ⟨by omega, fun isUnique => (unique isUnique).2⟩
                    · rintro ⟨nodes, unique⟩
                      exact ⟨by omega, fun isUnique =>
                        ⟨good.2 isUnique, unique isUnique⟩⟩
                  · rintro ⟨items, after⟩
                    simp [pushValue, moved, opaqueEntries, isOpaque, Items.render, Items.count,
                      escapesInItems, headEscapes, Head.render,
                      List.drop_append_of_le_length marked,
                      List.take_append_of_le_length marked, Nat.add_assoc]
                    omega
                · by_cases close : c = Kind.closes .array
                  · subst close
                    rw [arrayLoop_close nonempty parsed tail]
                    dsimp only
                    rw [if_neg comma, if_pos rfl]
                    refine ⟨fun _ => ?_, fun bad => (bad ?_).elim⟩
                    · simp [commitValues, pushValue, moved, opaqueEntries, isOpaque, Items.render,
                        Items.count, escapesInItems, headEscapes, Head.render,
                        List.drop_append_of_le_length marked,
                        List.take_append_of_le_length marked, Nat.add_assoc]
                    · simpa only [Items.count, UniqueKeysIn] using good
                  · dsimp only
                    rw [if_neg comma, if_neg close]
                    exact arrayLoop_stuck parsed (by simpa [tail] using comma)
                      (by simpa [tail, Kind.closes] using close)
          · refine meets_of_failed (loopFailed (met.2 good)) ?_
            rintro ⟨items, after⟩ read ⟨nodes, unique⟩
            have first := readItems_first (by rfl) valueRead read
            exact good ⟨by omega, fun isUnique => first.2 (unique isUnique)⟩

/-- The keys of the members an object has so far. -/
def keysSince (mark : Nat) (p : Parser) : List Bytes :=
  (p.mstack.drop mark).map fun m => m.1.bytes

/-- The keys with that of one more member. -/
theorem keysSince_push
    {mark : Nat} {p : Parser} (marked : mark ≤ p.mstack.length)
    (head : Head .object) (value : Value) (after : Bytes)
    (bytes nodes escapes i : Nat) :
    keysSince mark ((p.moved after bytes nodes escapes).pushMember
      (headView i head) value) = keysSince mark p ++ [(Key.name head).bytes] := by
  simp [keysSince, List.drop_append_of_le_length marked, headView]

section ObjectRound

variable {member : Bytes → Call Value} {mark escapesBefore rounds : Nat}
  {p q r : Parser} {key : View} {value : Value} {after : Bytes}

/-- A round that finds no key and colon fails. -/
theorem objectLoop_noKey
    (notQuote : ¬ p.ws.sees 0x22) :
    (objectLoop mode member mark escapesBefore (rounds + 1) p).2.ok = false := by
  rw [objectLoop]
  dsimp only
  rw [if_neg notQuote]
  split <;> rfl

/-- A key without a colon fails. -/
theorem objectLoop_noColon
    (parsed : p.ws.parseString = (key, q))
    (notColon : ¬ q.ws.sees 0x3a) :
    (objectLoop mode member mark escapesBefore (rounds + 1) p).2.ok = false := by
  rw [objectLoop]
  dsimp only
  rw [parsed]
  dsimp only
  rw [if_neg notColon]
  split
  · rfl
  · split <;> rfl

/-- A key, a colon and a value were read. -/
structure ReadsMember (member : Bytes → Call Value) (p : Parser) (key : View)
    (q : Parser) (value : Value) (r : Parser) : Prop where
  quote : p.ws.sees 0x22
  keyRead : p.ws.parseString = (key, q)
  colon : q.ws.sees 0x3a
  valueRead : member key.bytes (q.ws.advance 1) = (value, r)

/-- A member is not nothing. -/
theorem ReadsMember.nonempty
    (read : ReadsMember member p key q value r) : p.rest ≠ [] := by
  intro empty
  have quote := read.quote
  rw [sees, ws_rest, empty, readWs_nil] at quote
  simp at quote

/-- A member and a comma take the loop to its next round. -/
theorem objectLoop_comma
    (read : ReadsMember member p key q value r)
    (tail : (readWs r.rest).2 = 0x2c :: after) :
    objectLoop mode member mark escapesBefore (rounds + 1) p =
      objectLoop mode member mark escapesBefore rounds
        ((r.moved after ((readWs r.rest).1.bytes.length + 1) 0 0).pushMember
          key value) := by
  have comma : (r.pushMember key value).ws.sees 0x2c := by
    simp [sees, ws_rest, tail]
  rw [objectLoop]
  dsimp only
  rw [if_neg read.nonempty, if_pos read.quote, read.keyRead]
  dsimp only
  rw [if_pos read.colon, read.valueRead]
  dsimp only
  rw [if_pos comma, pushMember_ws, pushMember_advance, ws_advance_one tail]

/-- A member and a closing brace end the loop with the check of the keys. -/
theorem objectLoop_close
    (read : ReadsMember member p key q value r)
    (tail : (readWs r.rest).2 = 0x7d :: after) :
    objectLoop mode member mark escapesBefore (rounds + 1) p =
      (((r.moved after ((readWs r.rest).1.bytes.length + 1) 0 0).pushMember
        key value).closeKeys mode
          (keysSince mark ((r.moved after ((readWs r.rest).1.bytes.length + 1) 0
            0).pushMember key value))
          escapesBefore).commitMembers mark := by
  have notComma : ¬ (r.pushMember key value).ws.sees 0x2c := by
    simp [sees, ws_rest, tail]
  have close : (r.pushMember key value).ws.sees 0x7d := by
    simp [sees, ws_rest, tail]
  rw [objectLoop]
  dsimp only
  rw [if_neg read.nonempty, if_pos read.quote, read.keyRead]
  dsimp only
  rw [if_pos read.colon, read.valueRead]
  dsimp only
  rw [if_neg notComma, if_pos close, pushMember_ws, pushMember_advance,
    ws_advance_one tail]
  rfl

/-- Anything else after a member fails the loop. -/
theorem objectLoop_stuck
    (read : ReadsMember member p key q value r)
    (notComma : (readWs r.rest).2.head? ≠ some 0x2c)
    (notClose : (readWs r.rest).2.head? ≠ some 0x7d) :
    (objectLoop mode member mark escapesBefore (rounds + 1) p).2.ok = false := by
  have noComma : ¬ (r.pushMember key value).ws.sees 0x2c := by
    simpa [sees, ws_rest] using notComma
  have noClose : ¬ (r.pushMember key value).ws.sees 0x7d := by
    simpa [sees, ws_rest] using notClose
  rw [objectLoop]
  dsimp only
  rw [if_neg read.nonempty, if_pos read.quote, read.keyRead]
  dsimp only
  rw [if_pos read.colon, read.valueRead]
  dsimp only
  rw [if_neg noComma, if_neg noClose]
  rfl

/-- Where the reader finds no key, the loop fails. -/
theorem objectLoop_noHead
    (sticky : ∀ key, Sticky (member key))
    (read : readHead .object p.rest = none) :
    (objectLoop mode member mark escapesBefore (rounds + 1) p).2.ok = false := by
  rcases readHead_none read with noQuote | noString | ⟨key, q, parsed, noColon⟩
  · exact objectLoop_noKey noQuote
  · exact objectLoop_failed _ (objectLoop_sticky sticky _ _ _) (sticky _ _ noString)
  · exact objectLoop_noColon parsed noColon

end ObjectRound

/-- The loop of `parse_object` against the reader of items. -/
theorem objectLoop_meets
    {member : Bytes → Call Value}
    (inner : ∀ key, ValueMeets mode levels (memberAt names key) (member key))
    (sticky : ∀ key, Sticky (member key)) {mark escapesBefore : Nat} (rounds : Nat)
    {p : Parser} (ok : p.ok = true) (level : p.depth + levels = kMaxDepth)
    (marked : mark ≤ p.mstack.length)
    (known : EscapesKnown (keysSince mark p) escapesBefore p.escapes) :
    Meets (objectLoop mode member mark escapesBefore rounds p)
      (readItems (readValue levels) .object rounds p.rest)
      (fun (items, _) => p.nodes + items.count ≤ kMaxNodes ∧
        (mode = .unique → UniqueKeysIn items ∧
          ((keysSince mark p).map unescapeString ++ itemNames items).Nodup))
      (fun (items, after) =>
        (p.mstack.drop mark ++ opaqueEntries names p.i items,
          { p.moved after (items.render.length + 1) items.count
              (escapesInItems items) with
            mstack := p.mstack.take mark })) := by
  induction rounds generalizing p with
  | zero => rfl
  | succ rounds inductionHypothesis =>
      cases headRead : readHead .object p.rest with
      | none =>
          simpa [readItems, headRead] using
            objectLoop_noHead sticky headRead
      | some found =>
          obtain ⟨head, s₁⟩ := found
          obtain ⟨quote, q, keyRead, colon, entered⟩ := readHead_object headRead
          have met := inner (Key.name head).bytes
            (p.moved s₁ head.render.length 0 (headEscapes head)) ok level
          have loopFailed := objectLoop_failed mode
            (objectLoop_sticky sticky mark escapesBefore rounds)
            (p := p)
          rw [keyRead] at loopFailed
          dsimp only at loopFailed
          rw [entered] at loopFailed
          rw [moved_rest] at met
          cases valueRead : readValue levels (readWs s₁).2 with
          | none =>
              rw [valueRead] at met
              simpa [readItems, headRead, valueRead] using loopFailed met
          | some found =>
              obtain ⟨value, s₂⟩ := found
              rw [valueRead] at met
              by_cases good : p.nodes + value.count ≤ kMaxNodes ∧
                  (mode = .unique → UniqueKeys value)
              · have parsed := met.eq_of_good good
                simp only [moved_moved, moved_i] at parsed
                have reads : ReadsMember member p _ q _ _ :=
                  ⟨quote, keyRead, colon, entered ▸ parsed⟩
                simp only [readItems, headRead, Option.bind_some, valueRead]
                cases tail : (readWs s₂).2 with
                | nil => exact objectLoop_stuck reads (by simp [tail]) (by simp [tail])
                | cons c s₃ =>
                    by_cases comma : c = 0x2c
                    · subst comma
                      rw [objectLoop_comma reads tail]
                      simp only [moved_moved, moved_rest, Nat.add_zero, if_true]
                      refine Meets.map (inductionHypothesis ok level ?_ ?_) ?_ ?_
                      · simp only [pushMember_mstack, moved_mstack, List.length_append]
                        omega
                      · rw [keysSince_push marked]
                        exact known.push head _
                      · rintro ⟨items, after⟩
                        simp only [keysSince_push marked, Items.count, List.map_append,
                          List.map_singleton, UniqueKeysIn, itemNames, headName,
                          List.append_assoc]
                        simp only [pushMember, moved_nodes]
                        constructor
                        · rintro ⟨nodes, unique⟩
                          exact ⟨by omega, fun isUnique =>
                            ⟨(unique isUnique).1.2, (unique isUnique).2⟩⟩
                        · rintro ⟨nodes, unique⟩
                          exact ⟨by omega, fun isUnique =>
                            ⟨⟨good.2 isUnique, (unique isUnique).1⟩,
                              (unique isUnique).2⟩⟩
                      · rintro ⟨items, after⟩
                        simp [pushMember, moved, opaqueEntries, isOpaque, memberAt, Items.render,
                          Items.count, escapesInItems,
                          List.drop_append_of_le_length marked,
                          List.take_append_of_le_length marked,
                          Nat.add_assoc]
                        omega
                    · by_cases close : c = Kind.closes .object
                      · subst close
                        rw [objectLoop_close reads tail]
                        simp only [moved_moved, moved_rest, Nat.add_zero, comma,
                          if_false, if_true]
                        have check := fun (value : Value) (bytes nodes escapes : Nat) =>
                          closeKeys_eq (p := (p.moved s₃ bytes nodes
                            (headEscapes head + escapes)).pushMember (headView p.i head)
                              value) mode
                            (keysSince_push marked head value s₃ bytes nodes
                              (headEscapes head + escapes) p.i ▸
                              known.push head escapes)
                        simp only [keysSince_push marked, List.map_append,
                          List.map_singleton] at check ⊢
                        refine ⟨fun allGood => ?_, fun bad => ?_⟩
                        · rw [(check _ _ _ _).1 fun isUnique => (allGood.2 isUnique).2]
                          simp [commitMembers, pushMember, moved, opaqueEntries, isOpaque, memberAt,
                            Items.render, Items.count, escapesInItems,
                            List.drop_append_of_le_length marked,
                            List.take_append_of_le_length marked,
                            Nat.add_assoc]
                        · rw [commitMembers_ok]
                          refine (check _ _ _ _).2 fun fresh => bad ⟨?_, fun isUnique => ?_⟩
                          · simpa only [Items.count] using good.1
                          · exact ⟨good.2 isUnique, fresh isUnique⟩
                      · dsimp only
                        rw [if_neg comma, if_neg close]
                        exact objectLoop_stuck reads (by simpa [tail] using comma)
                          (by simpa [tail, Kind.closes] using close)
              · refine meets_of_failed (loopFailed (met.2 good)) ?_
                rintro ⟨items, after⟩ read ⟨nodes, unique⟩
                have first := readItems_first headRead valueRead read
                exact good ⟨by omega, fun isUnique => first.2 (unique isUnique).1⟩

/-- The value of a container before its span is set. -/
def unspanned (value : Value) : Value :=
  { value with sv := {} }

/-- A container's call against the reader, past the count of the container
itself. -/
def ContainerMeets (mode : Keys) (names : List Bytes) (levels : Nat) (kind : Kind)
    (parse : Call Value) : Prop :=
  ∀ (p : Parser) (rest : Bytes), p.rest = kind.opens :: rest → p.ok = true →
    p.depth + levels = kMaxDepth → p.nodes ≤ kMaxNodes →
    Meets (parse p) (readContainer (readValue levels) kind rest)
      (fun (value, _) => p.nodes + (value.count - 1) ≤ kMaxNodes ∧
        (mode = .unique → UniqueKeys value))
      (fun (value, after) =>
        (unspanned (opaqueAt names p.i value),
          p.moved after value.render.length (value.count - 1)
            (escapesIn value)))

/-- An array that does not close fails. -/
theorem arrayLoop_nil
    {mark rounds : Nat} {p : Parser} (empty : p.rest = []) :
    (arrayLoop parse mark rounds p).2.ok = false := by
  cases rounds with
  | zero => rfl
  | succ rounds =>
      rw [arrayLoop, if_pos empty]
      rfl

/-- `parse_array` against the reader of containers. -/
theorem parseArray_meets
    (inner : ValueMeets mode levels (opaqueAt names) parse) (sticky : Sticky parse) :
    ContainerMeets mode names levels .array (parseArray parse) := by
  intro p rest opened ok level room
  have entered := advance_one opened
  rw [parseArray, readContainer]
  dsimp only
  rw [entered]
  have seen : ∀ c, ((p.moved rest 1 0 0).ws.sees c) ↔
      (readWs rest).2.head? = some c := by
    intro c
    rw [sees, ws_rest, moved_rest]
  simp only [seen]
  cases first : (readWs rest).2 with
  | nil =>
      have empty : (p.moved rest 1 0 0).ws.rest = [] := by
        rw [ws_rest, moved_rest, first]
      simpa using arrayLoop_nil empty
  | cons c tail =>
      by_cases close : c = Kind.closes .array
      · have closing := ws_advance_one (p := p.moved rest 1 0 0) first
        subst close
        simp only [List.head?_cons, Kind.closes, if_true, closing]
        refine ⟨fun _ => ?_, fun bad => (bad ?_).elim⟩
        · simp only [moved_moved, moved_rest, opaqueAt, valueAt, unspanned, containerType,
            Rfc8259.Json.render, Rfc8259.Json.count, escapesIn, Kind.closes,
            List.length_cons, List.length_append, List.length_nil]
          congr 2
          omega
        · exact ⟨room, fun _ => trivial⟩
      · have notClose : ¬ c = 0x5d := close
        simp only [List.head?_cons, Option.some.injEq, notClose, close, if_false]
        have met := arrayLoop_meets inner sticky p.vstack.length rest.length
          (p := p.moved rest 1 0 0) (Or.inr rfl) ok level
          (Nat.le_refl _)
        refine Meets.map
          (met.onValue fun arr => ({ type := .array, arr := arr } : Value)) ?_ ?_
        · rintro ⟨items, after⟩
          simp [Rfc8259.Json.count, UniqueKeys, itemNames_array]
        · rintro ⟨items, after⟩
          simp [opaqueAt, unspanned, moved, Rfc8259.Json.render,
            Rfc8259.Json.count, escapesIn]
          omega

/-- An object that does not close fails. -/
theorem objectLoop_nil
    {member : Bytes → Call Value} {mark escapesBefore rounds : Nat} {p : Parser}
    (empty : p.rest = []) :
    (objectLoop mode member mark escapesBefore rounds p).2.ok = false := by
  cases rounds with
  | zero => rfl
  | succ rounds =>
      rw [objectLoop, if_pos empty]
      rfl

/-- The loop skips the whitespace in front of the first key again. -/
theorem objectLoop_ws
    {member : Bytes → Call Value} {mark escapesBefore rounds : Nat} {p : Parser}
    (nonempty : p.ws.rest ≠ []) :
    objectLoop mode member mark escapesBefore (rounds + 1) p.ws =
      objectLoop mode member mark escapesBefore (rounds + 1) p := by
  have before : p.rest ≠ [] := by
    intro empty
    rw [ws_rest, empty, readWs_nil] at nonempty
    exact nonempty rfl
  rw [objectLoop, objectLoop, if_neg nonempty, if_neg before, ws_ws]

/-- `parse_object` against the reader of containers. -/
theorem parseObject_meets
    {member : Bytes → Call Value}
    (inner : ∀ key, ValueMeets mode levels (memberAt names key) (member key))
    (sticky : ∀ key, Sticky (member key)) :
    ContainerMeets mode names levels .object (parseObject mode member) := by
  intro p rest opened ok level room
  have entered := advance_one opened
  rw [parseObject, readContainer]
  dsimp only
  rw [entered]
  have seen : ∀ c, ((p.moved rest 1 0 0).ws.sees c) ↔
      (readWs rest).2.head? = some c := by
    intro c
    rw [sees, ws_rest, moved_rest]
  simp only [seen]
  cases first : (readWs rest).2 with
  | nil =>
      have empty : (p.moved rest 1 0 0).ws.rest = [] := by
        rw [ws_rest, moved_rest, first]
      simpa using objectLoop_nil empty
  | cons c tail =>
      by_cases close : c = Kind.closes .object
      · have closing := ws_advance_one (p := p.moved rest 1 0 0) first
        subst close
        simp only [List.head?_cons, Kind.closes, if_true, closing]
        refine ⟨fun _ => ?_, fun bad => (bad ?_).elim⟩
        · simp only [moved_moved, moved_rest, opaqueAt, valueAt, unspanned, containerType,
            Rfc8259.Json.render, Rfc8259.Json.count, escapesIn, Kind.closes,
            List.length_cons, List.length_append, List.length_nil]
          congr 2
          omega
        · exact ⟨room, fun _ => trivial⟩
      · have notClose : ¬ c = 0x7d := close
        simp only [List.head?_cons, Option.some.injEq, notClose, close, if_false]
        obtain ⟨rounds, size⟩ : ∃ rounds, rest.length = rounds + 1 := by
          cases rest with
          | nil => simp [readWs_nil] at first
          | cons c rest => exact ⟨rest.length, rfl⟩
        simp only [moved_rest, size]
        rw [objectLoop_ws (by rw [ws_rest, moved_rest, first]; simp)]
        have known : EscapesKnown (keysSince p.mstack.length (p.moved rest 1 0 0))
            p.escapes (p.moved rest 1 0 0).escapes := by
          rw [keysSince, moved_mstack, List.drop_length]
          exact EscapesKnown.nil p.escapes
        have met := objectLoop_meets inner sticky (rounds + 1)
          (p := p.moved rest 1 0 0) ok level
          (Nat.le_refl _) known
        refine Meets.map
          (met.onValue fun obj => ({ type := .object, obj := obj } : Value)) ?_ ?_
        · rintro ⟨items, after⟩
          simp [Rfc8259.Json.count, UniqueKeys, keysSince, and_comm]
        · rintro ⟨items, after⟩
          simp [opaqueAt, unspanned, moved, Rfc8259.Json.render,
            Rfc8259.Json.count, escapesIn]
          omega

end Loops

/-- A container read has the span its value is given. -/
theorem opaqueAt_of_readContainer
    {readV : Bytes → Option (Rfc8259.Json × Bytes)} {kind : Kind}
    {rest after : Bytes} {value : Rfc8259.Json}
    (read : readContainer readV kind rest = some (value, after)) (names : List Bytes)
    («at» : Nat) :
    { unspanned (opaqueAt names «at» value) with sv := ⟨«at», value.render⟩ } =
      opaqueAt names «at» value := by
  rw [readContainer] at read
  split at read
  · simp at read
  · split at read
    · simp only [Option.some.injEq, Prod.mk.injEq] at read
      obtain ⟨rfl, -⟩ := read
      simp [opaqueAt, valueAt, unspanned]
    · simp only [Option.map_eq_some_iff, Prod.mk.injEq, Prod.exists] at read
      obtain ⟨items, _, -, rfl, -⟩ := read
      cases kind <;> simp [opaqueAt, unspanned]

/-- `parse_value` on a container that may still open. -/
theorem parseValue_container
    {mode : Keys} {names : List Bytes} {levels : Nat} {kind : Kind} {parse : Call Value}
    {p : Parser} {rest : Bytes} (inner : ContainerMeets mode names levels kind parse)
    (opened : p.rest = kind.opens :: rest) (ok : p.ok = true)
    (level : p.depth + (levels + 1) = kMaxDepth) (room : p.nodes ≤ kMaxNodes) :
    Meets
      ({ (parse p.enter).1 with sv := (parse p.enter).2.leave.since p },
        (parse p.enter).2.leave)
      (readContainer (readValue levels) kind rest)
      (fun (value, _) => p.nodes + (value.count - 1) ≤ kMaxNodes ∧
        (mode = .unique → UniqueKeys value))
      (fun (value, after) =>
        (opaqueAt names p.i value,
          p.moved after value.render.length (value.count - 1)
            (escapesIn value))) := by
  have met := inner p.enter rest opened ok (by simp only [enter]; omega) room
  cases read : readContainer (readValue levels) kind rest with
  | none =>
      rw [read] at met
      exact met
  | some found =>
      obtain ⟨value, after⟩ := found
      rw [read] at met
      refine ⟨fun good => ?_, met.2⟩
      have parsed := met.eq_of_good good
      obtain ⟨split, -⟩ := readContainer_spec (readValue_readsFront levels) read
      have left : (p.enter.moved after value.render.length (value.count - 1)
          (escapesIn value)).leave =
          p.moved after value.render.length (value.count - 1)
            (escapesIn value) := rfl
      rw [parsed]
      dsimp only
      rw [left, @since_of_split _ _ value.render after
        (opened.trans split) rfl]
      exact congrArg (·, _) (opaqueAt_of_readContainer read names p.i)

/-- A container met past its own count, seen from before it. -/
theorem countedContainer_meets
    {mode : Keys} {names : List Bytes} {levels : Nat} {kind : Kind} {p : Parser} {w rest s : Bytes}
    {result : Value × Parser}
    (met : Meets result (readContainer (readValue levels) kind rest)
      (fun (value, _) =>
        (p.moved s w.length 1 0).nodes + (value.count - 1) ≤ kMaxNodes ∧
          (mode = .unique → UniqueKeys value))
      (fun (value, after) =>
        (opaqueAt names (p.moved s w.length 1 0).i value,
          (p.moved s w.length 1 0).moved after value.render.length
            (value.count - 1) (escapesIn value)))) :
    Meets result (readContainer (readValue levels) kind rest)
      (fun (value, _) => p.nodes + value.count ≤ kMaxNodes ∧
        (mode = .unique → UniqueKeys value))
      (fun (value, after) =>
        (opaqueAt names (p.i + w.length) value,
          p.moved after (w.length + value.render.length) value.count
            (escapesIn value))) := by
  have back : ∀ value : Rfc8259.Json, 1 + (value.count - 1) = value.count := by
    intro value
    have positive := count_pos value
    omega
  simpa only [moved_nodes, moved_i, moved_moved, Nat.add_assoc, back,
    Nat.zero_add] using met

/-- A scalar has no children to leave out. -/
theorem opaqueAt_scalar
    {c : Byte} {s after : Bytes} {value : Rfc8259.Json}
    (read : readScalar c s = some (value, after)) (names : List Bytes) («at» : Nat) :
    opaqueAt names «at» value = valueAt «at» value := by
  rw [readScalar] at read
  repeat' split at read
  all_goals
    simp only [Option.map_eq_some_iff, Prod.mk.injEq, Prod.exists] at read
  · obtain ⟨_, -, rfl, -⟩ := read
    rw [opaqueAt]
  · obtain ⟨_, -, rfl, -⟩ := read
    rw [opaqueAt]
  · obtain ⟨_, -, rfl, -⟩ := read
    rw [opaqueAt]
  · obtain ⟨_, _, -, rfl, -⟩ := read
    rw [opaqueAt]

/-- A value that opens no container has no children. -/
theorem leaf_of_readValue
    {levels : Nat} {c : Byte} {rest : Bytes} {found : Rfc8259.Json × Bytes}
    (read : readValue levels (c :: rest) = some found) (scalar : c ≠ 0x7b ∧ c ≠ 0x5b)
    (names : List Bytes) («at» : Nat) :
    opaqueAt names «at» found.1 = (valueAt «at» found.1).leaf := by
  obtain ⟨front, -⟩ := readValue_readsFront _ _ _ _ read
  match found.1, front with
  | .lit l, _ => cases l <;> simp [opaqueAt, valueAt, Value.leaf]
  | .number _, _ | .string _, _ => simp [opaqueAt, valueAt, Value.leaf]
  | .empty kind _, front | .full kind _, front =>
      rw [Rfc8259.Json.render, List.cons_append, List.cons.injEq] at front
      cases kind
      · exact absurd front.1 scalar.2
      · exact absurd front.1 scalar.1

/-- A container's value without its children is its type and its span. -/
theorem leaf_of_container
    {levels : Nat} (kind : Kind) {rest : Bytes} {found : Rfc8259.Json × Bytes}
    (read : readValue levels (kind.opens :: rest) = some found) («at» : Nat) :
    (valueAt «at» found.1).leaf =
      { type := containerType kind, sv := ⟨«at», found.1.render⟩ } := by
  cases levels with
  | zero =>
      rw [readValue_deep] at read
      simp at read
  | succ levels =>
      rw [readValue_container, readContainer] at read
      split at read
      · simp at read
      · split at read
        · rw [Option.some.injEq] at read
          simp [← read, valueAt, Value.leaf]
        · rw [Option.map_eq_some_iff] at read
          obtain ⟨items, -, read⟩ := read
          cases kind <;> simp [← read, valueAt, Value.leaf, containerType]

/-- A member's value, opaque or not. -/
theorem member_meets
    {mode : Keys} {names : List Bytes} {levels : Nat} {parse : Call Value}
    (inner : ValueMeets mode levels (opaqueAt names) parse) (key : Bytes) :
    ValueMeets mode levels (memberAt names key)
      (if names.contains key then parseOpaque parse (skipValue mode levels)
        else parse) := by
  intro p ok level
  cases opened : names.contains key with
  | false =>
      have same : memberAt names key = opaqueAt names := by
        funext «at» value
        rw [memberAt, opened]
        rfl
      rw [same]
      exact inner p ok level
  | true =>
      have same : memberAt names key = fun «at» value => (valueAt «at» value).leaf := by
        funext «at» value
        rw [memberAt, opened]
        rfl
      rw [same, if_pos rfl, parseOpaque]
      dsimp only
      have met := inner.of_ws (Or.inr rfl) ok level
      have skipped := (skipValue_meets mode levels).of_ws (Or.inr rfl) ok level
      cases front : (readWs p.rest).2 with
      | nil =>
          rw [front, readValue_nil] at met
          rw [ws_rest, front, readValue_nil]
          exact met
      | cons c rest =>
          rw [front] at met skipped
          rw [ws_rest, front]
          dsimp only
          by_cases scalar : c ≠ 0x7b ∧ c ≠ 0x5b
          · rw [if_pos scalar]
            cases read : readValue levels (c :: rest) with
            | none =>
                rw [read] at met
                exact met
            | some found =>
                rw [read] at met
                have bare := leaf_of_readValue read scalar
                exact ⟨fun good => by simp only [met.1 good, bare], met.2⟩
          · rw [if_neg scalar]
            cases read : readValue levels (c :: rest) with
            | none =>
                rw [read] at skipped
                exact skipped
            | some found =>
                rw [read] at skipped
                refine ⟨fun good => ?_, skipped.2⟩
                have passed := congrArg Prod.snd (skipped.1 good)
                dsimp only at passed
                obtain ⟨split, -⟩ := readValue_readsFront _ _ _ _ read
                have spanned : ∀ «at», (valueAt «at» found.1).leaf =
                    { type := if c = 0x7b then .object else .array,
                      sv := ⟨«at», found.1.render⟩ } := by
                  have container : c = 0x7b ∨ c = 0x5b := by
                    by_contra neither
                    exact scalar (not_or.mp neither)
                  rcases container with rfl | rfl
                  · exact leaf_of_container .object read
                  · exact leaf_of_container .array read
                have span := @since_of_split (skipValue mode levels p.ws) p.ws
                  found.1.render found.2 (by rw [ws_rest, front, split])
                  (by rw [passed, ws_eq_moved]; simp only [moved_i]; omega)
                rw [span, passed]
                simp only [spanned, ws_eq_moved, moved_i]

/-- `parse_value` against the reader. -/
theorem parseValue_meets (mode : Keys) (names : List Bytes) (levels : Nat) :
    ValueMeets mode levels (opaqueAt names) (parseValue mode names levels) := by
  induction levels using Nat.strong_induction_on with
  | _ levels inductionHypothesis =>
  intro p ok level
  rw [parseValue.eq_def]
  dsimp only
  by_cases full : kMaxNodes < p.countNode.nodes
  · rw [if_pos full]
    refine meets_of_failed rfl ?_
    rintro ⟨value, after⟩ - ⟨nodes, -⟩
    dsimp only at nodes
    have counted : p.countNode.nodes = p.nodes + 1 := rfl
    have positive := count_pos value
    omega
  · rw [if_neg full]
    have skipped : p.countNode.ws = p.moved (readWs p.rest).2
        (readWs p.rest).1.bytes.length 1 0 := by
      rw [countNode_eq_moved, ws_eq_moved, moved_rest, moved_moved]
      simp
    rw [skipped]
    cases front : (readWs p.rest).2 with
    | nil =>
        rw [readValue_nil]
        rfl
    | cons c rest =>
        have room : p.nodes + 1 ≤ kMaxNodes := Nat.not_lt.mp full
        simp only [moved_rest]
        by_cases quote : c = 0x22
        · subst quote
          rw [if_pos rfl, readValue_quote]
          have met := parseString_meets (p := p.moved (0x22 :: rest)
            (readWs p.rest).1.bytes.length 1 0) rfl
          refine Meets.map
            (met.onValue fun sv => ({ type := .string, sv := sv } : Value)) ?_ ?_
          · rintro ⟨chars, after⟩
            simpa [Rfc8259.Json.count, UniqueKeys] using room
          · rintro ⟨chars, after⟩
            simp [opaqueAt, valueAt, escapesIn, Rfc8259.Json.render, Rfc8259.Json.count,
              quoted]
        · rw [if_neg quote]
          by_cases container : c = 0x7b ∨ c = 0x5b
          · rw [if_pos container]
            cases levels with
            | zero =>
                have deep : kMaxDepth ≤ p.depth := by omega
                have unread : readValue 0 (c :: rest) = none := by
                  rcases container with rfl | rfl
                  · exact readValue_deep .object rest
                  · exact readValue_deep .array rest
                rw [unread]
                simp [deep]
            | succ levels =>
                have shallow : ¬ kMaxDepth ≤ p.depth := by omega
                have inner := inductionHypothesis levels (Nat.lt_succ_self levels)
                have sticky := parseValue_sticky mode names levels
                simp only [moved_depth, shallow, if_false]
                rcases container with rfl | rfl
                · rw [show readValue (levels + 1) (0x7b :: rest) = _ from
                    readValue_container levels .object rest]
                  simp only [if_true]
                  exact countedContainer_meets
                    (parseValue_container (parseObject_meets (member_meets inner)
                      (member_sticky sticky)) rfl ok
                      level room)
                · rw [show readValue (levels + 1) (0x5b :: rest) = _ from
                    readValue_container levels .array rest]
                  have notObject : ¬ (0x5b : Byte) = 0x7b := by decide
                  simp only [notObject, if_false]
                  exact countedContainer_meets
                    (parseValue_container (parseArray_meets inner sticky) rfl ok
                      level room)
          · rw [if_neg container, readValue_scalar levels rest quote container]
            have met := parseValueScalar_meets c (p := p.moved (c :: rest)
              (readWs p.rest).1.bytes.length 1 0) rfl
            rw [moved_rest] at met
            cases read : readScalar c (c :: rest) with
            | none => simpa [read] using met
            | some found =>
                obtain ⟨value, after⟩ := found
                obtain ⟨count, escapes, unique⟩ := scalar_of_readScalar read
                rw [read] at met
                refine ⟨fun _ => ?_, fun bad => (bad ?_).elim⟩
                · rw [met.eq_of_good trivial]
                  simp [count, escapes, opaqueAt_scalar read]
                · exact ⟨by simpa [count] using room, fun _ => unique⟩

end Parser

/-! ## Documents -/

/-- A call that failed fails the whole parse. -/
theorem parse_failed
    {s : Bytes} {mode : Keys} {names : List Bytes}
    (failed : (Parser.parseValue mode names kMaxDepth { rest := s }).2.ok = false) :
    (parse s mode names).2 = false := by
  rw [parse]
  dsimp only
  rw [Parser.ws_ok, failed, Bool.false_and]

/-- `parse` after its value was read: it accepts when only whitespace is
left. -/
theorem parse_of_value
    {s after : Bytes} {mode : Keys} {names : List Bytes} {value : Rfc8259.Json}
    (split : s = (readWs s).1.bytes ++ (value.render ++ after))
    (parsed : Parser.parseValue mode names kMaxDepth { rest := s } =
      (opaqueAt names (readWs s).1.bytes.length value,
        Parser.moved { rest := s } after
          ((readWs s).1.bytes.length + value.render.length) value.count
          (escapesIn value))) :
    parse s mode names = (opaqueAt names (readWs s).1.bytes.length value,
      decide ((readWs after).2 = [])) := by
  have size := congrArg List.length split
  have last := congrArg List.length (readWs_split after)
  simp only [List.length_append] at size last
  rw [parse, parsed]
  dsimp only
  rw [Parser.ws_eq_moved, Parser.moved_moved]
  simp only [Parser.moved_ok, Parser.moved_i, Parser.moved_rest, Bool.true_and,
    Prod.mk.injEq, true_and]
  rw [Bool.eq_iff_iff, beq_iff_eq, decide_eq_true_iff,
    ← List.length_eq_zero_iff]
  omega

/-- `parse` against the reader of whole texts. -/
theorem parse_meets (s : Bytes) (mode : Keys) (names : List Bytes) :
    (∀ text, readText kMaxDepth s = some text → IsDocument mode text →
      parse s mode names = (opaqueAt names text.pre.bytes.length text.value, true)) ∧
    ((∀ text, readText kMaxDepth s = some text → ¬ IsDocument mode text) →
      (parse s mode names).2 = false) := by
  have met := Parser.parseValue_meets mode names kMaxDepth { rest := s } rfl
    (Nat.zero_add _)
  dsimp only at met
  cases valueRead : readValue kMaxDepth (readWs s).2 with
  | none =>
      rw [valueRead] at met
      have unread : readText kMaxDepth s = none := by simp [readText, valueRead]
      exact ⟨by simp [unread], fun _ => parse_failed met⟩
  | some found =>
      obtain ⟨value, after⟩ := found
      rw [valueRead] at met
      obtain ⟨front, depth⟩ := readValue_readsFront _ _ _ _ valueRead
      have split := readWs_split s
      rw [front] at split
      by_cases good : 0 + value.count ≤ kMaxNodes ∧
          (mode = .unique → UniqueKeys value)
      · have parsed := met.eq_of_good good
        simp only [Nat.zero_add] at parsed
        have result := parse_of_value split parsed
        by_cases ended : (readWs after).2 = []
        · have read : readText kMaxDepth s =
              some ⟨(readWs s).1, value, (readWs after).1⟩ := by
            simp [readText, valueRead, ended]
          refine ⟨?_, fun none => (none _ read ⟨depth, ?_, good.2⟩).elim⟩
          · intro text textRead _
            rw [read, Option.some.injEq] at textRead
            subst textRead
            rw [result]
            simp [ended]
          · simpa using good.1
        · have unread : readText kMaxDepth s = none := by
            simp [readText, valueRead, ended]
          exact ⟨by simp [unread], fun _ => by rw [result]; simp [ended]⟩
      · refine ⟨?_, fun _ => parse_failed (met.2 good)⟩
        intro text textRead document
        simp only [readText, valueRead, Option.bind_some] at textRead
        split at textRead
        · simp only [Option.some.injEq] at textRead
          subst textRead
          exact (good ⟨by simpa using document.nodes, document.keys⟩).elim
        · simp at textRead

/-- An accepted text is a document the reader finds. -/
theorem readText_of_parse
    {s : Bytes} {mode : Keys} {names : List Bytes} (ok : (parse s mode names).2 = true) :
    ∃ text, readText kMaxDepth s = some text ∧ IsDocument mode text := by
  by_contra none
  have failed := (parse_meets s mode names).2 fun text read document =>
    none ⟨text, read, document⟩
  simp [failed] at ok

/-- What is accepted does not depend on the opaque names. -/
theorem parse_opaque_ok_iff (s : Bytes) (mode : Keys) (names : List Bytes) :
    (parse s mode names).2 = true ↔
      ∃ text : Text, s = text.render ∧ IsDocument mode text := by
  constructor
  · intro ok
    obtain ⟨text, read, isDocument⟩ := readText_of_parse ok
    exact ⟨text, (readText_spec read).1, isDocument⟩
  · rintro ⟨text, rfl, isDocument⟩
    rw [(parse_meets text.render mode names).1 text
      (readText_render text isDocument.depth) isDocument]

/-- The value of an accepted text, its opaque members' children left out. -/
theorem parse_opaque_value
    {s : Bytes} {mode : Keys} {names : List Bytes} {text : Text} (split : s = text.render)
    (ok : (parse s mode names).2 = true) :
    (parse s mode names).1 =
      (valueAt text.pre.bytes.length text.value).erase names := by
  obtain ⟨found, read, isDocument⟩ := readText_of_parse ok
  have same : found = text :=
    Text.render_injective ((readText_spec read).1.symm.trans split)
  subst same
  rw [(parse_meets s mode names).1 found read isDocument, opaqueAt_eq_erase]

/-- The parser accepts exactly the documents. -/
theorem parse_ok_iff (s : Bytes) (mode : Keys) :
    (parse s mode).2 = true ↔
      ∃ text : Text, s = text.render ∧ IsDocument mode text :=
  parse_opaque_ok_iff s mode []

/-- It gives the value of the document's tree. -/
theorem parse_value
    {s : Bytes} {mode : Keys} {text : Text} (split : s = text.render)
    (ok : (parse s mode).2 = true) :
    (parse s mode).1 = valueAt text.pre.bytes.length text.value := by
  rw [parse_opaque_value split ok, ← opaqueAt_eq_erase, opaqueAt_nil]

/-- `json::parse` decides its documents, and on them builds the tree of the
grammar's derivation. -/
theorem parse_correct (s : Bytes) (mode : Keys) :
    ((parse s mode).2 = true ↔
      ∃ text : Text, s = text.render ∧ IsDocument mode text) ∧
    ∀ text : Text, s = text.render → (parse s mode).2 = true →
      (parse s mode).1 = valueAt text.pre.bytes.length text.value :=
  ⟨parse_ok_iff s mode, fun _ split ok => parse_value split ok⟩

/-- The parse with opaque members accepts what the plain parse accepts, and builds
its tree without those members' children. -/
theorem parse_opaque_correct (s : Bytes) (mode : Keys) (names : List Bytes) :
    (parse s mode names).2 = (parse s mode).2 ∧
      ((parse s mode).2 = true →
        (parse s mode names).1 = (parse s mode).1.erase names) := by
  have same : (parse s mode names).2 = true ↔ (parse s mode).2 = true :=
    (parse_opaque_ok_iff s mode names).trans (parse_ok_iff s mode).symm
  refine ⟨Bool.eq_iff_iff.mpr same, fun ok => ?_⟩
  obtain ⟨text, split, -⟩ := (parse_ok_iff s mode).mp ok
  rw [parse_opaque_value split (same.mpr ok), parse_value split ok]

end Json
end Llmbridge
