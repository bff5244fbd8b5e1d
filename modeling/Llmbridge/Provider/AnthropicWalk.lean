import Llmbridge.Provider.TranslateRequest
import Llmbridge.Provider.ContentCorrect

/-!
# The turns of an Anthropic request

The walk over the messages writes one turn for each message that is no system
message, a run of tool messages making one turn together.  `AnthropicTurns` is
followed step by step: the turns written so far, and the results of a turn that is
still open.
-/

namespace Llmbridge
namespace Translate

open Rfc8259
open Json (Value View Spanned Writes Places Part Field IsObject IsArray IsString IsSpan
  moreParts writes_string writes_plain writes_span writes_array writes_members unescapeString)

/-! ## What the turns should say -/

/-- A turn of the output: the results of a run of tool messages, or one message. -/
inductive Group
  | results (ms : List Value)
  | message (m : Value)

/-- Results that come right before these groups. -/
def withResults (ms : List Value) : List Group → List Group
  | .results more :: groups => .results (ms ++ more) :: groups
  | groups => .results ms :: groups

/-- The role of a message. -/
def roleOf (m : Value) : Bytes :=
  (m.strOr (ascii "role")).bytes

/-- The messages of a conversation in turns. -/
def grouped : List Value → List Group
  | [] => []
  | m :: rest =>
      if roleOf m = ascii "tool" then withResults [m] (grouped rest)
      else .message m :: grouped rest

/-- The messages that are turns: not those of the system. -/
def turnMessages (msgs : List Value) : List Value :=
  msgs.filter fun m => !isSystemRole (roleOf m)

theorem withResults_append (ms more : List Value) (groups : List Group) :
    withResults ms (withResults more groups) = withResults (ms ++ more) groups := by
  cases groups with
  | nil => rfl
  | cons g groups => cases g <;> simp [withResults]

/-- The name a call asks for. -/
def callName (call : Value) : Bytes :=
  (call.find (ascii "function")).elim [] fun fn => (fn.strOr (ascii "name")).bytes

/-- The arguments of a call, raw. -/
def callArguments (call : Value) : Bytes :=
  (call.find (ascii "function")).elim [] fun fn => (fn.strOr (ascii "arguments")).bytes

/-- The calls that have a name. -/
def namedCalls (calls : List Value) : List Value :=
  calls.filter fun call => !(callName call).isEmpty

/-- What arguments decode to; nothing stands for no arguments. -/
def decodedArguments (raw : Bytes) : Bytes :=
  if (unescapeString raw).isEmpty then ascii "\x7b\x7d" else unescapeString raw

/-- The tree is an object, and with the whitespace that came with it is the decoded
arguments. -/
def ArgumentsOf (raw : Bytes) (tree : Rfc8259.Json) : Prop :=
  ∃ placed : Text, placed.value = tree ∧ tree.isObject = true ∧
    placed.render = decodedArguments raw

/-- The text of a `tool_use` block: the decoded arguments stand in it as they are. -/
def toolUseText (id name input : Bytes) : Bytes :=
  ascii "\x7b\"type\":\"tool_use\",\"id\":" ++ quoted id ++ ascii ",\"name\":" ++ quoted name ++
    ascii ",\"input\":" ++ input ++ ascii "\x7d"

/-- A `tool_use` block of a call. -/
structure ToolUseOf (call : Value) (tree : Rfc8259.Json) : Prop where
  text : tree.render = toolUseText (call.strOr (ascii "id")).bytes (callName call)
    (decodedArguments (callArguments call))
  fields : IsObject [(ascii "type", IsString (ascii "tool_use")),
    (ascii "id", IsString (call.strOr (ascii "id")).bytes),
    (ascii "name", IsString (callName call)),
    (ascii "input", ArgumentsOf (callArguments call))] tree

/-- A `tool_result` block of a message. -/
def ResultOf (m : Value) : Rfc8259.Json → Prop :=
  IsObject [(ascii "type", IsString (ascii "tool_result")),
    (ascii "tool_use_id", IsString (m.strOr (ascii "tool_call_id")).bytes),
    (ascii "content", fun tree =>
      ∃ text, appendText (m.find (ascii "content")) = some text ∧ IsString text tree)]

/-- The blocks of a message with calls: its text, when it has one, and the named
calls. -/
def CallsOf (content : Option Value) (calls : List Value) (tree : Rfc8259.Json) : Prop :=
  ∃ text, appendText content = some text ∧
    IsArray ((if text.isEmpty then [] else [IsObject (textFields text [])]) ++
      (namedCalls calls).map ToolUseOf) tree

/-- The calls of a message, when it has any. -/
def callsOf (m : Value) : Option (List Value) :=
  ((m.find (ascii "tool_calls")).filter fun calls =>
    calls.type = .array && !calls.arr.isEmpty).map Value.arr

/-- The content of a message's turn. -/
def TurnContent (m : Value) (tree : Rfc8259.Json) : Prop :=
  match callsOf m with
  | some calls =>
      if roleOf m = ascii "assistant" then CallsOf (m.find (ascii "content")) calls tree
      else ContentOf (m.find (ascii "content")) tree
  | none => ContentOf (m.find (ascii "content")) tree

/-- A turn of the output. -/
def TurnOf : Group → Rfc8259.Json → Prop
  | .results ms =>
      IsObject [(ascii "role", IsString (ascii "user")),
        (ascii "content", IsArray (ms.map ResultOf))]
  | .message m =>
      IsObject [(ascii "role", IsString (roleOf m)), (ascii "content", TurnContent m)]

/-! ## The blocks -/

/-- Decoded arguments are one object with whitespace around it, or nothing is
written. -/
theorem places_arguments {raw : Bytes} :
    ∀ input ∈ appendArguments raw,
      input = decodedArguments raw ∧ Places input (ArgumentsOf raw) := by
  intro input written
  rw [Option.mem_def, appendArguments] at written
  by_cases empty : (unescapeString raw).isEmpty = true
  · have decoded : decodedArguments raw = ascii "\x7b\x7d" := by rw [decodedArguments, if_pos empty]
    rw [if_pos empty, Option.some.injEq] at written
    subst written
    refine ⟨decoded.symm, (Rfc8259.Json.empty .object Ws.nil).bare, rfl, trivial, ?_⟩
    exact ⟨_, rfl, rfl, by rw [decoded]; rfl⟩
  · have decoded : decodedArguments raw = unescapeString raw := by
      rw [decodedArguments, if_neg empty]
    rw [if_neg empty] at written
    dsimp only at written
    split at written
    · rename_i accepted
      rw [Option.some.injEq] at written
      subst written
      obtain ⟨ok, isObject⟩ := accepted
      obtain ⟨text, split, isDocument⟩ := (Json.parse_ok_iff _ .unique).mp ok
      rw [Json.parse_value split ok] at isObject
      refine ⟨decoded.symm, text, split, isDocument.keys rfl, text, rfl, ?_, ?_⟩
      · exact (Json.valueAt_type_object _ _).mp isObject
      · rw [decoded, split]
    · exact absurd written (by simp)

/-- The block of a named call. -/
theorem writes_toolUse {call : Value} (spanned : Spanned call) :
    ∀ block ∈ AnthropicTurns.toolUse call,
      (block = none ↔ callName call = []) ∧ ∀ text ∈ block, Writes text (ToolUseOf call) := by
  intro block written
  rw [Option.mem_def, AnthropicTurns.toolUse] at written
  cases found : call.find (ascii "function") with
  | none =>
      rw [found, Option.some.injEq] at written
      subst written
      simp [callName, found]
  | some fn =>
      have name : callName call = (fn.strOr (ascii "name")).bytes := by
        rw [callName, found]; rfl
      have arguments : callArguments call = (fn.strOr (ascii "arguments")).bytes := by
        rw [callArguments, found]; rfl
      rw [found] at written
      dsimp only at written
      rw [← name, ← arguments] at written
      split at written
      · rename_i empty
        rw [Option.some.injEq] at written
        subst written
        simpa using empty
      · rename_i nonempty
        obtain ⟨input, inputWritten, rfl⟩ := Option.map_eq_some_iff.mp written
        refine ⟨by simpa using nonempty, ?_⟩
        intro text here
        rw [Option.mem_some_iff] at here
        subst here
        obtain ⟨same, placed⟩ := places_arguments input inputWritten
        have object : Writes
            (toolUseText (call.strOr (ascii "id")).bytes (callName call) input) _ :=
          writes_members
            ⟨ascii "type", quoted (ascii "tool_use"), IsString (ascii "tool_use")⟩
            [⟨ascii "id", quoted (call.strOr (ascii "id")).bytes,
                IsString (call.strOr (ascii "id")).bytes⟩,
              ⟨ascii "name", quoted (callName call), IsString (callName call)⟩,
              ⟨ascii "input", input, ArgumentsOf (callArguments call)⟩] ?_ ?_ ?_
        · rw [← toolUseText]
          apply object.exact.mono
          intro tree meant
          exact ⟨by rw [meant.2, same], meant.1⟩
        · simp only [toolUseText, Json.objectText, Json.moreParts_cons, Json.moreParts_nil,
            List.append_assoc, List.cons_append, List.nil_append]
          rfl
        · simp only [List.forall_mem_cons]
          refine ⟨Part.ok (by decide) (writes_plain (by decide)).places,
            Part.ok (by decide) (writes_string (spanned.strOr _)).places,
            Part.ok (by decide) (writes_string ?_).places,
            Part.ok (by decide) placed, by simp⟩
          rw [name]
          exact (spanned.find found).strOr _
        · show [ascii "type", ascii "id", ascii "name", ascii "input"].Nodup
          decide

/-- The blocks of the calls, behind `any` or at the front. -/
theorem toolUses_eq {calls : List Value} {any : Bool} {blocks : Bytes}
    (spanned : ∀ call ∈ calls, Spanned call)
    (written : AnthropicTurns.toolUses calls any = some blocks) :
    ∃ texts : List Bytes,
      blocks = (if any then texts.flatMap fun text => 0x2c :: text else commaJoin texts) ∧
      List.Forall₂ Writes texts ((namedCalls calls).map ToolUseOf) := by
  induction calls generalizing any blocks with
  | nil =>
      rw [AnthropicTurns.toolUses, Option.some.injEq] at written
      subst written
      exact ⟨[], by cases any <;> rfl, List.Forall₂.nil⟩
  | cons call rest inductionHypothesis =>
      have spannedRest : ∀ c ∈ rest, Spanned c :=
        fun c member => spanned c (List.mem_cons_of_mem _ member)
      rw [AnthropicTurns.toolUses] at written
      cases used : AnthropicTurns.toolUse call with
      | none => simp [used] at written
      | some block =>
          obtain ⟨unnamed, writes⟩ :=
            writes_toolUse (spanned call (List.mem_cons_self ..)) block used
          rw [used] at written
          cases block with
          | none =>
              have empty := unnamed.mp rfl
              obtain ⟨texts, shape, related⟩ := inductionHypothesis spannedRest written
              exact ⟨texts, shape, by simpa [namedCalls, empty] using related⟩
          | some block =>
              have nonempty : callName call ≠ [] := fun empty =>
                Option.some_ne_none _ (unnamed.mpr empty)
              obtain ⟨more, moreWritten, rfl⟩ := Option.map_eq_some_iff.mp written
              obtain ⟨texts, shape, related⟩ := inductionHypothesis spannedRest moreWritten
              refine ⟨block :: texts, ?_, ?_⟩
              · rw [shape, commaJoin_cons]
                have comma : ascii "," = [0x2c] := rfl
                cases any <;> simp [comma]
              · have kept : namedCalls (call :: rest) = call :: namedCalls rest := by
                  simp [namedCalls, nonempty]
                rw [kept, List.map_cons]
                exact List.Forall₂.cons (writes block rfl) related

/-- The block of one tool message. -/
def resultText (m : Value) (text : Bytes) : Bytes :=
  ascii "\x7b\"type\":\"tool_result\",\"tool_use_id\":" ++
    quoted (m.strOr (ascii "tool_call_id")).bytes ++
    ascii ",\"content\":" ++ quoted text ++ ascii "\x7d"

theorem writes_result {m : Value} (spanned : Spanned m) {text : Bytes}
    (written : appendText (m.find (ascii "content")) = some text) :
    Writes (resultText m text) (ResultOf m) := by
  have chars := appendText_chars (spannedOption_find spanned _) text written
  refine writes_members
    ⟨ascii "type", quoted (ascii "tool_result"), IsString (ascii "tool_result")⟩
    [⟨ascii "tool_use_id", quoted (m.strOr (ascii "tool_call_id")).bytes,
        IsString (m.strOr (ascii "tool_call_id")).bytes⟩,
      ⟨ascii "content", quoted text, fun tree =>
        ∃ text, appendText (m.find (ascii "content")) = some text ∧ IsString text tree⟩] ?_ ?_ ?_
  · simp only [resultText, Json.objectText, Json.moreParts_cons, Json.moreParts_nil,
      List.append_assoc, List.cons_append, List.nil_append]
    rfl
  · simp only [List.forall_mem_cons]
    exact ⟨Part.ok (by decide) (writes_plain (by decide)).places,
      Part.ok (by decide) (writes_string (spanned.strOr _)).places,
      Part.ok (by decide) ((writes_string chars).mono fun _ string =>
        ⟨text, written, string⟩).places, by simp⟩
  · show [ascii "type", ascii "tool_use_id", ascii "content"].Nodup
    decide

/-- A turn is its role and its content. -/
theorem writes_turn
    {role content : Bytes} {means : Rfc8259.Json → Prop} (plain : role.all isPlain = true)
    (written : Writes content means) :
    Writes (ascii "\x7b\"role\":" ++ quoted role ++ ascii ",\"content\":" ++ content ++
      ascii "\x7d") (IsObject [(ascii "role", IsString role), (ascii "content", means)]) := by
  refine writes_members ⟨ascii "role", quoted role, IsString role⟩
    [⟨ascii "content", content, means⟩] ?_ ?_ ?_
  · simp only [Json.objectText, Json.moreParts_cons, Json.moreParts_nil, List.append_assoc,
      List.cons_append, List.nil_append]
    rfl
  · simp only [List.forall_mem_cons]
    exact ⟨Part.ok (by decide) (writes_plain plain).places, Part.ok (by decide) written.places,
      by simp⟩
  · show [ascii "role", ascii "content"].Nodup
    decide

/-! ## The walk -/

/-- The text of a turn of results that is still open. -/
def openResults (results : List Bytes) : Bytes :=
  ascii "\x7b\"role\":\"user\",\"content\":[" ++ commaJoin results

/-- What has been written: the turns that are done, and the results of one that is
still open. -/
structure Standing (t : AnthropicTurns) (done : List Bytes) (results : Option (List Bytes)) :
    Prop where
  out : t.out = commaJoin (done ++ (results.map openResults).toList)
  first : t.first = (done.isEmpty && results.isNone)
  inResults : t.inResults = results.isSome
  nonempty : results ≠ some []

/-- The turns with the open one closed. -/
def closedTurns (done : List Bytes) (results : Option (List Bytes)) : List Bytes :=
  done ++ (results.map fun rs => openResults rs ++ ascii "]\x7d").toList

theorem commaJoin_snoc (texts : List Bytes) (text : Bytes) :
    commaJoin texts ++ ((if texts.isEmpty then [] else ascii ",") ++ text) =
      commaJoin (texts ++ [text]) := by
  cases texts with
  | nil => rfl
  | cons first rest =>
      rw [commaJoin_append (by simp) (by simp)]
      rfl

theorem commaJoin_last (texts : List Bytes) (text more : Bytes) :
    commaJoin (texts ++ [text]) ++ more = commaJoin (texts ++ [text ++ more]) := by
  rw [← commaJoin_snoc, ← commaJoin_snoc]
  simp only [List.append_assoc]

namespace Standing

variable {t : AnthropicTurns} {done : List Bytes} {results : Option (List Bytes)}

/-- `close_results` ends an open turn. -/
theorem closeResults (standing : Standing t done results) :
    t.closeResults.out = commaJoin (closedTurns done results) := by
  rw [AnthropicTurns.closeResults, closedTurns]
  dsimp only
  rw [standing.out, standing.inResults]
  cases results with
  | none => simp
  | some rs => exact commaJoin_last done (openResults rs) _

/-- `open` ends an open turn and begins another. -/
theorem «open» (standing : Standing t done results) (head : Bytes) :
    (t.open head).out = commaJoin (closedTurns done results ++ [head]) ∧
      (t.open head).first = false ∧ (t.open head).inResults = false := by
  refine ⟨?_, rfl, rfl⟩
  have closed := standing.closeResults
  have first : t.closeResults.first = (closedTurns done results).isEmpty := by
    show t.first = _
    rw [standing.first, closedTurns]
    cases results <;> cases done <;> rfl
  rw [AnthropicTurns.open]
  dsimp only
  rw [closed, first, List.append_assoc, commaJoin_snoc]

/-- A whole turn written behind what stands. -/
theorem write (standing : Standing t done results) (head rest : Bytes) :
    Standing ((t.open head).write rest) (closedTurns done results ++ [head ++ rest]) none where
  out := by
    rw [AnthropicTurns.write, (standing.open head).1]
    simpa using commaJoin_last _ head rest
  first := by
    rw [AnthropicTurns.write, (standing.open head).2.1]
    simp
  inResults := (standing.open head).2.2
  nonempty := by simp

end Standing

/-- A message that is written as a turn of its own. -/
def WritesTurn (t' : AnthropicTurns) (m : Value) (done : List Bytes)
    (results : Option (List Bytes)) : Prop :=
  ∃ turn, Writes turn (TurnOf (.message m)) ∧
    Standing t' (closedTurns done results ++ [turn]) none

section Steps

variable {t t' : AnthropicTurns} {done : List Bytes} {results : Option (List Bytes)} {m : Value}

theorem turn_step
    (standing : Standing t done results) (spanned : Spanned m) {assistant : Bool}
    (role : roleOf m = if assistant then ascii "assistant" else ascii "user")
    (flat : ∀ tree, ContentOf (m.find (ascii "content")) tree → TurnContent m tree)
    (walked : t.turn assistant (m.find (ascii "content")) = some t') :
    WritesTurn t' m done results := by
  obtain ⟨text, written, rfl⟩ := Option.map_eq_some_iff.mp walked
  have content := (writes_content (spannedOption_find spanned _) text written).mono flat
  refine ⟨_, ?_, standing.write _ _⟩
  rw [TurnOf, role]
  cases assistant with
  | true =>
      convert @writes_turn (ascii "assistant") _ _ (by decide) content using 1
      · simp only [List.append_assoc]
        rfl
      · rfl
  | false =>
      convert @writes_turn (ascii "user") _ _ (by decide) content using 1
      · simp only [List.append_assoc]
        rfl
      · rfl

theorem toolCalls_step
    (standing : Standing t done results) (spanned : Spanned m)
    (role : roleOf m = ascii "assistant") {calls : Value}
    (found : m.find (ascii "tool_calls") = some calls) (given : callsOf m = some calls.arr)
    (walked : t.toolCalls (m.find (ascii "content")) calls = some t') :
    WritesTurn t' m done results := by
  rw [AnthropicTurns.toolCalls] at walked
  cases written : appendText (m.find (ascii "content")) with
  | none => simp [written] at walked
  | some text =>
      rw [written] at walked
      obtain ⟨blocks, used, rfl⟩ := Option.map_eq_some_iff.mp walked
      have spannedCalls : ∀ call ∈ calls.arr, Spanned call :=
        fun call member => (spanned.find found).arr member
      have chars := appendText_chars (spannedOption_find spanned _) text written
      obtain ⟨texts, shape, related⟩ := toolUses_eq spannedCalls used
      have block := @writes_textFields text [] chars (by simp [cacheParts])
      have array : Writes
          (0x5b :: (((if text.isEmpty then []
            else ascii "\x7b\"type\":\"text\",\"text\":" ++ quoted text ++ ascii "\x7d") ++
              blocks) ++ [0x5d]))
          (CallsOf (m.find (ascii "content")) calls.arr) := by
        cases empty : text.isEmpty with
        | true =>
            rw [empty, Bool.not_true, if_neg (by simp)] at shape
            rw [shape]
            apply (writes_array related).mono
            intro tree isArray
            refine ⟨text, written, ?_⟩
            rw [empty]
            exact isArray
        | false =>
            rw [empty, Bool.not_false, if_pos rfl] at shape
            have all := writes_array (List.Forall₂.cons block related)
            rw [commaJoin_cons, ← shape] at all
            have same : ascii "\x7b\"type\":\"text\",\"text\":" ++ quoted text ++
                (if List.isEmpty ([] : Bytes) then [] else ascii ",\"cache_control\":" ++ []) ++
                ascii "\x7d" =
                ascii "\x7b\"type\":\"text\",\"text\":" ++ quoted text ++ ascii "\x7d" := by
              simp
            rw [same] at all
            apply all.mono
            intro tree isArray
            refine ⟨text, written, ?_⟩
            rw [empty]
            exact isArray
      refine ⟨_, ?_, standing.write _ _⟩
      have content : Writes _ (TurnContent m) := array.mono fun tree means => by
        rw [TurnContent, given]
        dsimp only
        rw [if_pos role]
        exact means
      have turn := @writes_turn (ascii "assistant") _ _ (by decide) content
      rw [TurnOf, role]
      convert turn using 1
      simp only [List.append_assoc, List.cons_append]
      rfl

theorem toolResult_step
    (standing : Standing t done results) (spanned : Spanned m)
    (walked : t.toolResult m (m.find (ascii "content")) = some t') :
    ∃ block, Writes block (ResultOf m) ∧
      Standing t' done (some (results.getD [] ++ [block])) := by
  obtain ⟨text, written, rfl⟩ := Option.map_eq_some_iff.mp walked
  refine ⟨resultText m text, writes_result spanned written, ?_, ?_, rfl, by simp⟩
  · have inResults := standing.inResults
    cases results with
    | none =>
        rw [inResults]
        dsimp only [Option.isSome]
        rw [if_neg (by simp), (standing.open _).1]
        simp only [closedTurns, Option.map_none, Option.toList_none, List.append_nil,
          Option.map_some, Option.toList_some, Option.getD_none, List.nil_append]
        exact commaJoin_last done _ _
    | some rs =>
        have nonempty : rs ≠ [] := fun none => standing.nonempty (by rw [none])
        rw [inResults]
        dsimp only [Option.isSome]
        rw [if_pos rfl, AnthropicTurns.write, standing.out]
        simp only [Option.map_some, Option.toList_some, Option.getD_some]
        rw [List.append_assoc, commaJoin_last]
        rw [openResults, openResults, commaJoin_append nonempty (by simp)]
        simp only [resultText, commaJoin, List.append_assoc]
        rfl
  · have inResults := standing.inResults
    cases results with
    | none =>
        rw [inResults]
        simp [(standing.open _).2.1]
    | some rs =>
        rw [inResults]
        simp [AnthropicTurns.write, standing.first]

/-- What one message does to the turns. -/
theorem walkMessage_step
    (standing : Standing t done results) (spanned : Spanned m)
    (walked : walkMessage AnthropicTurns.hooks t m = some t') :
    (isSystemRole (roleOf m) = true ∧ t' = t) ∨
      (isSystemRole (roleOf m) = false ∧ roleOf m = ascii "tool" ∧
        ∃ block, Writes block (ResultOf m) ∧
          Standing t' done (some (results.getD [] ++ [block]))) ∨
      (isSystemRole (roleOf m) = false ∧ roleOf m ≠ ascii "tool" ∧
        WritesTurn t' m done results) := by
  rw [walkMessage, ← roleOf] at walked
  by_cases system : isSystemRole (roleOf m) = true
  · rw [if_pos system] at walked
    exact Or.inl ⟨system, (Option.some.inj walked).symm⟩
  rw [if_neg system] at walked
  have notSystem : isSystemRole (roleOf m) = false := by simpa using system
  by_cases user : roleOf m = ascii "user"
  · rw [if_pos user] at walked
    refine Or.inr (Or.inr ⟨notSystem, by rw [user]; decide,
      turn_step standing spanned (by simpa using user) ?_ walked⟩)
    intro tree content
    rw [TurnContent]
    split
    · rw [if_neg (by rw [user]; decide)]
      exact content
    · exact content
  rw [if_neg user] at walked
  by_cases assistant : roleOf m = ascii "assistant"
  · rw [if_pos assistant] at walked
    refine Or.inr (Or.inr ⟨notSystem, by rw [assistant]; decide, ?_⟩)
    cases found : m.find (ascii "tool_calls") with
    | none =>
        rw [found] at walked
        refine turn_step standing spanned (by simpa using assistant) ?_ walked
        intro tree content
        rw [TurnContent, callsOf, found]
        exact content
    | some calls =>
        rw [found] at walked
        dsimp only at walked
        by_cases given : calls.type = .array ∧ calls.arr ≠ []
        · rw [if_pos given] at walked
          apply toolCalls_step standing spanned assistant found _ walked
          simp [callsOf, found, given.1, given.2]
        · rw [if_neg given] at walked
          refine turn_step standing spanned (by simpa using assistant) ?_ walked
          intro tree content
          have none : callsOf m = none := by
            rw [callsOf, found, Option.filter_some, if_neg]
            · rfl
            · simpa using given
          rw [TurnContent, none]
          exact content
  rw [if_neg assistant] at walked
  split at walked
  · rename_i tool
    exact Or.inr (Or.inl ⟨notSystem, tool, toolResult_step standing spanned walked⟩)
  · exact absurd walked (by simp)

end Steps

/-- The groups of what stands open and what follows. -/
def continued (open' : Option (List Value)) (groups : List Group) : List Group :=
  match open' with
  | none => groups
  | some ms => withResults ms groups

theorem continued_tool (running : Option (List Value)) {m : Value} {rest : List Value}
    (tool : roleOf m = ascii "tool") :
    continued running (grouped (m :: rest)) =
      continued (some (running.getD [] ++ [m])) (grouped rest) := by
  rw [grouped, if_pos tool]
  cases running with
  | none => rfl
  | some ms => exact withResults_append ms [m] _

theorem continued_message (running : Option (List Value)) {m : Value} {rest : List Value}
    (notTool : roleOf m ≠ ascii "tool") :
    continued running (grouped (m :: rest)) =
      (running.map Group.results).toList ++ .message m :: grouped rest := by
  rw [grouped, if_neg notTool]
  cases running <;> rfl

/-- An open turn of results, closed. -/
theorem writes_results {texts : List Bytes} {ms : List Value}
    (related : List.Forall₂ Writes texts (ms.map ResultOf)) :
    Writes (openResults texts ++ ascii "]\x7d") (TurnOf (.results ms)) := by
  convert @writes_turn (ascii "user") _ _ (by decide) (writes_array related) using 1
  · simp only [openResults, List.append_assoc, List.cons_append]
    rfl
  · rfl

/-- The walk writes one turn for each group of the messages. -/
theorem walkMessages_turns {msgs : List Value} (spanned : ∀ m ∈ msgs, Spanned m) :
    ∀ {t t' : AnthropicTurns} {done : List Bytes} {results : Option (List Bytes)}
      {running : Option (List Value)},
      Standing t done results →
      Option.Rel (fun texts ms => List.Forall₂ Writes texts (ms.map ResultOf)) results running →
      walkMessages AnthropicTurns.hooks t msgs = some t' →
      ∃ turns, t'.closeResults.out = commaJoin (done ++ turns) ∧
        List.Forall₂ Writes turns
          ((continued running (grouped (turnMessages msgs))).map TurnOf) := by
  induction msgs with
  | nil =>
      intro t t' done results running standing related walked
      rw [walkMessages, Option.some.injEq] at walked
      subst walked
      cases related with
      | none => exact ⟨[], standing.closeResults, List.Forall₂.nil⟩
      | @some texts ms results =>
          exact ⟨[openResults texts ++ ascii "]\x7d"], standing.closeResults,
            List.Forall₂.cons (writes_results results) List.Forall₂.nil⟩
  | cons m rest inductionHypothesis =>
      intro t t' done results running standing related walked
      have spannedRest : ∀ m ∈ rest, Spanned m :=
        fun w member => spanned w (List.mem_cons_of_mem _ member)
      rw [walkMessages] at walked
      cases next : walkMessage AnthropicTurns.hooks t m with
      | none => simp [next] at walked
      | some t₁ =>
          rw [next] at walked
          rcases walkMessage_step standing (spanned m (List.mem_cons_self ..)) next with
            ⟨system, same⟩ | ⟨notSystem, tool, block, writes, standingNext⟩ |
              ⟨notSystem, notTool, turn, writes, standingNext⟩
          · have kept : turnMessages (m :: rest) = turnMessages rest := by
              simp [turnMessages, system]
            rw [same] at walked
            rw [kept]
            exact inductionHypothesis spannedRest standing related walked
          · have kept : turnMessages (m :: rest) = m :: turnMessages rest := by
              simp [turnMessages, notSystem]
            rw [kept, continued_tool running tool]
            refine inductionHypothesis spannedRest standingNext (Option.Rel.some ?_) walked
            rw [List.map_append]
            cases related with
            | none => exact List.Forall₂.cons writes List.Forall₂.nil
            | some before =>
                exact List.rel_append before (List.Forall₂.cons writes List.Forall₂.nil)
          · have kept : turnMessages (m :: rest) = m :: turnMessages rest := by
              simp [turnMessages, notSystem]
            rw [kept, continued_message running notTool]
            obtain ⟨turns, written, after⟩ :=
              inductionHypothesis spannedRest standingNext Option.Rel.none walked
            refine ⟨(results.map fun rs => openResults rs ++ ascii "]\x7d").toList ++
              turn :: turns, ?_, ?_⟩
            · rw [written, closedTurns]
              simp only [List.append_assoc, List.singleton_append]
            · rw [List.map_append, List.map_cons]
              refine List.rel_append ?_ (List.Forall₂.cons writes after)
              cases related with
              | none => exact List.Forall₂.nil
              | some before =>
                  exact List.Forall₂.cons (writes_results before) List.Forall₂.nil

theorem standing_start : Standing {} [] none where
  out := rfl
  first := rfl
  inResults := rfl
  nonempty := by simp

/-- The turns of a conversation, as an array. -/
theorem writes_messages {msgs : List Value} {turns : AnthropicTurns}
    (spanned : ∀ m ∈ msgs, Spanned m)
    (walked : walkMessages AnthropicTurns.hooks {} msgs = some turns) :
    Writes (0x5b :: (turns.closeResults.out ++ [0x5d]))
      (IsArray ((grouped (turnMessages msgs)).map TurnOf)) := by
  obtain ⟨texts, written, related⟩ :=
    walkMessages_turns spanned standing_start Option.Rel.none walked
  rw [written]
  exact writes_array related

end Translate
end Llmbridge
