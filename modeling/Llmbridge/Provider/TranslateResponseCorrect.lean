import Llmbridge.Provider.JsonCount
import Llmbridge.Provider.JsonUnescape
import Llmbridge.Provider.JsonWriter
import Llmbridge.Provider.TranslateResponse
import Llmbridge.Rfc8259.Decimal

/-!
# Translated responses are well formed

A reply translated for the client is one object whose message, finish and counts are
written under OpenAI's names, whatever the venue put into its texts; and an error
becomes one object with one member.
-/

namespace Llmbridge
namespace Translate

open Rfc8259
open Json (Value View Spanned Writes Places Part Field IsObject IsArray IsString IsNumeral IsSpan
  moreParts writes_string writes_plain writes_number writes_lit writes_array writes_members
  unescapeString unescapeFrom hexQuad)
open OpenAi (Usage hexDigit sanitized)

/-! ## Escaped text -/

/-- A control byte is the code point of its escape. -/
theorem control_escape {c : Byte} (control : c < 0x20) :
    hexQuad 0x30 0x30 (hexDigit (c.toNat / 16 % 16)) (hexDigit (c.toNat % 16)) = some c.toNat ∧
      Json.utf8 c.toNat = [c] ∧
      isHex (hexDigit (c.toNat / 16 % 16)) = true ∧ isHex (hexDigit (c.toNat % 16)) = true := by
  have all : ∀ n < 32,
      hexQuad 0x30 0x30 (hexDigit (n / 16 % 16)) (hexDigit (n % 16)) = some n ∧
        Json.utf8 n = [n.toUInt8] ∧
        isHex (hexDigit (n / 16 % 16)) = true ∧ isHex (hexDigit (n % 16)) = true := by
    decide
  have small : c.toNat < 32 := UInt8.lt_iff_toNat_lt.mp control
  obtain ⟨quad, utf8, high, low⟩ := all c.toNat small
  exact ⟨quad, by rw [utf8]; simp, high, low⟩

/-- The bytes that stand for themselves between quotes. -/
theorem isPlain_of_unescaped {c : Byte} (quote : c ≠ 0x22) (slash : c ≠ 0x5c)
    (printable : ¬ c < 0x20) : isPlain c = true := by
  simp [isPlain, quote, slash, UInt8.not_lt.mp printable]

/-- An escaped byte stands in a string. -/
theorem escapedByte_chars (c : Byte) {rest : Bytes} (chars : IsChars rest) :
    IsChars (escapedByte c ++ rest) := by
  have escape : ∀ e : Byte, isEscape e = true → IsChars ([0x5c, e] ++ rest) :=
    fun e is => IsChars.escape e rest is chars
  unfold escapedByte
  split
  · exact escape 0x22 (by decide)
  rename_i quote
  split
  · exact escape 0x5c (by decide)
  rename_i slash
  split
  · exact escape 0x6e (by decide)
  split
  · exact escape 0x74 (by decide)
  split
  · exact escape 0x72 (by decide)
  split
  · exact escape 0x62 (by decide)
  split
  · exact escape 0x66 (by decide)
  split
  · rename_i control
    obtain ⟨-, -, high, low⟩ := control_escape control
    exact IsChars.unicode 0x30 0x30 _ _ rest (by decide) (by decide) high low chars
  · rename_i printable
    exact IsChars.plain c rest (isPlain_of_unescaped quote slash printable) chars

/-- It is unescaped to the byte. -/
theorem unescapeFrom_escapedByte (c : Byte) (rest : Bytes) :
    unescapeFrom 0 (escapedByte c ++ rest) = c :: unescapeFrom 0 rest := by
  unfold escapedByte
  split
  · rename_i same
    rw [same]; rfl
  rename_i quote
  split
  · rename_i same
    rw [same]; rfl
  rename_i slash
  split
  · rename_i same
    rw [same]; rfl
  split
  · rename_i same
    rw [same]; rfl
  split
  · rename_i same
    rw [same]; rfl
  split
  · rename_i same
    rw [same]; rfl
  split
  · rename_i same
    rw [same]; rfl
  split
  · rename_i control
    obtain ⟨quad, utf8, -, -⟩ := control_escape control
    have small : c.toNat < 32 := UInt8.lt_iff_toNat_lt.mp control
    have lone : Json.loneSurrogate c.toNat = c.toNat := if_neg (by omega)
    have taken : Json.unicodeEscape (0x30 :: 0x30 :: hexDigit (c.toNat / 16 % 16) ::
        hexDigit (c.toNat % 16) :: rest) = some ([c], 5) := by
      rw [Json.unicodeEscape, quad, Option.map_some]
      split
      · rw [if_neg (by omega), lone, utf8]
      · rw [lone, utf8]
    exact Json.unescapeFrom_unicode taken
  · show (if c ≠ 0x5c then _ else _) = _
    rw [if_pos slash]
    rfl

/-- Escaping any bytes gives string contents. -/
theorem flatMap_escapedByte_chars (raw : Bytes) : IsChars (raw.flatMap escapedByte) := by
  induction raw with
  | nil => exact IsChars.nil
  | cons c rest inductionHypothesis =>
      rw [List.flatMap_cons]
      exact escapedByte_chars c inductionHypothesis

/-- Unescaping takes every byte back. -/
theorem unescapeString_escaped (raw : Bytes) :
    unescapeString (raw.flatMap escapedByte) = raw := by
  unfold unescapeString
  induction raw with
  | nil => rfl
  | cons c rest inductionHypothesis =>
      rw [List.flatMap_cons, unescapeFrom_escapedByte, inductionHypothesis]

/-! ## Counts -/

/-- A written count is a number. -/
theorem decimal_isNumber (v : Int) : IsNumber (OpenAi.decimal v) := by
  unfold OpenAi.decimal
  split
  · exact minus_decimalDigits_isNumber v.natAbs
  · exact decimalDigits_isNumber v.natAbs

/-- A member that is a count. -/
def countPart (name : String) (v : Int) : Part :=
  ⟨ascii name, OpenAi.countText v, IsNumeral (OpenAi.countText v)⟩

/-- A count is a well formed member. -/
theorem countPart_ok {name : String} (plain : (ascii name).all isPlain = true) (v : Int) :
    (countPart name v).Ok :=
  Part.ok plain (writes_number (decimal_isNumber _)).places

/-- A member that is an object with one count. -/
def detailPart (name inner : String) (v : Int) : Part :=
  ⟨ascii name, ascii "\x7b\"" ++ ascii inner ++ ascii "\":" ++ OpenAi.countText v ++ ascii "\x7d",
    IsObject [(countPart inner v).field]⟩

/-- So is an object of one count. -/
theorem detailPart_ok {name inner : String} (plain : (ascii name).all isPlain = true)
    (plainInner : (ascii inner).all isPlain = true) (v : Int) : (detailPart name inner v).Ok := by
  apply Part.ok plain
  apply Writes.places
  refine writes_members (countPart inner v) [] ?_ ?_ ?_
  · simp only [Json.objectText, Json.moreParts_nil, countPart, quoted, List.append_assoc,
      List.cons_append, List.nil_append]
    rfl
  · intro p member
    rw [List.mem_singleton.mp member]
    exact countPart_ok plainInner v
  · exact List.nodup_singleton _

/-- The total that `close` writes. -/
def totalOf (u : Usage) (total : Int) : Int :=
  if total < 0 then (if u.input < 0 then 0 else u.input) + (if u.out < 0 then 0 else u.out)
  else total

/-- The members of a usage object behind the prompt's count. -/
def usageRest (u : Usage) (total : Int) : List Part :=
  [countPart "completion_tokens" u.out, countPart "total_tokens" (totalOf u total)] ++
    ((if 0 < u.cached then [detailPart "prompt_tokens_details" "cached_tokens" u.cached]
      else []) ++
    (if 0 ≤ u.reasoning then
      [detailPart "completion_tokens_details" "reasoning_tokens" u.reasoning]
    else []))

/-- The members of a usage object. -/
def usageParts (u : Usage) (total : Int) : List Part :=
  countPart "prompt_tokens" u.input :: usageRest u total

/-- The usage object, as text. -/
def usageObject (u : Usage) (total : Int) : Bytes :=
  Json.objectText (countPart "prompt_tokens" u.input) (usageRest u total)

/-- A count below zero is written as zero. -/
theorem countText_clamped (v : Int) :
    OpenAi.countText (if v < 0 then 0 else v) = OpenAi.countText v := by
  unfold OpenAi.countText
  split
  · rfl
  · rfl

/-- The usage is one object. -/
theorem usageText_eq (u : Usage) (total : Int) :
    OpenAi.Envelope.usageText u total =
      ascii ",\"usage\":" ++ usageObject u total ++ ascii "\x7d" := by
  rw [OpenAi.Envelope.usageText, usageObject, usageRest, totalOf]
  rw [countText_clamped, countText_clamped]
  by_cases cached : 0 < u.cached <;> by_cases reasoning : 0 ≤ u.reasoning <;>
    simp only [Json.objectText, Json.moreParts_cons, Json.moreParts_nil, countPart, detailPart,
      cached, reasoning, if_true, if_false, quoted, List.append_assoc, List.cons_append,
      List.nil_append] <;>
    rfl

/-- The names of a usage object, all written. -/
def usageNames : List Bytes :=
  [ascii "prompt_tokens", ascii "completion_tokens", ascii "total_tokens",
    ascii "prompt_tokens_details", ascii "completion_tokens_details"]

/-- The counts come in the order of their names. -/
theorem usageRest_names (u : Usage) (total : Int) :
    ((countPart "prompt_tokens" u.input :: usageRest u total).map Part.name).Sublist
      usageNames := by
  simp only [usageRest, List.map_cons, List.map_append, List.cons_append,
    List.nil_append]
  refine List.Sublist.cons_cons _ (List.Sublist.cons_cons _ (List.Sublist.cons_cons _ ?_))
  refine @List.Sublist.append _ _ [ascii "prompt_tokens_details"] _ _ ?_ ?_
  · split
    · exact List.Sublist.refl _
    · exact List.nil_sublist _
  · split
    · exact List.Sublist.refl _
    · exact List.nil_sublist _

/-- The usage writes its counts. -/
theorem writes_usage (u : Usage) (total : Int) :
    Writes (usageObject u total) (IsObject ((usageParts u total).map Part.field)) := by
  refine writes_members (countPart "prompt_tokens" u.input) (usageRest u total) rfl ?_ ?_
  · simp only [usageRest, List.forall_mem_cons, List.forall_mem_append]
    refine ⟨countPart_ok (by decide) _, ⟨countPart_ok (by decide) _, countPart_ok (by decide) _,
      by simp⟩, ?_, ?_⟩
    · intro p member
      split at member
      · rw [List.mem_singleton.mp member]
        exact detailPart_ok (by decide) (by decide) _
      · exact absurd member (by simp)
    · intro p member
      split at member
      · rw [List.mem_singleton.mp member]
        exact detailPart_ok (by decide) (by decide) _
      · exact absurd member (by simp)
  · refine List.Nodup.sublist (usageRest_names u total) ?_
    decide

/-! ## A completion -/

/-- The one choice of a completion. -/
def ChoiceOf (message : Rfc8259.Json → Prop) (finish : Bytes) : Rfc8259.Json → Prop :=
  IsObject [(ascii "index", IsNumeral (ascii "0")), (ascii "message", message),
    (ascii "finish_reason", IsString finish)]

/-- A completion: who wrote it and when, its message, how it ended and its counts. -/
def CompletionOf (id model : Bytes) (message : Rfc8259.Json → Prop) (finish : Bytes)
    (now : Int) (usage : Usage) (total : Int) : Rfc8259.Json → Prop :=
  IsObject [(ascii "id", IsString id),
    (ascii "object", IsString (ascii "chat.completion")),
    (ascii "created", IsNumeral (OpenAi.decimal now)),
    (ascii "model", IsString model),
    (ascii "choices", IsArray [ChoiceOf message finish]),
    (ascii "usage", IsObject ((usageParts usage total).map Part.field))]

/-- The text of the choice. -/
def choiceText (message finish : Bytes) : Bytes :=
  ascii "\x7b\"index\":0,\"message\":\x7b" ++ message ++ ascii "\x7d,\"finish_reason\":\"" ++
    finish ++ ascii "\"\x7d"

/-- A choice writes its message and its finish reason. -/
theorem writes_choice {message finish : Bytes} {means : Rfc8259.Json → Prop}
    (written : Writes (0x7b :: (message ++ [0x7d])) means) (plain : finish.all isPlain = true) :
    Writes (choiceText message finish) (ChoiceOf means finish) := by
  refine writes_members ⟨ascii "index", ascii "0", IsNumeral (ascii "0")⟩
    [⟨ascii "message", 0x7b :: (message ++ [0x7d]), means⟩,
      ⟨ascii "finish_reason", quoted finish, IsString finish⟩] ?_ ?_ ?_
  · simp only [choiceText, Json.objectText, Json.moreParts_cons, Json.moreParts_nil, quoted,
      List.append_assoc, List.cons_append, List.nil_append]
    rfl
  · simp only [List.forall_mem_cons]
    exact ⟨Part.ok (by decide) (writes_number (decimalDigits_isNumber 0)).places,
      Part.ok (by decide) written.places, Part.ok (by decide) (writes_plain plain).places,
      by simp⟩
  · show [ascii "index", ascii "message", ascii "finish_reason"].Nodup
    decide

/-- A finish reason is a plain word. -/
theorem finishName_plain {finish : OpenAi.Finish} {name : Bytes}
    (named : OpenAi.finishName finish = some name) :
    name.all isPlain = true ∧ name.isEmpty = false := by
  cases finish with
  | error => exact absurd named (by simp [OpenAi.finishName])
  | stop | length | toolCalls | contentFilter =>
      rw [← Option.some.inj named]
      decide

/-- The members of a completion behind its id. -/
def completionRest (model message finish : Bytes) (means : Rfc8259.Json → Prop) (now : Int)
    (usage : Usage) (total : Int) : List Part :=
  [⟨ascii "object", quoted (ascii "chat.completion"), IsString (ascii "chat.completion")⟩,
    ⟨ascii "created", OpenAi.decimal now, IsNumeral (OpenAi.decimal now)⟩,
    ⟨ascii "model", quoted model, IsString model⟩,
    ⟨ascii "choices", 0x5b :: (commaJoin [choiceText message finish] ++ [0x5d]),
      IsArray [ChoiceOf means finish]⟩,
    ⟨ascii "usage", usageObject usage total,
      IsObject ((usageParts usage total).map Part.field)⟩]

/-- The members of a completion. -/
def completionParts (id model message finish : Bytes) (means : Rfc8259.Json → Prop)
    (now : Int) (usage : Usage) (total : Int) : List Part :=
  ⟨ascii "id", quoted id, IsString id⟩ ::
    completionRest model message finish means now usage total

/-- A completion is the object of its parts. -/
theorem completion_eq {id model message finish : Bytes} (means : Rfc8259.Json → Prop)
    (now : Int) (usage : Usage) (total : Int) (given : finish.isEmpty = false) :
    completion id model message finish now usage total =
      Json.objectText ⟨ascii "id", quoted id, IsString id⟩
        (completionRest model message finish means now usage total) := by
  rw [completion, OpenAi.Envelope.close]
  rw [usageText_eq, OpenAi.Envelope.endChoice, given, if_neg (by simp),
    OpenAi.Envelope.start, OpenAi.Envelope.choice]
  simp only [completionRest, Json.objectText, Json.moreParts_cons, Json.moreParts_nil, quoted,
    commaJoin, choiceText, List.append_assoc, List.cons_append, List.nil_append]
  rfl

/-- Every part of a completion is well formed. -/
theorem completionParts_ok
    {id model message finish : Bytes} {means : Rfc8259.Json → Prop} (now : Int) (usage : Usage)
    (total : Int) (idChars : IsChars id) (modelChars : IsChars model)
    (written : Writes (0x7b :: (message ++ [0x7d])) means)
    (plain : finish.all isPlain = true) :
    ∀ p ∈ completionParts id model message finish means now usage total, p.Ok := by
  have choices := writes_array (List.Forall₂.cons (writes_choice written plain)
    List.Forall₂.nil)
  simp only [completionParts, completionRest, List.forall_mem_cons]
  exact ⟨Part.ok (by decide) (writes_string idChars).places,
    Part.ok (by decide) (writes_plain (by decide)).places,
    Part.ok (by decide) (writes_number (decimal_isNumber now)).places,
    Part.ok (by decide) (writes_string modelChars).places,
    Part.ok (by decide) choices.places,
    Part.ok (by decide) (writes_usage usage total).places, by simp⟩

/-- No two of them have one name. -/
theorem completionParts_distinct
    (id model message finish : Bytes) (means : Rfc8259.Json → Prop) (now : Int) (usage : Usage)
    (total : Int) :
    ((completionParts id model message finish means now usage total).map Part.name).Nodup := by
  show [ascii "id", ascii "object", ascii "created", ascii "model", ascii "choices",
    ascii "usage"].Nodup
  decide

/-- A completion is one object that says what it was given. -/
theorem writes_completion
    {id model message finish : Bytes} {means : Rfc8259.Json → Prop} (now : Int) (usage : Usage)
    (total : Int) (idChars : IsChars id) (modelChars : IsChars model)
    (written : Writes (0x7b :: (message ++ [0x7d])) means)
    (plain : finish.all isPlain = true) (given : finish.isEmpty = false) :
    Writes (completion id model message finish now usage total)
      (CompletionOf id model means finish now usage total) :=
  writes_members _ _ (completion_eq means now usage total given)
    (completionParts_ok now usage total idChars modelChars written plain)
    (completionParts_distinct id model message finish means now usage total)

/-! ## Messages -/

/-- A message of one text. -/
def TextMessageOf (text : Bytes) : Rfc8259.Json → Prop :=
  IsObject [(ascii "role", IsString (ascii "assistant")), (ascii "content", IsString text)]

/-- A message of a text is written so. -/
theorem writes_textMessage {text : Bytes} (chars : IsChars text) :
    Writes (0x7b :: (textMessage text ++ [0x7d])) (TextMessageOf text) := by
  refine writes_members ⟨ascii "role", quoted (ascii "assistant"), IsString (ascii "assistant")⟩
    [⟨ascii "content", quoted text, IsString text⟩] ?_ ?_ ?_
  · simp only [textMessage, Json.objectText, Json.moreParts_cons, Json.moreParts_nil,
      List.append_assoc, List.cons_append, List.nil_append]
    rfl
  · simp only [List.forall_mem_cons]
    exact ⟨Part.ok (by decide) (writes_plain (by decide)).places,
      Part.ok (by decide) (writes_string chars).places, by simp⟩
  · show [ascii "role", ascii "content"].Nodup
    decide

/-- The blocks that call a tool. -/
def toolBlocks (blocks : List Value) : List Value :=
  blocks.filter fun block => blockType block = ascii "tool_use"

/-- The function of a call as the client sees it: the input is written as the text of
the arguments. -/
def FunctionOf (block : Value) : Rfc8259.Json → Prop :=
  IsObject [(ascii "name", IsString (block.strOr (ascii "name")).bytes),
    (ascii "arguments", IsString ((inputSpan block).flatMap escapedByte))]

/-- A call as the client sees it. -/
def ToolCallOf (block : Value) : Rfc8259.Json → Prop :=
  IsObject [(ascii "id", IsString (block.strOr (ascii "id")).bytes),
    (ascii "type", IsString (ascii "function")), (ascii "function", FunctionOf block)]

/-- The text of the function of a call. -/
def functionText (block : Value) : Bytes :=
  Json.objectText
    ⟨ascii "name", quoted (block.strOr (ascii "name")).bytes,
      IsString (block.strOr (ascii "name")).bytes⟩
    [⟨ascii "arguments", escaped (inputSpan block),
      IsString ((inputSpan block).flatMap escapedByte)⟩]

/-- The function of a call is its block's name and input. -/
theorem writes_function {block : Value} (spanned : Spanned block) :
    Writes (functionText block) (FunctionOf block) := by
  refine writes_members _ _ rfl ?_ ?_
  · simp only [List.forall_mem_cons]
    exact ⟨Part.ok (by decide) (writes_string (spanned.strOr _)).places,
      Part.ok (by decide) (writes_string (flatMap_escapedByte_chars _)).places, by simp⟩
  · show [ascii "name", ascii "arguments"].Nodup
    decide

/-- A call is written for its block. -/
theorem writes_toolCall {block : Value} (spanned : Spanned block) :
    Writes (toolCall block) (ToolCallOf block) := by
  refine writes_members
    ⟨ascii "id", quoted (block.strOr (ascii "id")).bytes,
      IsString (block.strOr (ascii "id")).bytes⟩
    [⟨ascii "type", quoted (ascii "function"), IsString (ascii "function")⟩,
      ⟨ascii "function", functionText block, FunctionOf block⟩] ?_ ?_ ?_
  · simp only [toolCall, functionText, Json.objectText, Json.moreParts_cons,
      Json.moreParts_nil, List.append_assoc, List.cons_append, List.nil_append]
    rfl
  · simp only [List.forall_mem_cons]
    exact ⟨Part.ok (by decide) (writes_string (spanned.strOr _)).places,
      Part.ok (by decide) (writes_plain (by decide)).places,
      Part.ok (by decide) (writes_function spanned).places, by simp⟩
  · show [ascii "id", ascii "type", ascii "function"].Nodup
    decide

/-- The calls behind the first are put behind commas. -/
theorem toolCallsLoop_false (blocks : List Value) :
    toolCallsLoop blocks false =
      ((toolBlocks blocks).map toolCall).flatMap (fun text => 0x2c :: text) ++ ascii "]" := by
  induction blocks with
  | nil => rfl
  | cons block rest inductionHypothesis =>
      rw [toolCallsLoop, toolBlocks]
      split
      · rename_i other
        rw [List.filter_cons_of_neg (by simpa using other)]
        exact inductionHypothesis
      · rename_i tool
        rw [List.filter_cons_of_pos (by simpa using tool), inductionHypothesis, if_neg (by simp)]
        simp only [toolBlocks, List.map_cons, List.flatMap_cons, List.append_assoc,
          List.cons_append]
        rfl

/-- `append_tool_calls` writes one array of the calls, when there are any. -/
theorem appendToolCalls_eq {blocks : List Value} (some : (toolBlocks blocks).isEmpty = false) :
    appendToolCalls blocks = ascii ",\"tool_calls\":" ++
      0x5b :: (commaJoin ((toolBlocks blocks).map toolCall) ++ [0x5d]) := by
  unfold appendToolCalls
  induction blocks with
  | nil => exact absurd some (by simp [toolBlocks])
  | cons block rest inductionHypothesis =>
      rw [toolCallsLoop]
      rw [toolBlocks] at some ⊢
      split
      · rename_i other
        rw [List.filter_cons_of_neg (by simpa using other)] at some ⊢
        exact inductionHypothesis some
      · rename_i tool
        rw [List.filter_cons_of_pos (by simpa using tool), toolCallsLoop_false, if_pos rfl,
          List.map_cons, commaJoin_cons]
        simp only [toolBlocks, List.append_assoc]
        rfl

/-- Some block has a text that is not empty. -/
def saysText (blocks : List Value) : Bool :=
  blocks.any fun block => blockType block = ascii "text" && !(blockText block).isEmpty

/-- The content of an Anthropic reply: null when it only calls tools. -/
def ReplyContent (blocks : List Value) (tree : Rfc8259.Json) : Prop :=
  if saysText blocks = false ∧ (toolBlocks blocks).isEmpty = false then tree = .lit .null
  else IsString (textOf blocks) tree

/-- The message of an Anthropic reply: its text and its calls. -/
def ReplyMessage (blocks : List Value) : Rfc8259.Json → Prop :=
  IsObject ([(ascii "role", IsString (ascii "assistant")),
      (ascii "content", ReplyContent blocks)] ++
    if (toolBlocks blocks).isEmpty then []
    else [(ascii "tool_calls", IsArray ((toolBlocks blocks).map ToolCallOf))])

/-- The texts of a reply stand in a string. -/
theorem textOf_chars {blocks : List Value} (spanned : ∀ b ∈ blocks, Spanned b) :
    IsChars (textOf blocks) := by
  induction blocks with
  | nil => exact IsChars.nil
  | cons block rest inductionHypothesis =>
      have more := inductionHypothesis fun b member => spanned b (List.mem_cons_of_mem _ member)
      rw [textOf, List.flatMap_cons]
      split
      · exact ((spanned block (List.mem_cons_self ..)).strOr _).append more
      · exact more

/-- There is a tool call exactly where a block asks for one. -/
theorem any_toolUse (blocks : List Value) :
    (blocks.any fun block => decide (blockType block = ascii "tool_use")) =
      !(toolBlocks blocks).isEmpty := by
  induction blocks with
  | nil => rfl
  | cons block rest inductionHypothesis =>
      rw [List.any_cons, inductionHypothesis, toolBlocks, toolBlocks]
      by_cases tool : blockType block = ascii "tool_use"
      · rw [List.filter_cons_of_pos (by simpa using tool)]
        simp [tool]
      · rw [List.filter_cons_of_neg (by simpa using tool)]
        simp [tool]

/-- The text of that content. -/
def replyText (blocks : List Value) : Bytes :=
  if saysText blocks = false ∧ (toolBlocks blocks).isEmpty = false then ascii "null"
  else quoted (textOf blocks)

/-- The content is the reply's text, or null where it has calls only. -/
theorem writes_replyContent {blocks : List Value} (spanned : ∀ b ∈ blocks, Spanned b) :
    Writes (replyText blocks) (ReplyContent blocks) := by
  unfold replyText ReplyContent
  split
  · exact writes_lit .null
  · exact writes_string (textOf_chars spanned)

/-- The calls of a reply, when it has any. -/
def callParts (blocks : List Value) : List Part :=
  if (toolBlocks blocks).isEmpty then []
  else [⟨ascii "tool_calls", 0x5b :: (commaJoin ((toolBlocks blocks).map toolCall) ++ [0x5d]),
    IsArray ((toolBlocks blocks).map ToolCallOf)⟩]

/-- The message of a reply, part by part. -/
theorem anthropicMessage_eq (blocks : List Value) :
    anthropicMessage blocks = ascii "\"role\":\"assistant\",\"content\":" ++ replyText blocks ++
      moreParts (callParts blocks) := by
  unfold anthropicMessage
  rw [any_toolUse, replyText, callParts]
  have spoken : (blocks.any fun block =>
      decide (blockType block = ascii "text") && !(blockText block).isEmpty) =
        saysText blocks := rfl
  simp only [spoken]
  cases empty : (toolBlocks blocks).isEmpty with
  | true => simp
  | false =>
      rw [appendToolCalls_eq empty]
      cases saysText blocks <;> simp [quoted, ascii] <;> decide

/-- Every call is written for its block. -/
theorem writes_toolCalls {blocks : List Value} (spanned : ∀ b ∈ blocks, Spanned b) :
    List.Forall₂ Writes ((toolBlocks blocks).map toolCall)
      ((toolBlocks blocks).map ToolCallOf) := by
  rw [List.forall₂_map_left_iff, List.forall₂_map_right_iff, List.forall₂_same]
  intro block member
  exact writes_toolCall (spanned block (List.mem_filter.mp member).1)

/-- The message of a reply is one object. -/
theorem writes_replyMessage {blocks : List Value} (spanned : ∀ b ∈ blocks, Spanned b) :
    Writes (0x7b :: (anthropicMessage blocks ++ [0x7d])) (ReplyMessage blocks) := by
  have fields : (callParts blocks).map Part.field = if (toolBlocks blocks).isEmpty then []
      else [(ascii "tool_calls", IsArray ((toolBlocks blocks).map ToolCallOf))] := by
    rw [callParts]
    split <;> rfl
  rw [ReplyMessage, ← fields]
  refine writes_members ⟨ascii "role", quoted (ascii "assistant"), IsString (ascii "assistant")⟩
    (⟨ascii "content", replyText blocks, ReplyContent blocks⟩ :: callParts blocks) ?_ ?_ ?_
  · rw [anthropicMessage_eq]
    simp only [Json.objectText, Json.moreParts_cons, List.append_assoc, List.cons_append]
    rfl
  · simp only [List.forall_mem_cons]
    refine ⟨Part.ok (by decide) (writes_plain (by decide)).places,
      Part.ok (by decide) (writes_replyContent spanned).places, ?_⟩
    intro p member
    rw [callParts] at member
    split at member
    · exact absurd member (by simp)
    · rw [List.mem_singleton.mp member]
      exact Part.ok (by decide) (writes_array (writes_toolCalls spanned)).places
  · have all : [ascii "role", ascii "content", ascii "tool_calls"].Nodup := by decide
    refine List.Nodup.sublist ?_ all
    refine List.Sublist.cons_cons _ (List.Sublist.cons_cons _ ?_)
    rw [callParts]
    split
    · exact List.nil_sublist _
    · exact List.Sublist.refl _

/-! ## Replies -/

/-- What a reply is written from: nothing, or the parts of one completion with these
counts, whose total is the one the venue states or else the sum. -/
def Settled (now : Int) (r : Response) : Prop :=
  if r.ok then
    ∃ (id model message finish : Bytes) (means : Rfc8259.Json → Prop) (total : Int),
      r.out = completion id model message finish now r.usage total ∧
      (∀ p ∈ completionParts id model message finish means now r.usage total, p.Ok) ∧
      finish.isEmpty = false ∧
      (total < 10 ^ 18 ∨ total = r.usage.input + r.usage.out)
  else r.out = []

/-- What a reply is written as: nothing, or one completion with these counts. -/
def Completes (now : Int) (r : Response) : Prop :=
  if r.ok then
    ∃ (id model finish : Bytes) (message : Rfc8259.Json → Prop) (total : Int),
      Writes r.out (CompletionOf id model message finish now r.usage total)
  else r.out = []

/-- A reply that settles is a completion or empty. -/
theorem Settled.completes {now : Int} {r : Response} (settled : Settled now r) :
    Completes now r := by
  unfold Settled at settled
  unfold Completes
  cases accepted : r.ok with
  | true =>
      rw [accepted, if_pos rfl] at settled
      obtain ⟨id, model, message, finish, means, total, shape, ok, given, -⟩ := settled
      rw [if_pos rfl]
      refine ⟨id, model, finish, means, total, ?_⟩
      rw [shape]
      exact writes_members _ _ (completion_eq means now r.usage total given) ok
        (completionParts_distinct id model message finish means now r.usage total)
  | false =>
      rw [accepted, if_neg (by simp)] at settled
      rw [if_neg (by simp)]
      exact settled

/-- The values of a parsed reply have their texts. -/
theorem parseObject_spanned {body : Bytes} {v : Value} (parsed : parseObject body = some v) :
    Spanned v ∧ v.type = .object := by
  rw [parseObject] at parsed
  dsimp only at parsed
  split at parsed
  · rename_i accepted
    rw [Option.some.injEq] at parsed
    subst parsed
    exact ⟨Json.spanned_parse accepted.1, accepted.2⟩
  · exact absurd parsed (by simp)

/-- A string member stands in a string as it is. -/
theorem strOr_chars {v : Value} (spanned : Spanned v) (key : Bytes) {default : View}
    (plain : IsChars default.bytes) : IsChars (v.strOr key default).bytes := by
  unfold Value.strOr
  cases found : v.find key with
  | none => exact plain
  | some w =>
      dsimp only
      split
      · rename_i type
        exact (spanned.find found).string type
      · exact plain

/-- So do the values of a parsed array. -/
theorem arrayOf_spanned {c : Option Value} (spanned : ∀ v ∈ c, Spanned v) :
    ∀ b ∈ arrayOf c, Spanned b := by
  intro b member
  unfold arrayOf at member
  cases c with
  | none => exact absurd member (by simp)
  | some v =>
      dsimp only at member
      split at member
      · exact (spanned v rfl).arr member
      · exact absurd member (by simp)

/-- An Anthropic reply is written as a completion with its text and its calls. -/
theorem anthropic_completes (now : Int) (body : Bytes) {v : Value}
    (parsed : parseObject body = some v)
    (accepted : (anthropicToOpenaiResponse now body).ok = true) :
    ∃ id model finish : Bytes,
      Writes (anthropicToOpenaiResponse now body).out
        (CompletionOf id model (ReplyMessage (arrayOf (v.find (ascii "content")))) finish now
          (anthropicToOpenaiResponse now body).usage (-1)) := by
  have spanned := (parseObject_spanned parsed).1
  have blocks : ∀ b ∈ arrayOf (v.find (ascii "content")), Spanned b :=
    arrayOf_spanned fun c found => spanned.find (Option.mem_def.mp found)
  unfold anthropicToOpenaiResponse at accepted ⊢
  rw [parsed] at accepted ⊢
  dsimp only at accepted ⊢
  split at accepted
  · exact absurd accepted (by simp)
  · rename_i finish named
    obtain ⟨plain, given⟩ := finishName_plain named
    exact ⟨_, _, finish, writes_completion now _ (-1)
      (strOr_chars spanned _ (IsChars.of_plain (List.all_eq_true.mp (by decide))))
      (spanned.strOr _) (writes_replyMessage blocks) plain given⟩

/-- A default stands in a string as it is. -/
theorem default_chars {text : Bytes} (plain : text.all isPlain = true) : IsChars text :=
  IsChars.of_plain (List.all_eq_true.mp plain)

/-- A refused reply settles empty. -/
theorem Settled.refused (now : Int) : Settled now {} := rfl

/-- A written completion settles. -/
theorem Settled.completion
    {id model message finish : Bytes} {means : Rfc8259.Json → Prop} {now : Int} {usage : Usage}
    {total : Int} (idChars : IsChars id) (modelChars : IsChars model)
    (written : Writes (0x7b :: (message ++ [0x7d])) means)
    {how : OpenAi.Finish} (named : OpenAi.finishName how = some finish)
    (small : total < 10 ^ 18 ∨ total = usage.input + usage.out) :
    Settled now
      { ok := true
        out := Translate.completion id model message finish now usage total
        usage := usage } := by
  obtain ⟨plain, given⟩ := finishName_plain named
  exact ⟨id, model, message, finish, means, total, rfl,
    completionParts_ok now usage total idChars modelChars written plain, given, small⟩

/-- An Anthropic reply settles. -/
theorem anthropic_settles (now : Int) (body : Bytes) :
    Settled now (anthropicToOpenaiResponse now body) := by
  unfold anthropicToOpenaiResponse
  split
  · exact Settled.refused now
  · rename_i v parsed
    have spanned := (parseObject_spanned parsed).1
    split
    · exact Settled.refused now
    · rename_i finish named
      exact Settled.completion (strOr_chars spanned _ (default_chars (by decide)))
        (spanned.strOr _) (writes_replyMessage (arrayOf_spanned fun c found =>
          spanned.find (Option.mem_def.mp found))) named (Or.inl (by decide))

/-- Texts one behind the other stand in a string. -/
theorem flatMap_chars {blocks : List Value} {text : Value → Bytes}
    (chars : ∀ b ∈ blocks, IsChars (text b)) : IsChars (blocks.flatMap text) := by
  induction blocks with
  | nil => exact IsChars.nil
  | cons block rest inductionHypothesis =>
      rw [List.flatMap_cons]
      exact (chars block (List.mem_cons_self ..)).append
        (inductionHypothesis fun b member => chars b (List.mem_cons_of_mem _ member))

/-- The parts of a candidate have their texts. -/
theorem geminiCandidate_spanned {v : Value} (spanned : Spanned v) :
    ∀ part ∈ (geminiCandidate v).1, Spanned part := by
  unfold geminiCandidate
  split
  · rename_i c0 _ candidates
    have first : Spanned c0 := arrayOf_spanned
      (fun c found => spanned.find (Option.mem_def.mp found)) c0
      (candidates ▸ List.mem_cons_self ..)
    apply arrayOf_spanned
    intro parts found
    obtain ⟨content, contentFound, partsFound⟩ := Option.bind_eq_some_iff.mp found
    exact (first.find contentFound).find partsFound
  · intro part member
    exact absurd member (by simp)

/-- The total of a reply's counts is below the bound. -/
theorem geminiCounts_total (v : Value) : (geminiCounts v).2 < 10 ^ 18 := by
  unfold geminiCounts
  split
  · decide
  · exact (JsonScan.count_bounds _).2

/-- A Gemini reply settles. -/
theorem gemini_settles (now : Int) (body : Bytes) :
    Settled now (geminiToOpenaiResponse now body) := by
  unfold geminiToOpenaiResponse
  split
  · exact Settled.refused now
  · rename_i v parsed
    have spanned := (parseObject_spanned parsed).1
    dsimp only
    split
    · exact Settled.refused now
    · rename_i finish named
      refine Settled.completion (default_chars (by decide)) (spanned.strOr _)
        (writes_textMessage (flatMap_chars fun part member =>
          (geminiCandidate_spanned spanned part member).strOr _)) named ?_
      split
      · exact Or.inr rfl
      · exact Or.inl (geminiCounts_total v)

/-- A Cohere reply settles. -/
theorem cohere_settles (now : Int) (body : Bytes) :
    Settled now (cohereToOpenaiResponse now body) := by
  unfold cohereToOpenaiResponse
  split
  · exact Settled.refused now
  · rename_i v parsed
    have spanned := (parseObject_spanned parsed).1
    split
    · exact Settled.refused now
    · rename_i finish named
      refine Settled.completion (strOr_chars spanned _ (default_chars (by decide)))
        (spanned.strOr _) (writes_textMessage (textOf_chars (arrayOf_spanned ?_))) named
        (Or.inl (by decide))
      intro content found
      obtain ⟨message, messageFound, contentFound⟩ := Option.bind_eq_some_iff.mp found
      exact (spanned.find messageFound).find contentFound

/-! ## Errors -/

/-- An escape letter is no control byte. -/
theorem isEscape_printable {c : Byte} (escape : isEscape c = true) : ¬ c < 0x20 := by
  simp only [isEscape, Bool.or_eq_true, beq_iff_eq] at escape
  obtain ((((((rfl | rfl) | rfl) | rfl) | rfl) | rfl) | rfl) | rfl := escape <;> decide

/-- Nor is a hex digit. -/
theorem isHex_printable {c : Byte} (hex : isHex c = true) : ¬ c < 0x20 := by
  rw [UInt8.lt_iff_toNat_lt]
  simp only [isHex, isDigit, Bool.or_eq_true, Bool.and_eq_true, decide_eq_true_eq,
    UInt8.le_iff_toNat_le] at hex
  obtain (⟨low, -⟩ | ⟨low, -⟩) | ⟨low, -⟩ := hex <;> exact not_lt.mpr (le_trans (by decide) low)

/-- Contents of a string hold no control byte. -/
theorem chars_printable {raw : Bytes} (chars : IsChars raw) : ∀ c ∈ raw, ¬ c < 0x20 := by
  induction chars with
  | nil => simp
  | plain c rest plain _ inductionHypothesis =>
      simp only [isPlain, Bool.and_eq_true, decide_eq_true_eq] at plain
      exact List.forall_mem_cons.mpr ⟨UInt8.not_lt.mpr plain.2, inductionHypothesis⟩
  | escape c rest escape _ inductionHypothesis =>
      simp only [List.forall_mem_cons]
      exact ⟨by decide, isEscape_printable escape, inductionHypothesis⟩
  | unicode a b c d rest ha hb hc hd _ inductionHypothesis =>
      simp only [List.forall_mem_cons]
      exact ⟨by decide, by decide, isHex_printable ha, isHex_printable hb, isHex_printable hc,
        isHex_printable hd, inductionHypothesis⟩

/-- Contents of a string are written as they are. -/
theorem sanitized_chars {raw : Bytes} (chars : IsChars raw) : sanitized raw = raw := by
  have printable := chars_printable chars
  clear chars
  unfold sanitized
  induction raw with
  | nil => rfl
  | cons c rest inductionHypothesis =>
      rw [List.forall_mem_cons] at printable
      rw [List.flatMap_cons, if_neg printable.1, inductionHypothesis printable.2]
      rfl

/-- The object of an error. -/
def ErrorObject (message type : Bytes) : Rfc8259.Json → Prop :=
  IsObject [(ascii "message", IsString message), (ascii "type", IsString type),
    (ascii "code", fun tree => tree = .lit .null)]

/-- An error as the client sees it: one member, the object of the error. -/
def ErrorOf (message type : Bytes) : Rfc8259.Json → Prop :=
  IsObject [(ascii "error", ErrorObject message type)]

/-- The text of the object of an error. -/
def errorText (message type : Bytes) : Bytes :=
  Json.objectText ⟨ascii "message", quoted message, IsString message⟩
    [⟨ascii "type", quoted type, IsString type⟩,
      ⟨ascii "code", ascii "null", fun tree => tree = .lit .null⟩]

/-- The error's object writes its message and its type. -/
theorem writes_errorObject {message type : Bytes} (messageChars : IsChars message)
    (typeChars : IsChars type) :
    Writes (errorText message type) (ErrorObject message type) := by
  refine writes_members _ _ rfl ?_ ?_
  · simp only [List.forall_mem_cons]
    exact ⟨Part.ok (by decide) (writes_string messageChars).places,
      Part.ok (by decide) (writes_string typeChars).places,
      Part.ok (by decide) (writes_lit .null).places, by simp⟩
  · show [ascii "message", ascii "type", ascii "code"].Nodup
    decide

/-- An error writes its object. -/
theorem writes_error {message type : Bytes} (messageChars : IsChars message)
    (typeChars : IsChars type) : Writes (writeError message type) (ErrorOf message type) := by
  refine writes_members ⟨ascii "error", errorText message type, ErrorObject message type⟩ []
    ?_ ?_ ?_
  · rw [writeError, sanitized_chars messageChars, sanitized_chars typeChars]
    simp only [errorText, Json.objectText, Json.moreParts_cons, Json.moreParts_nil, quoted,
      List.append_assoc, List.cons_append, List.nil_append]
    rfl
  · intro p member
    rw [List.mem_singleton.mp member]
    exact Part.ok (by decide) (writes_errorObject messageChars typeChars).places
  · exact List.nodup_singleton _

/-- The venue's message and type stand in a string as they are. -/
theorem upstreamError_chars {v : Value} (spanned : Spanned v) {fallbackType : Bytes}
    (fallback : IsChars fallbackType) :
    IsChars (upstreamError v fallbackType).1 ∧ IsChars (upstreamError v fallbackType).2 := by
  have message : ∀ m : Bytes, IsChars m →
      IsChars (if m.isEmpty then (v.strOr (ascii "message")).bytes else m) := by
    intro m chars
    split
    · exact spanned.strOr _
    · exact chars
  unfold upstreamError
  cases found : v.find (ascii "error") with
  | none => exact ⟨fallback, message _ IsChars.nil⟩
  | some e =>
      have spannedError := spanned.find found
      dsimp only
      by_cases object : e.type = .object
      · rw [if_pos object]
        refine ⟨?_, message _ (spannedError.strOr _)⟩
        dsimp only
        split
        · exact spannedError.strOr _
        · split
          · exact spannedError.strOr _
          · exact fallback
      · rw [if_neg object]
        by_cases string : e.type = .string
        · rw [if_pos string]
          exact ⟨fallback, message _ (spannedError.string string)⟩
        · rw [if_neg string]
          exact ⟨fallback, message _ IsChars.nil⟩

/-- Whatever an upstream answers, its error is one object with a message and a type. -/
theorem writes_upstreamError (body : Bytes) {fallbackType : Bytes}
    (fallback : IsChars fallbackType) :
    ∃ message type : Bytes,
      Writes (upstreamErrorToOpenai body fallbackType) (ErrorOf message type) := by
  have filled : ∀ m : Bytes, IsChars m →
      IsChars (if m.isEmpty then ascii "upstream provider error" else m) := by
    intro m chars
    split
    · exact default_chars (by decide)
    · exact chars
  unfold upstreamErrorToOpenai
  cases parsed : parseObject body with
  | none => exact ⟨_, _, writes_error (filled _ IsChars.nil) fallback⟩
  | some v =>
      have chars := upstreamError_chars (parseObject_spanned parsed).1 fallback
      exact ⟨_, _, writes_error (filled _ chars.2) chars.1⟩

end Translate
end Llmbridge
