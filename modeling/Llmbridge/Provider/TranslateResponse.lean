import Llmbridge.Provider.Json
import Llmbridge.Provider.OpenAi

/-!
# Response translators

`provider/src/translate_anthropic.cpp`, `translate_gemini.cpp`,
`translate_cohere.cpp` and `upstream_error_to_openai` of `translate_body.cpp`: a
venue's whole reply as an OpenAI response.  `now` is the second `now_secs` reads.
-/

namespace Llmbridge
namespace Translate

open Rfc8259 (Byte Bytes ascii quoted)
open Json (Value View)
open JsonScan (count)
open OpenAi (Usage Finish FinishRule finishName finishOf usageOf asWritten geminiUsage sanitized
  hexDigit)

/-- A byte `append_escaped` does not take as it is. -/
def escapedByte (c : Byte) : Bytes :=
  if c = 0x22 then ascii "\\\""
  else if c = 0x5c then ascii "\\\\"
  else if c = 0x0a then ascii "\\n"
  else if c = 0x09 then ascii "\\t"
  else if c = 0x0d then ascii "\\r"
  else if c = 0x08 then ascii "\\b"
  else if c = 0x0c then ascii "\\f"
  else if c < 0x20 then
    ascii "\\u00" ++ [hexDigit (c.toNat / 16 % 16), hexDigit (c.toNat % 16)]
  else [c]

/-- `append_escaped`: the decoded string as a JSON string literal. -/
def escaped (raw : Bytes) : Bytes :=
  quoted (raw.flatMap escapedByte)

/-- The array a member holds, empty for anything else. -/
def arrayOf (c : Option Value) : List Value :=
  match c with
  | none => []
  | some c => if c.type = .array then c.arr else []

/-- What a translator returns: whether it succeeded, its output and the counts. -/
structure Response where
  ok : Bool := false
  out : Bytes := []
  usage : Usage := {}
  deriving DecidableEq, Repr

/-- The document a response translator reads, when it is an object. -/
def parseObject (body : Bytes) : Option Value :=
  let (v, ok) := Json.parse body
  if ok ∧ v.type = .object then some v else none

/-- A response with one choice, from `Envelope`'s constructor to its `close`. -/
def completion (id model message : Bytes) (finish : Bytes) (now : Int) (usage : Usage)
    (total : Int := -1) : Bytes :=
  OpenAi.Envelope.start .completion id (OpenAi.decimal now) model ++
    OpenAi.Envelope.choice .completion ++ message ++ OpenAi.Envelope.endChoice finish ++
    OpenAi.Envelope.close (some usage) false total

/-! ## Anthropic -/

/-- The type of a block. -/
def blockType (block : Value) : Bytes :=
  (block.strOr (ascii "type")).bytes

/-- The text of a block. -/
def blockText (block : Value) : Bytes :=
  (block.strOr (ascii "text")).bytes

/-- The texts of the text blocks. -/
def textOf (blocks : List Value) : Bytes :=
  blocks.flatMap fun block => if blockType block = ascii "text" then blockText block else []

/-- The `input` of a tool call as `append_tool_calls` takes it. -/
def inputSpan (block : Value) : Bytes :=
  match (block.find (ascii "input")).filter fun input => !input.sv.bytes.isEmpty with
  | some input => input.sv.bytes
  | none => ascii "\x7b\x7d"

/-- One call of `append_tool_calls`. -/
def toolCall (block : Value) : Bytes :=
  ascii "\x7b\"id\":" ++ quoted (block.strOr (ascii "id")).bytes ++
    ascii ",\"type\":\"function\",\"function\":\x7b\"name\":" ++
    quoted (block.strOr (ascii "name")).bytes ++
    ascii ",\"arguments\":" ++ escaped (inputSpan block) ++ ascii "\x7d\x7d"

/-- The loop of `append_tool_calls`. -/
def toolCallsLoop : List Value → (first : Bool) → Bytes
  | [], first => if first then [] else ascii "]"
  | block :: rest, first =>
      if blockType block ≠ ascii "tool_use" then toolCallsLoop rest first
      else
        (if first then ascii ",\"tool_calls\":[" else ascii ",") ++ toolCall block ++
          toolCallsLoop rest false

/-- `append_tool_calls`. -/
def appendToolCalls (blocks : List Value) : Bytes :=
  toolCallsLoop blocks true

/-- The message of an Anthropic reply: null content on a pure tool call. -/
def anthropicMessage (blocks : List Value) : Bytes :=
  let text := blocks.any fun block =>
    blockType block = ascii "text" && !(blockText block).isEmpty
  let tools := blocks.any fun block => blockType block = ascii "tool_use"
  ascii "\"role\":\"assistant\",\"content\":" ++
    (if !text && tools then ascii "null" else quoted (textOf blocks)) ++
    (if tools then appendToolCalls blocks else [])

/-- `anthropic_to_openai_response`. -/
def anthropicToOpenaiResponse (now : Int) (body : Bytes) : Response :=
  match parseObject body with
  | none => {}
  | some v =>
      match finishName
          (finishOf (v.strOr (ascii "stop_reason") ⟨0, ascii "end_turn"⟩).bytes) with
      | none => {}
      | some finish =>
          let usage := asWritten (match v.find (ascii "usage") with
            | none => {}
            | some m => usageOf m.sv.bytes)
          { ok := true
            out := completion (v.strOr (ascii "id") ⟨0, ascii "chatcmpl-llmbridge"⟩).bytes
              (v.strOr (ascii "model")).bytes
              (anthropicMessage (arrayOf (v.find (ascii "content")))) finish now usage
            usage := usage }

/-! ## Gemini -/

/-- `kGeminiFinish`. -/
def kGeminiFinish : List FinishRule :=
  [⟨ascii "STOP", .stop⟩,
    ⟨ascii "MAX_TOKENS", .length⟩,
    ⟨ascii "SAFETY", .contentFilter⟩,
    ⟨ascii "RECITATION", .contentFilter⟩,
    ⟨ascii "LANGUAGE", .contentFilter⟩,
    ⟨ascii "BLOCKLIST", .contentFilter⟩,
    ⟨ascii "PROHIBITED_CONTENT", .contentFilter⟩,
    ⟨ascii "SPII", .contentFilter⟩,
    ⟨ascii "IMAGE_SAFETY", .contentFilter⟩,
    ⟨ascii "MALFORMED_FUNCTION_CALL", .error⟩,
    ⟨ascii "UNEXPECTED_TOOL_CALL", .error⟩,
    ⟨ascii "TOO_MANY_TOOL_CALLS", .error⟩]

/-- `kCohereFinish`. -/
def kCohereFinish : List FinishRule :=
  [⟨ascii "COMPLETE", .stop⟩,
    ⟨ascii "STOP_SEQUENCE", .stop⟩,
    ⟨ascii "MAX_TOKENS", .length⟩,
    ⟨ascii "TOOL_CALL", .toolCalls⟩,
    ⟨ascii "ERROR", .error⟩,
    ⟨ascii "TIMEOUT", .error⟩]

/-- `finish_of` by a table whose default is `Stop`. -/
def finishBy (rules : List FinishRule) (reason : Bytes) : Finish :=
  match rules.find? fun r => r.reason = reason with
  | some r => r.finish
  | none => .stop

/-- `candidates[0].content.parts` and the finish of a Gemini reply. -/
def geminiCandidate (v : Value) : List Value × Finish :=
  match arrayOf (v.find (ascii "candidates")) with
  | c0 :: _ =>
      (arrayOf ((c0.find (ascii "content")).bind fun content =>
          content.find (ascii "parts")),
        finishBy kGeminiFinish
          (c0.strOr (ascii "finishReason") ⟨0, ascii "STOP"⟩).bytes)
  | [] =>
      -- A prompt Gemini blocks has no candidate at all, only the reason.
      ([], match v.find (ascii "promptFeedback") with
        | some pf =>
            if (pf.strOr (ascii "blockReason")).bytes.isEmpty then .stop
            else .contentFilter
        | none => .stop)

/-- The counts of a Gemini reply and the total it states. -/
def geminiCounts (v : Value) : Usage × Int :=
  match v.find (ascii "usageMetadata") with
  | none => ({}, -1)
  | some m =>
      let n := fun k => count (m.numOr k).bytes
      let total := n (ascii "totalTokenCount")
      (geminiUsage (n (ascii "promptTokenCount")) (n (ascii "candidatesTokenCount"))
        (n (ascii "thoughtsTokenCount")) (n (ascii "cachedContentTokenCount"))
        (n (ascii "toolUsePromptTokenCount")) total, total)

/-- A message that is one text. -/
def textMessage (text : Bytes) : Bytes :=
  ascii "\"role\":\"assistant\",\"content\":" ++ quoted text

/-- `gemini_to_openai_response`. -/
def geminiToOpenaiResponse (now : Int) (body : Bytes) : Response :=
  match parseObject body with
  | none => {}
  | some v =>
      let (parts, finish) := geminiCandidate v
      match finishName finish with
      | none => {}
      | some finish =>
          let (usage, total) := geminiCounts v
          let usage := asWritten usage
          let total := if total ≤ 0 then usage.input + usage.out else total
          { ok := true
            out := completion (ascii "chatcmpl-llmbridge") (v.strOr (ascii "modelVersion")).bytes
              (textMessage (parts.flatMap blockText)) finish now usage total
            usage := usage }

/-! ## Cohere -/

/-- The counts of a Cohere reply. -/
def cohereCounts (v : Value) : Usage :=
  match (v.find (ascii "usage")).bind fun u => u.find (ascii "tokens") with
  | none => {}
  | some t =>
      { input := count (t.numOr (ascii "input_tokens")).bytes
        out := count (t.numOr (ascii "output_tokens")).bytes
        cached := count (t.numOr (ascii "cache_read_input_tokens")).bytes }

/-- `cohere_to_openai_response`. -/
def cohereToOpenaiResponse (now : Int) (body : Bytes) : Response :=
  match parseObject body with
  | none => {}
  | some v =>
      match finishName (finishBy kCohereFinish
          (v.strOr (ascii "finish_reason") ⟨0, ascii "COMPLETE"⟩).bytes) with
      | none => {}
      | some finish =>
          let usage := asWritten (cohereCounts v)
          let blocks := arrayOf ((v.find (ascii "message")).bind fun msg =>
            msg.find (ascii "content"))
          { ok := true
            out := completion (v.strOr (ascii "id") ⟨0, ascii "chatcmpl-llmbridge"⟩).bytes
              (v.strOr (ascii "model")).bytes (textMessage (textOf blocks)) finish now usage
            usage := usage }

/-! ## Errors -/

/-- `write_error`. -/
def writeError (message type : Bytes) : Bytes :=
  ascii "\x7b\"error\":\x7b\"message\":\"" ++ sanitized message ++ ascii "\",\"type\":\"" ++
    sanitized type ++ ascii "\",\"code\":null\x7d\x7d"

/-- The type and the message of an upstream's error. -/
def upstreamError (v : Value) (fallbackType : Bytes) : Bytes × Bytes :=
  let (type, message) :=
    match v.find (ascii "error") with
    | none => (fallbackType, [])
    | some (e : Value) =>
        if e.type = Json.ValueType.object then
          let t := (e.strOr (ascii "type")).bytes
          let s := (e.strOr (ascii "status")).bytes
          (if !t.isEmpty then t else if !s.isEmpty then s else fallbackType,
            (e.strOr (ascii "message")).bytes)
        else if e.type = Json.ValueType.string then (fallbackType, e.sv.bytes)
        else (fallbackType, [])
  (type, if message.isEmpty then (v.strOr (ascii "message")).bytes else message)

/-- `upstream_error_to_openai`. -/
def upstreamErrorToOpenai (body fallbackType : Bytes) : Bytes :=
  let (type, message) :=
    match parseObject body with
    | none => (fallbackType, [])
    | some v => upstreamError v fallbackType
  writeError (if message.isEmpty then ascii "upstream provider error" else message) type

end Translate
end Llmbridge
