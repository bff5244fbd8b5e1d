import Llmbridge.Provider.Content
import Llmbridge.Provider.JsonScan
import Llmbridge.Rfc8259.Build

/-!
# Request translators

`provider/src/translate_anthropic.cpp`, `translate_gemini.cpp` and
`translate_cohere.cpp`: an OpenAI body, parsed, as the body of a venue of another
dialect.  A translator that refuses leaves an empty body.
-/

namespace Llmbridge
namespace Translate

open Rfc8259 (Byte Bytes ascii quoted commaJoin)
open Json (Value View unescapeString)

/-- What a request translator takes and writes: `RequestOut`. -/
structure RequestOut where
  body : Bytes := []
  /-- When set, it replaces the client's model. -/
  model : Bytes := []
  includeUsage : Bool := false
  deriving DecidableEq, Repr

/-! ## Anthropic and Bedrock -/

/-- The `type` and the `name` of `append_tool_choice`. -/
def toolChoice : Option Value → Bytes × Bytes
  | none => ([], [])
  | some tc =>
      if tc.type = .string then
        (if tc.sv.bytes = ascii "auto" then ascii "auto"
          else if tc.sv.bytes = ascii "required" then ascii "any"
          else if tc.sv.bytes = ascii "none" then ascii "none" else [], [])
      else
        match tc.find (ascii "function") with
        | none => ([], [])
        | some f =>
            let name := (f.strOr (ascii "name")).bytes
            (if name.isEmpty then [] else ascii "tool", name)

/-- `append_tool_choice`. -/
def appendToolChoice (tc parallel : Option Value) : Bytes :=
  let (type, name) := toolChoice tc
  let serial := parallel.any (fun p => p.type = .bool && !p.boolean) &&
    type != ascii "none"
  if type.isEmpty ∧ serial = false then []
  else
    ascii ",\"tool_choice\":\x7b\"type\":\"" ++
      (if type.isEmpty then ascii "auto" else type) ++ ascii "\"" ++
      (if name.isEmpty then [] else ascii ",\"name\":" ++ quoted name) ++
      (if serial then ascii ",\"disable_parallel_tool_use\":true" else []) ++
      ascii "\x7d"

/-- The span of a breakpoint beside a tool, the function's own first. -/
def toolCacheControl (tool fn : Value) : Bytes :=
  match (fn.find (ascii "cache_control")).filter fun cc => cc.type = .object with
  | some cc => cc.sv.bytes
  | none =>
      match (tool.find (ascii "cache_control")).filter fun cc => cc.type = .object with
      | some cc => cc.sv.bytes
      | none => []

/-- A tool's schema, byte for byte; the empty object for one with no arguments. -/
def inputSchema (fn : Value) : Bytes :=
  match (fn.find (ascii "parameters")).filter fun p =>
      (p.type = .object || p.type = .array) && !p.sv.bytes.isEmpty with
  | some params => params.sv.bytes
  | none => ascii "\x7b\"type\":\"object\",\"properties\":\x7b\x7d\x7d"

/-- One declaration of `append_tools`; none for a tool it leaves out. -/
def toolDeclaration (tool : Value) : Option Bytes :=
  match (tool.find (ascii "function")).filter fun fn => fn.type = .object with
  | none => none
  | some fn =>
      let name := (fn.strOr (ascii "name")).bytes
      if name.isEmpty then none
      else
        let d := (fn.strOr (ascii "description")).bytes
        let cc := toolCacheControl tool fn
        some (ascii "\x7b\"name\":" ++ quoted name ++
          (if d.isEmpty then [] else ascii ",\"description\":" ++ quoted d) ++
          ascii ",\"input_schema\":" ++ inputSchema fn ++
          (if cc.isEmpty then [] else ascii ",\"cache_control\":" ++ cc) ++
          ascii "\x7d")

/-- `append_tools`. -/
def appendTools (body : Value) : Bytes :=
  match (body.find (ascii "tools")).filter fun tools => tools.type = .array with
  | none => []
  | some tools =>
      let declared := tools.arr.filterMap toolDeclaration
      if declared.isEmpty then []
      else
        ascii ",\"tools\":[" ++ commaJoin declared ++ ascii "]" ++
          appendToolChoice (body.find (ascii "tool_choice"))
            (body.find (ascii "parallel_tool_calls"))

/-- `append_arguments`: the decoded arguments, when they are one object. -/
def appendArguments (raw : Bytes) : Option Bytes :=
  let input := unescapeString raw
  if input.isEmpty then some (ascii "\x7b\x7d")
  else
    let (value, ok) := Json.parse input
    if ok ∧ value.type = .object then some input else none

/-- What `unit_interval` has read of the digits before an exponent. -/
structure UnitScan where
  /-- The power of ten of the first significant digit. -/
  pos : Int := 0
  /-- That digit; 0 while every digit so far is zero. -/
  lead : Byte := 0
  /-- A non-zero digit after it. -/
  tail : Bool := false
  place : Int
  deriving DecidableEq, Repr

/-- One byte of the digits. -/
def UnitScan.byte (s : UnitScan) (c : Byte) : UnitScan :=
  if c = 0x2e then s
  else
    { s with
      tail := s.tail || (c != 0x30 && s.lead != 0)
      lead := if c ≠ 0x30 ∧ s.lead = 0 then c else s.lead
      pos := if c ≠ 0x30 ∧ s.lead = 0 then s.place else s.pos
      place := s.place - 1 }

/-- One byte behind the `e`: the exponent and whether it is negative. -/
def exponentByte (e : Int × Bool) (c : Byte) : Int × Bool :=
  if c = 0x2d then (e.1, true)
  else if c ≠ 0x2b ∧ e.1 < 100000 then (e.1 * 10 + ((c.toNat : Int) - 0x30), e.2)
  else e

/-- `unit_interval`: whether a JSON number lies in [0, 1], read off its digits. -/
def unitInterval (n : Bytes) : Bool :=
  let negative := n.head? = some 0x2d
  let n := if negative then n.tail else n
  let intEnd := (n.takeWhile fun c => c != 0x2e && c != 0x65 && c != 0x45).length
  let mantissa := n.takeWhile fun c => c != 0x65 && c != 0x45
  let s := mantissa.foldl UnitScan.byte { place := (intEnd : Int) - 1 }
  let (exp, expNegative) :=
    ((n.drop (mantissa.length + 1)).foldl exponentByte (0, false))
  if s.lead = 0 then true
  else if negative then false
  else
    let pos := s.pos + (if expNegative then -exp else exp)
    pos < 0 || (pos == 0 && s.lead == 0x31 && !s.tail)

/-- `Param`. -/
inductive Param
  | unit
  | number
  | stops
  | true
  deriving DecidableEq, Repr

/-- `ParamRule`; `source` and `target` are the source's `from` and `to`. -/
structure ParamRule where
  source : Bytes
  target : Bytes
  kind : Param
  deriving DecidableEq, Repr

/-- `kParams`. -/
def kParams : List ParamRule :=
  [⟨ascii "temperature", ascii "temperature", .unit⟩,
    ⟨ascii "top_p", ascii "top_p", .number⟩,
    ⟨ascii "stop", ascii "stop_sequences", .stops⟩,
    ⟨ascii "stream", ascii "stream", .true⟩]

/-- The elements of a `stop` array, each quoted. -/
def stopStrings : List Value → Option (List Bytes)
  | [] => some []
  | s :: rest =>
      if s.type = .string then (stopStrings rest).map fun more => quoted s.sv.bytes :: more
      else none

/-- The value `append_params` writes for a rule: `some none` leaves the parameter
out, and `none` refuses the request. -/
def paramValue (kind : Param) (p : Value) : Option (Option Bytes) :=
  match kind with
  | .true => some (if p.type = .bool ∧ p.boolean = true then some (ascii "true") else none)
  | .number => some (if p.type = .number then some p.sv.bytes else none)
  | .unit =>
      if p.type ≠ .number then some none
      else if unitInterval p.sv.bytes then some (some p.sv.bytes)
      else none
  | .stops =>
      if p.type = .null then some none
      else if p.type = .string then some (some (ascii "[" ++ quoted p.sv.bytes ++ ascii "]"))
      else if p.type ≠ .array then none
      else if p.arr = [] then some none
      else
        (stopStrings p.arr).map fun strings =>
          some (ascii "[" ++ commaJoin strings ++ ascii "]")

/-- The loop of `append_params`. -/
def paramsLoop (body : Value) : List ParamRule → Option Bytes
  | [] => some []
  | r :: rest =>
      match body.find r.source with
      | none => paramsLoop body rest
      | some p =>
          match paramValue r.kind p with
          | none => none
          | some none => paramsLoop body rest
          | some (some value) =>
              (paramsLoop body rest).map fun more =>
                ascii ",\"" ++ r.target ++ ascii "\":" ++ value ++ more

/-- `append_params`. -/
def appendParams (body : Value) : Option Bytes :=
  paramsLoop body kParams

/-- The breakpoints of one system message, the last one kept. -/
def systemPartsCache : List Value → (cache : Bytes) → Option Bytes
  | [], cache => some cache
  | part :: rest, cache =>
      match partCacheControl part with
      | none => none
      | some cc => systemPartsCache rest (if cc.isEmpty then cache else cc)

/-- The first loop of `append_system`: the breakpoint of the joined text. -/
def systemCache : List Value → (cache : Bytes) → Option Bytes
  | [], cache => some cache
  | m :: rest, cache =>
      match (m.find (ascii "content")).filter fun c => c.type = .array with
      | none => systemCache rest cache
      | some c =>
          match systemPartsCache c.arr cache with
          | none => none
          | some cache => systemCache rest cache

/-- The second loop of `append_system`: the texts, joined by an escaped newline. -/
def systemTexts : List Value → (first : Bool) → Option Bytes
  | [], _ => some []
  | m :: rest, first =>
      match appendText (m.find (ascii "content")) with
      | none => none
      | some text =>
          (systemTexts rest false).map fun more =>
            (if first then [] else ascii "\\n") ++ text ++ more

/-- The system and developer messages. -/
def systemMessages (msgs : List Value) : List Value :=
  msgs.filter fun m => isSystemRole (m.strOr (ascii "role")).bytes

/-- `append_system`. -/
def appendSystem (msgs : List Value) : Option Bytes :=
  let system := systemMessages msgs
  match systemCache system [] with
  | none => none
  | some cache =>
      if system.isEmpty then some []
      else
        (systemTexts system true).map fun text =>
          if cache.isEmpty then ascii ",\"system\":" ++ quoted text
          else
            ascii ",\"system\":[\x7b\"type\":\"text\",\"text\":" ++ quoted text ++
              ascii ",\"cache_control\":" ++ cache ++ ascii "\x7d]"

/-- `AnthropicTurns`. -/
structure AnthropicTurns where
  out : Bytes := []
  first : Bool := true
  /-- Merging consecutive tool messages. -/
  inResults : Bool := false
  deriving DecidableEq, Repr

namespace AnthropicTurns

/-- `out += text`. -/
def write (t : AnthropicTurns) (text : Bytes) : AnthropicTurns :=
  { t with out := t.out ++ text }

/-- `close_results`. -/
def closeResults (t : AnthropicTurns) : AnthropicTurns :=
  { t with
    out := t.out ++ (if t.inResults then ascii "]\x7d" else [])
    inResults := false }

/-- `open`. -/
def «open» (t : AnthropicTurns) (head : Bytes) : AnthropicTurns :=
  let t := t.closeResults
  { t with out := t.out ++ (if t.first then [] else ascii ",") ++ head, first := false }

/-- `turn`. -/
def turn (t : AnthropicTurns) (assistant : Bool) (content : Option Value) :
    Option AnthropicTurns :=
  (appendContent content).map fun text =>
    (t.open (if assistant then ascii "\x7b\"role\":\"assistant\",\"content\":"
      else ascii "\x7b\"role\":\"user\",\"content\":")).write (text ++ ascii "\x7d")

/-- `tool_result`. -/
def toolResult (t : AnthropicTurns) (m : Value) (content : Option Value) :
    Option AnthropicTurns :=
  (appendText content).map fun text =>
    let t := if t.inResults then t.write (ascii ",")
      else t.open (ascii "\x7b\"role\":\"user\",\"content\":[")
    { t with
      inResults := true
      out := t.out ++
        (ascii "\x7b\"type\":\"tool_result\",\"tool_use_id\":" ++
          quoted (m.strOr (ascii "tool_call_id")).bytes ++
          ascii ",\"content\":" ++ quoted text ++ ascii "\x7d") }

/-- The block of one call: `some none` for a call without a name, which is left
out, and `none` when its arguments are refused. -/
def toolUse (call : Value) : Option (Option Bytes) :=
  match call.find (ascii "function") with
  | none => some none
  | some fn =>
      let name := (fn.strOr (ascii "name")).bytes
      if name.isEmpty then some none
      else
        (appendArguments (fn.strOr (ascii "arguments")).bytes).map fun input =>
          some (ascii "\x7b\"type\":\"tool_use\",\"id\":" ++
            quoted (call.strOr (ascii "id")).bytes ++ ascii ",\"name\":" ++ quoted name ++
            ascii ",\"input\":" ++ input ++ ascii "\x7d")

/-- The loop of `tool_calls`, `any` being whether a block came before. -/
def toolUses : List Value → (any : Bool) → Option Bytes
  | [], _ => some []
  | call :: rest, any =>
      match toolUse call with
      | none => none
      | some none => toolUses rest any
      | some (some block) =>
          (toolUses rest true).map fun more =>
            (if any then ascii "," else []) ++ block ++ more

/-- `tool_calls`: optional text, then one block per call. -/
def toolCalls (t : AnthropicTurns) (content : Option Value) (calls : Value) :
    Option AnthropicTurns :=
  match appendText content with
  | none => none
  | some text =>
      (toolUses calls.arr (!text.isEmpty)).map fun blocks =>
        (t.open (ascii "\x7b\"role\":\"assistant\",\"content\":[")).write
          ((if text.isEmpty then []
            else ascii "\x7b\"type\":\"text\",\"text\":" ++ quoted text ++ ascii "\x7d") ++
            blocks ++ ascii "]\x7d")

/-- The hooks of `AnthropicTurns`; system messages are hoisted by `append_system`. -/
def hooks : Hooks AnthropicTurns where
  system := fun t _ => some t
  turn := turn
  toolCalls := some toolCalls
  toolResult := some toolResult

end AnthropicTurns

/-- `stream_options.include_usage`, as a translator reads it. -/
def includeUsageOf (v : Value) : Bool :=
  match (v.find (ascii "stream_options")).filter fun so => so.type = .object with
  | none => false
  | some so =>
      (so.find (ascii "include_usage")).any fun iu => iu.type = .bool && iu.boolean

/-- The `messages` a translator goes over, when they are an array. -/
def messagesOf (v : Value) : Option (List Value) :=
  ((v.find (ascii "messages")).filter fun msgs => msgs.type = .array).map Value.arr

/-- The model a translator asks for. -/
def modelFor (v : Value) (o : RequestOut) : Bytes :=
  if o.model.isEmpty then (v.strOr (ascii "model")).bytes else o.model

/-- The body of `messages_request`, none when it refuses. -/
def messagesBody (v : Value) (bedrock : Bool) (model : Bytes) : Option Bytes :=
  match messagesOf v with
  | none => none
  | some msgs =>
      if model.isEmpty then none
      else
        match appendSystem msgs, appendParams v,
            walkMessages AnthropicTurns.hooks {} msgs with
        | some system, some params, some turns =>
            some ((if bedrock then ascii "\x7b\"anthropic_version\":\"bedrock-2023-05-31\""
                else ascii "\x7b\"model\":" ++ quoted model) ++
              ascii ",\"max_tokens\":" ++ maxTokensOf v (ascii "1024") ++ system ++
              params ++ appendTools v ++ ascii ",\"messages\":[" ++ turns.closeResults.out ++
              ascii "]\x7d")
        | _, _, _ => none

/-- Success with the body, or failure with none. -/
def RequestOut.settle (o : RequestOut) : Option Bytes → Bool × RequestOut
  | none => (false, { o with body := [] })
  | some body => (true, { o with body := body })

/-- `messages_request`. -/
def messagesRequest (v : Value) (bedrock : Bool) (o : RequestOut) : Bool × RequestOut :=
  if v.type ≠ .object then (false, { o with body := [] })
  else
    { o with includeUsage := includeUsageOf v }.settle
      (messagesBody v bedrock (modelFor v o))

/-- `anthropic_request`. -/
def anthropicRequest (v : Value) (o : RequestOut) : Bool × RequestOut :=
  messagesRequest v false o

/-- `bedrock_request`. -/
def bedrockRequest (v : Value) (o : RequestOut) : Bool × RequestOut :=
  messagesRequest v true o

/-! ## Gemini -/

/-- `GeminiTurns`. -/
structure GeminiTurns where
  out : Bytes := []
  /-- The collected system content. -/
  sys : Bytes := []
  first : Bool := true
  deriving DecidableEq, Repr

namespace GeminiTurns

/-- `system`. -/
def system (t : GeminiTurns) (content : Option Value) : Option GeminiTurns :=
  (appendText content).map fun text =>
    if text.isEmpty then t
    else { t with sys := t.sys ++ (if t.sys.isEmpty then [] else ascii "\\n") ++ text }

/-- `turn`: one with no text is skipped. -/
def turn (t : GeminiTurns) (assistant : Bool) (content : Option Value) :
    Option GeminiTurns :=
  (appendText content).map fun text =>
    if text.isEmpty then t
    else
      { t with
        out := t.out ++ (if t.first then [] else ascii ",") ++
          (if assistant then ascii "\x7b\"role\":\"model\",\"parts\":[\x7b\"text\":"
            else ascii "\x7b\"role\":\"user\",\"parts\":[\x7b\"text\":") ++
          quoted text ++ ascii "\x7d]\x7d"
        first := false }

/-- The hooks of `GeminiTurns`: none for tools. -/
def hooks : Hooks GeminiTurns where
  system := system
  turn := turn

end GeminiTurns

/-- A member of `generationConfig`, when the request sets it. -/
def configMember (key value : Bytes) : List Bytes :=
  if value.isEmpty then [] else [ascii "\"" ++ key ++ ascii "\":" ++ value]

/-- `generationConfig`: the keys the request set. -/
def generationConfig (v : Value) : Bytes :=
  let members := configMember (ascii "maxOutputTokens") (maxTokensOf v) ++
    configMember (ascii "temperature") (v.numOr (ascii "temperature")).bytes ++
    configMember (ascii "topP") (v.numOr (ascii "top_p")).bytes
  if members.isEmpty then []
  else ascii ",\"generationConfig\":\x7b" ++ commaJoin members ++ ascii "\x7d"

/-- `gemini_request`. -/
def geminiRequest (v : Value) (o : RequestOut) : Bool × RequestOut :=
  if v.type ≠ .object then (false, { o with body := [] })
  else
    o.settle (match messagesOf v with
      | none => none
      | some msgs =>
          if declaresTools v then none
          else
            (walkMessages GeminiTurns.hooks {} msgs).map fun turns =>
              ascii "\x7b\"contents\":[" ++ turns.out ++ ascii "]" ++
                (if turns.sys.isEmpty then []
                  else ascii ",\"systemInstruction\":\x7b\"parts\":[\x7b\"text\":" ++
                    quoted turns.sys ++ ascii "\x7d]\x7d") ++
                generationConfig v ++ ascii "\x7d")

/-! ## Cohere -/

/-- `CohereTurns`. -/
structure CohereTurns where
  out : Bytes := []
  first : Bool := true
  deriving DecidableEq, Repr

namespace CohereTurns

/-- `put`. -/
def put (t : CohereTurns) (role : Bytes) (content : Option Value) : Option CohereTurns :=
  (appendText content).map fun text =>
    { t with
      out := t.out ++ (if t.first then [] else ascii ",") ++
        (ascii "\x7b\"role\":\"" ++ role ++ ascii "\",\"content\":" ++ quoted text ++
          ascii "\x7d")
      first := false }

/-- The hooks of `CohereTurns`: none for tools. -/
def hooks : Hooks CohereTurns where
  system := fun t content => t.put (ascii "system") content
  turn := fun t assistant content =>
    t.put (if assistant then ascii "assistant" else ascii "user") content

end CohereTurns

/-- A number the request sets, under the venue's key. -/
def numberMember (key value : Bytes) : Bytes :=
  if value.isEmpty then [] else ascii ",\"" ++ key ++ ascii "\":" ++ value

/-- `cohere_request`. -/
def cohereRequest (v : Value) (o : RequestOut) : Bool × RequestOut :=
  if v.type ≠ .object then (false, { o with body := [] })
  else
    let model := modelFor v o
    o.settle (match messagesOf v with
      | none => none
      | some msgs =>
          if model.isEmpty ∨ declaresTools v then none
          else
            (walkMessages CohereTurns.hooks {} msgs).map fun turns =>
              ascii "\x7b\"model\":" ++ quoted model ++ ascii ",\"messages\":[" ++ turns.out ++
                ascii "]" ++ numberMember (ascii "max_tokens") (maxTokensOf v) ++
                numberMember (ascii "temperature") (v.numOr (ascii "temperature")).bytes ++
                numberMember (ascii "p") (v.numOr (ascii "top_p")).bytes ++ ascii "\x7d")

/-! ## The four translators -/

/-- The request translators that rewrite a body. -/
inductive Translator
  | anthropic
  | bedrock
  | gemini
  | cohere
  deriving DecidableEq, Repr

/-- `VenueSpec::request` of the translator's venue. -/
def Translator.request : Translator → Value → RequestOut → Bool × RequestOut
  | .anthropic => anthropicRequest
  | .bedrock => bedrockRequest
  | .gemini => geminiRequest
  | .cohere => cohereRequest

/-- `kOpaqueRequestMembers`. -/
def kOpaqueRequestMembers : List Bytes := [ascii "parameters"]

/-- A client's body parsed and translated, `model` being the route's override.
`parse_request_body` leaves out the children of `kOpaqueRequestMembers`, the
whole-body functions of Gemini and Cohere those of none. -/
def Translator.translate (t : Translator) (opaqueNames : List Bytes) (body model : Bytes) :
    Bool × RequestOut :=
  let (v, ok) := Json.parse body .unique opaqueNames
  if ok then t.request v { model := model } else (false, { model := model })

end Translate
end Llmbridge
