import Llmbridge.Provider.JsonScan

/-!
# Token usage and responses in the OpenAI convention

`provider/include/provider/openai.hpp`, `provider/src/openai.cpp` and
`provider/src/openai_common.hpp`: the one shape every venue's counts map into,
and the one writer of a response object.  Counts are integers, -1 for one not
stated.
-/

namespace Llmbridge
namespace OpenAi

open Rfc8259 (Byte Bytes ascii)
open JsonScan (forEachMember forEachElement plainString count picodollars)

/-- `Usage::Word<N>`: a short word, kept only when it fits whole. -/
def word (size : Nat) (v : Bytes) : Bytes :=
  if size < v.length then [] else v

/-- `Usage::HeldAttempt`. -/
structure HeldAttempt where
  input : Int := 0
  cached : Int := 0
  cacheWrite : Int := 0
  index : Nat := 0
  deriving DecidableEq, Repr

/-- `Usage`; `input` is the source's `in`. -/
structure Usage where
  input : Int := -1
  out : Int := -1
  cached : Int := -1
  cacheWrite : Int := -1
  cacheWrite5m : Int := -1
  cacheWrite1h : Int := -1
  reasoning : Int := -1
  audioIn : Int := -1
  audioOut : Int := -1
  acceptedPrediction : Int := -1
  rejectedPrediction : Int := -1
  toolPrompt : Int := -1
  imageIn : Int := -1
  webSearch : Int := -1
  webFetch : Int := -1
  codeExec : Int := -1
  fileSearch : Int := -1
  venueCostPdollars : Int := -1
  compactionIn : Int := -1
  compactionOut : Int := -1
  compactionCached : Int := -1
  priorIn : Int := -1
  priorOut : Int := -1
  priorCached : Int := -1
  priorCacheWrite : Int := -1
  priorAttempts : Int := -1
  priorBilled : Int := -1
  priorUnverified : Int := -1
  priorModel : Bytes := []
  /-- The first `prior_held_n` entries of `prior_held`. -/
  priorHeld : List HeldAttempt := []
  speed : Bytes := []
  inferenceGeo : Bytes := []
  deriving DecidableEq, Repr

/-- `v > 0 ? v : 0`. -/
def atLeastZero (v : Int) : Int :=
  if 0 < v then v else 0

/-- `anthropic_usage`. -/
def anthropicUsage (fresh out read write w5m w1h : Int) : Usage :=
  let u : Usage :=
    { cached := atLeastZero read
      cacheWrite := atLeastZero write
      input := atLeastZero fresh + atLeastZero read + atLeastZero write
      out := out }
  if 0 ≤ w5m ∨ 0 ≤ w1h then
    { u with cacheWrite5m := atLeastZero w5m, cacheWrite1h := atLeastZero w1h }
  else u

/-- `gemini_usage`. -/
def geminiUsage (prompt candidates thoughts cached toolPrompt total : Int) : Usage :=
  let rest := total - prompt - candidates - atLeastZero toolPrompt
  let thoughts :=
    if thoughts < 0 ∧ 0 ≤ total ∧ 0 ≤ prompt ∧ 0 ≤ candidates ∧ 0 < rest then rest
    else thoughts
  { input := prompt
    out := if 0 ≤ thoughts then atLeastZero candidates + thoughts else candidates
    cached := cached
    reasoning := thoughts
    toolPrompt := toolPrompt }

/-- `as_written`. -/
def asWritten (u : Usage) : Usage :=
  { u with
    input := if u.input < 0 then 0 else u.input
    out := if u.out < 0 then 0 else u.out
    cached := if u.cached ≤ 0 then -1 else u.cached }

/-! ## Reading a usage object -/

/-- `Usage::kMaxHeld`. -/
def kMaxHeld : Nat := 4

/-- `Attempts`: one of the sums of `usage.iterations`. -/
structure Attempts where
  fresh : Int := -1
  out : Int := -1
  read : Int := -1
  write : Int := -1
  n : Nat := 0
  model : Bytes := []
  deriving DecidableEq, Repr

/-- `plus`. -/
def plus (sum v : Int) : Int :=
  if 0 ≤ v then atLeastZero sum + v else sum

/-- `Attempts::add`. -/
def Attempts.add (a : Attempts) (fresh out read write : Int) (model : Bytes) : Attempts where
  fresh := plus a.fresh fresh
  out := plus a.out out
  read := plus a.read read
  write := plus a.write write
  n := a.n + 1
  model := if a.n = 0 then model else a.model

/-- `Raw`: counts under the names each venue gives them, before any mapping. -/
structure Raw where
  prompt : Int := -1
  completion : Int := -1
  cached : Int := -1
  cacheWrite : Int := -1
  audioIn : Int := -1
  audioOut : Int := -1
  reasoning : Int := -1
  accepted : Int := -1
  rejected : Int := -1
  imageIn : Int := -1
  input : Int := -1
  output : Int := -1
  cacheRead : Int := -1
  cacheCreation : Int := -1
  w5m : Int := -1
  w1h : Int := -1
  webSearch : Int := -1
  webFetch : Int := -1
  codeExec : Int := -1
  cost : Int := -1
  gPrompt : Int := -1
  gCandidates : Int := -1
  gThoughts : Int := -1
  gCached : Int := -1
  gTool : Int := -1
  gTotal : Int := -1
  gAudioIn : Int := -1
  gAudioOut : Int := -1
  speed : Bytes := []
  geo : Bytes := []
  compaction : Attempts := {}
  declined : Attempts := {}
  outputDeclined : Attempts := {}
  held : List HeldAttempt := []
  heldOver : Nat := 0
  fallback : Bool := false
  deriving DecidableEq, Repr

/-- `Key`: an empty parent is a direct member. -/
structure Key where
  parent : String
  name : String
  set : Raw → Int → Raw
  parse : Bytes → Int := count

/-- `kUsageKeys`. -/
def kUsageKeys : List Key :=
  [ { parent := "", name := "prompt_tokens", set := fun r v => { r with prompt := v } },
    { parent := "", name := "completion_tokens",
      set := fun r v => { r with completion := v } },
    { parent := "", name := "cached_tokens", set := fun r v => { r with cached := v } },
    { parent := "prompt_tokens_details", name := "cached_tokens",
      set := fun r v => { r with cached := v } },
    { parent := "prompt_tokens_details", name := "cache_write_tokens",
      set := fun r v => { r with cacheWrite := v } },
    { parent := "prompt_tokens_details", name := "audio_tokens",
      set := fun r v => { r with audioIn := v } },
    { parent := "prompt_tokens_details", name := "image_tokens",
      set := fun r v => { r with imageIn := v } },
    { parent := "completion_tokens_details", name := "audio_tokens",
      set := fun r v => { r with audioOut := v } },
    { parent := "completion_tokens_details", name := "reasoning_tokens",
      set := fun r v => { r with reasoning := v } },
    { parent := "completion_tokens_details", name := "accepted_prediction_tokens",
      set := fun r v => { r with accepted := v } },
    { parent := "completion_tokens_details", name := "rejected_prediction_tokens",
      set := fun r v => { r with rejected := v } },
    { parent := "", name := "input_tokens", set := fun r v => { r with input := v } },
    { parent := "", name := "output_tokens", set := fun r v => { r with output := v } },
    { parent := "input_tokens_details", name := "cached_tokens",
      set := fun r v => { r with cached := v } },
    { parent := "input_tokens_details", name := "cache_write_tokens",
      set := fun r v => { r with cacheWrite := v } },
    { parent := "output_tokens_details", name := "reasoning_tokens",
      set := fun r v => { r with reasoning := v } },
    { parent := "output_tokens_details", name := "thinking_tokens",
      set := fun r v => { r with reasoning := v } },
    { parent := "", name := "cache_read_input_tokens",
      set := fun r v => { r with cacheRead := v } },
    { parent := "", name := "cache_creation_input_tokens",
      set := fun r v => { r with cacheCreation := v } },
    { parent := "cache_creation", name := "ephemeral_5m_input_tokens",
      set := fun r v => { r with w5m := v } },
    { parent := "cache_creation", name := "ephemeral_1h_input_tokens",
      set := fun r v => { r with w1h := v } },
    { parent := "server_tool_use", name := "web_search_requests",
      set := fun r v => { r with webSearch := v } },
    { parent := "server_tool_use", name := "web_fetch_requests",
      set := fun r v => { r with webFetch := v } },
    { parent := "server_tool_use", name := "code_execution_requests",
      set := fun r v => { r with codeExec := v } },
    { parent := "", name := "estimated_cost", set := fun r v => { r with cost := v },
      parse := picodollars } ]

/-- `kGeminiKeys`. -/
def kGeminiKeys : List Key :=
  [ { parent := "", name := "promptTokenCount", set := fun r v => { r with gPrompt := v } },
    { parent := "", name := "candidatesTokenCount",
      set := fun r v => { r with gCandidates := v } },
    { parent := "", name := "thoughtsTokenCount",
      set := fun r v => { r with gThoughts := v } },
    { parent := "", name := "cachedContentTokenCount",
      set := fun r v => { r with gCached := v } },
    { parent := "", name := "toolUsePromptTokenCount",
      set := fun r v => { r with gTool := v } },
    { parent := "", name := "totalTokenCount", set := fun r v => { r with gTotal := v } } ]

/-- `modality_count`. -/
def modalityCount (arr modality : Bytes) : Int :=
  (forEachElement (fun (n : Int) e =>
    let (m, c) := (forEachMember (fun (found : Bytes × Int) k v =>
      if k = ascii "modality" then ((plainString v, found.2), true)
      else if k = ascii "tokenCount" then ((found.1, count v), true)
      else (found, true)) e ([], -1)).2
    if m = modality ∧ 0 ≤ c then atLeastZero n + c else n) arr (-1)).2

/-- One entry of `usage.iterations` as its members state it. -/
structure Iteration where
  type : Bytes := []
  model : Bytes := []
  fresh : Int := -1
  out : Int := -1
  read : Int := -1
  write : Int := -1
  deriving DecidableEq, Repr

/-- One member of an entry. -/
def Iteration.member (e : Iteration) (k v : Bytes) : Iteration :=
  if k = ascii "type" then { e with type := plainString v }
  else if k = ascii "model" then { e with model := plainString v }
  else if k = ascii "input_tokens" then { e with fresh := count v }
  else if k = ascii "output_tokens" then { e with out := count v }
  else if k = ascii "cache_read_input_tokens" then { e with read := count v }
  else if k = ascii "cache_creation_input_tokens" then { e with write := count v }
  else e

/-- One entry of `usage.iterations`: a compaction pass, a declined attempt, or the
attempt the top-level counts describe. -/
def Raw.iteration (r : Raw) (e : Iteration) : Raw :=
  if e.type = ascii "compaction" then
    { r with compaction := r.compaction.add e.fresh e.out e.read e.write e.model }
  else if e.type = ascii "message" then
    let k := r.declined.n
    let r := { r with declined := r.declined.add e.fresh e.out e.read e.write e.model }
    if 0 < e.out then
      { r with
        outputDeclined := r.outputDeclined.add e.fresh e.out e.read e.write e.model }
    else if r.held.length < kMaxHeld ∧ k < 256 then
      let t := anthropicUsage e.fresh 0 e.read e.write (-1) (-1)
      { r with held := r.held ++ [{
          input := atLeastZero t.input
          cached := atLeastZero t.cached
          cacheWrite := atLeastZero t.cacheWrite
          index := k }] }
    else { r with heldOver := r.heldOver + 1 }
  else if e.type = ascii "fallback_message" then { r with fallback := true }
  else r

/-- `read_iterations`. -/
def readIterations (arr : Bytes) (r : Raw) : Raw :=
  (forEachElement (fun (r : Raw) e =>
    r.iteration (forEachMember (fun (e : Iteration) k v => (e.member k v, true)) e {}).2)
    arr r).2

/-- `read_members`; an object below a named member is read one level down, and one
below an empty name again as the top. -/
def readMembers (keys : List Key) : (levels : Nat) → (obj parent : Bytes) → Raw → Raw
  | 0, _, _, r => r
  | levels + 1, obj, parent, r =>
      (forEachMember (fun (r : Raw) k v =>
        if v.head? = some 0x7b then
          (if parent = [] then readMembers keys levels v k r else r, true)
        else if parent = [] ∧ v.head? = some 0x5b then
          (if k = ascii "iterations" then readIterations v r
          else if k = ascii "promptTokensDetails" then
            { r with gAudioIn := modalityCount v (ascii "AUDIO") }
          else if k = ascii "candidatesTokensDetails" then
            { r with gAudioOut := modalityCount v (ascii "AUDIO") }
          else r, true)
        else if parent = [] ∧ v.head? = some 0x22 then
          (if k = ascii "speed" then { r with speed := plainString v }
          else if k = ascii "inference_geo" then { r with geo := plainString v }
          else r, true)
        else
          match keys.find? fun key => ascii key.name = k ∧ ascii key.parent = parent with
          | some key => (key.set r (key.parse v), true)
          | none => (r, true)) obj r).2

/-- `extras`: what every shape may carry beside its token counts. -/
def extras (r : Raw) (u : Usage) : Usage :=
  let u :=
    { u with
      imageIn := r.imageIn
      webSearch := r.webSearch
      webFetch := r.webFetch
      codeExec := r.codeExec
      venueCostPdollars := r.cost
      speed := word 16 r.speed
      inferenceGeo := word 16 r.geo }
  let c := r.compaction
  let t := anthropicUsage c.fresh c.out c.read c.write (-1) (-1)
  let u :=
    if c.n ≠ 0 then
      { u with
        compactionIn := t.input
        compactionOut := atLeastZero t.out
        compactionCached := t.cached }
    else u
  if r.declined.n ≠ 0 ∧ r.fallback then
    let b := r.outputDeclined
    let t := if b.n ≠ 0 then anthropicUsage b.fresh b.out b.read b.write (-1) (-1) else {}
    { u with
      priorIn := atLeastZero t.input
      priorOut := atLeastZero t.out
      priorCached := atLeastZero t.cached
      priorCacheWrite := atLeastZero t.cacheWrite
      priorAttempts := r.declined.n
      priorBilled := b.n
      priorUnverified := r.heldOver
      priorHeld := r.held
      priorModel := word 48 r.declined.model }
  else u

/-- `counts`: OpenAI chat completions, the Responses API, or Anthropic. -/
def counts (r : Raw) : Usage :=
  let cacheWrite := if 0 < r.cacheWrite then r.cacheWrite else -1
  if 0 ≤ r.prompt ∨ 0 ≤ r.completion then
    { input := r.prompt
      out := r.completion
      cached := r.cached
      cacheWrite := cacheWrite
      audioIn := r.audioIn
      audioOut := r.audioOut
      reasoning := r.reasoning
      acceptedPrediction := r.accepted
      rejectedPrediction := r.rejected }
  else if r.input < 0 ∨
      (r.cacheRead < 0 ∧ r.cacheCreation < 0 ∧ (0 ≤ r.cached ∨ 0 < r.cacheWrite)) then
    { input := r.input
      out := r.output
      cached := if 0 ≤ r.input ∧ r.cached < 0 then 0 else r.cached
      cacheWrite := cacheWrite
      reasoning := r.reasoning }
  else
    { anthropicUsage r.input r.output r.cacheRead r.cacheCreation r.w5m r.w1h with
      reasoning := r.reasoning }

/-- `from_usage`. -/
def fromUsage (r : Raw) : Usage :=
  extras r (counts r)

/-- `read_usage`. -/
def readUsage (obj : Bytes) (gemini : Bool) : Usage :=
  if gemini then
    let r := readMembers kGeminiKeys (obj.length + 1) obj [] {}
    { geminiUsage r.gPrompt r.gCandidates r.gThoughts r.gCached r.gTool r.gTotal with
      audioIn := r.gAudioIn
      audioOut := r.gAudioOut }
  else fromUsage (readMembers kUsageKeys (obj.length + 1) obj [] {})

/-- `usage_of`. -/
def usageOf (object : Bytes) : Usage :=
  readUsage object false

/-- The larger of two prompt counts, as `merge_stated` keeps it. -/
def larger (old new : Int) : Int :=
  if old < new then new else old

/-- A count that the later statement gives. -/
def stated (old new : Int) : Int :=
  if 0 ≤ new then new else old

/-- `merge_stated`. -/
def mergeStated (old new : Usage) : Usage :=
  let u :=
    { old with
      input := larger old.input new.input
      cached := larger old.cached new.cached
      cacheWrite := larger old.cacheWrite new.cacheWrite
      imageIn := larger old.imageIn new.imageIn
      cacheWrite5m := if old.cacheWrite5m < 0 then new.cacheWrite5m else old.cacheWrite5m
      cacheWrite1h := if old.cacheWrite1h < 0 then new.cacheWrite1h else old.cacheWrite1h
      speed := if old.speed.isEmpty then new.speed else old.speed
      inferenceGeo := if old.inferenceGeo.isEmpty then new.inferenceGeo else old.inferenceGeo
      out := stated old.out new.out
      reasoning := stated old.reasoning new.reasoning
      audioIn := stated old.audioIn new.audioIn
      audioOut := stated old.audioOut new.audioOut
      acceptedPrediction := stated old.acceptedPrediction new.acceptedPrediction
      rejectedPrediction := stated old.rejectedPrediction new.rejectedPrediction
      toolPrompt := stated old.toolPrompt new.toolPrompt
      webSearch := stated old.webSearch new.webSearch
      webFetch := stated old.webFetch new.webFetch
      codeExec := stated old.codeExec new.codeExec
      venueCostPdollars := stated old.venueCostPdollars new.venueCostPdollars
      compactionIn := stated old.compactionIn new.compactionIn
      compactionOut := stated old.compactionOut new.compactionOut
      compactionCached := stated old.compactionCached new.compactionCached }
  if 0 ≤ new.priorAttempts then
    { u with
      priorIn := new.priorIn
      priorOut := new.priorOut
      priorCached := new.priorCached
      priorCacheWrite := new.priorCacheWrite
      priorAttempts := new.priorAttempts
      priorBilled := new.priorBilled
      priorUnverified := new.priorUnverified
      priorHeld := new.priorHeld
      priorModel := new.priorModel }
  else u

/-! ## Writing a response object -/

/-- `Shape`. -/
inductive Shape
  | completion
  | chunk
  deriving DecidableEq, Repr

/-- `Finish`. -/
inductive Finish
  | stop
  | length
  | toolCalls
  | contentFilter
  | error
  deriving DecidableEq, Repr

/-- `finish_name`; none is written for a venue's own failure. -/
def finishName : Finish → Option Bytes
  | .stop => some (ascii "stop")
  | .length => some (ascii "length")
  | .toolCalls => some (ascii "tool_calls")
  | .contentFilter => some (ascii "content_filter")
  | .error => none

/-- `FinishRule`. -/
structure FinishRule where
  reason : Bytes
  finish : Finish
  deriving DecidableEq, Repr

/-- `kAnthropicFinish`. -/
def kAnthropicFinish : List FinishRule :=
  [⟨ascii "end_turn", .stop⟩,
    ⟨ascii "stop_sequence", .stop⟩,
    ⟨ascii "pause_turn", .stop⟩,
    ⟨ascii "max_tokens", .length⟩,
    ⟨ascii "model_context_window_exceeded", .length⟩,
    ⟨ascii "tool_use", .toolCalls⟩,
    ⟨ascii "refusal", .contentFilter⟩]

/-- `finish_of` at the Anthropic row of the venue table, whose default is
`Stop`. -/
def finishOf (reason : Bytes) : Finish :=
  match kAnthropicFinish.find? fun r => r.reason = reason with
  | some r => r.finish
  | none => .stop

/-- The digits of a natural number. -/
def digits (n : Nat) : Bytes :=
  (Nat.toDigits 10 n).map fun c => c.toUInt8

/-- `std::to_chars` of a signed integer. -/
def decimal (v : Int) : Bytes :=
  if v < 0 then 0x2d :: digits v.natAbs else digits v.natAbs

/-- `append_count`. -/
def countText (v : Int) : Bytes :=
  decimal (if v < 0 then 0 else v)

/-- A hexadecimal digit of `append_sanitized`. -/
def hexDigit (n : Nat) : Byte :=
  if n < 10 then (0x30 + n).toUInt8 else (0x61 + (n - 10)).toUInt8

/-- `append_sanitized`: control bytes as `\u00XX`. -/
def sanitized (raw : Bytes) : Bytes :=
  raw.flatMap fun c =>
    if c < 0x20 then
      ascii "\\u00" ++ [hexDigit (c.toNat / 16 % 16), hexDigit (c.toNat % 16)]
    else [c]

namespace Envelope

/-- `Envelope`'s constructor: through `"choices":[`. -/
def start (shape : Shape) (id created model : Bytes) : Bytes :=
  ascii "\x7b\"id\":\"" ++ id ++
    (match shape with
      | .chunk => ascii "\",\"object\":\"chat.completion.chunk\",\"created\":"
      | .completion => ascii "\",\"object\":\"chat.completion\",\"created\":") ++
    created ++ ascii ",\"model\":\"" ++ model ++ ascii "\",\"choices\":["

/-- `choice`. -/
def choice : Shape → Bytes
  | .chunk => ascii "\x7b\"index\":0,\"delta\":\x7b"
  | .completion => ascii "\x7b\"index\":0,\"message\":\x7b"

/-- `end_choice`: an empty `finish` writes null. -/
def endChoice (finish : Bytes) : Bytes :=
  if finish.isEmpty then ascii "\x7d,\"finish_reason\":null\x7d"
  else ascii "\x7d,\"finish_reason\":\"" ++ finish ++ ascii "\"\x7d"

/-- The usage object of `close`. -/
def usageText (u : Usage) (total : Int) : Bytes :=
  let input := if u.input < 0 then 0 else u.input
  let out := if u.out < 0 then 0 else u.out
  ascii ",\"usage\":\x7b\"prompt_tokens\":" ++ countText input ++
    ascii ",\"completion_tokens\":" ++ countText out ++
    ascii ",\"total_tokens\":" ++ countText (if total < 0 then input + out else total) ++
    (if 0 < u.cached then
      ascii ",\"prompt_tokens_details\":\x7b\"cached_tokens\":" ++ countText u.cached ++
        ascii "\x7d"
    else []) ++
    (if 0 ≤ u.reasoning then
      ascii ",\"completion_tokens_details\":\x7b\"reasoning_tokens\":" ++
        countText u.reasoning ++ ascii "\x7d"
    else []) ++
    ascii "\x7d\x7d"

/-- `close`. -/
def close (usage : Option Usage) (usageNull : Bool) (total : Int := -1) : Bytes :=
  ascii "]" ++
    (match usage with
      | none => if usageNull then ascii ",\"usage\":null\x7d" else ascii "\x7d"
      | some u => usageText u total)

end Envelope

end OpenAi
end Llmbridge
