import Llmbridge.Provider.OpenAi
import Llmbridge.Provider.Json
import Llmbridge.Provider.SseFrameReader

/-!
# Anthropic's event stream as OpenAI's

`AnthropicToOpenAiSse` of `provider/include/provider/sse.hpp` and
`provider/src/sse.cpp`.  Every function gives the bytes it appends to `out`.
The clock is read at most once for one response, so what it says then is part
of the state.
-/

namespace Llmbridge

open Rfc8259 (Byte Bytes ascii isDigit)
open OpenAi (Usage Finish Shape Envelope.start Envelope.choice Envelope.endChoice
  Envelope.close decimal sanitized)

/-- `AnthropicToOpenAiSse` without its `_frames`. -/
structure SseTranslation where
  /-- An error event or a cap; sticky. -/
  failed : Bool := false
  /-- `_block_tool_ord`: block index to OpenAI ordinal, when it is a tool. -/
  blockToolOrd : List (Option Nat) := []
  nextToolOrd : Nat := 0
  /-- A tool call is open with no stop_reason yet. -/
  toolOpen : Bool := false
  id : Bytes := ascii "chatcmpl-llmbridge"
  model : Bytes := []
  /-- The first `_created_len` bytes of `_created`. -/
  created : Bytes := []
  /-- A fixed stamp, or -1 for the wall clock. -/
  createdSecs : Int := -1
  /-- The mapped stop_reason. -/
  finish : Option Bytes := none
  roleEmitted : Bool := false
  contentStarted : Bool := false
  finishEmitted : Bool := false
  done : Bool := false
  includeUsage : Bool := false
  usageEmitted : Bool := false
  /-- `_u`: every statement so far, merged. -/
  counts : Usage := {}
  /-- What `now_secs` says when it is read. -/
  clock : Int := 0
  deriving DecidableEq, Repr

namespace SseTranslation

/-- `kMaxEcho`. -/
def kMaxEcho : Nat := 256

/-- `kMaxBlocks`. -/
def kMaxBlocks : Nat := 256

/-- `usage`. -/
def usage (t : SseTranslation) : Usage :=
  { t.counts with
    input := OpenAi.atLeastZero t.counts.input
    out := OpenAi.atLeastZero t.counts.out
    cached := OpenAi.atLeastZero t.counts.cached
    cacheWrite := OpenAi.atLeastZero t.counts.cacheWrite }

/-- `ensure_created`. -/
def ensureCreated (t : SseTranslation) : SseTranslation :=
  if t.created.isEmpty then
    { t with created := decimal (if 0 ≤ t.createdSecs then t.createdSecs else t.clock) }
  else t

/-! ## Chunks -/

/-- `emit_head`, the stamp being set: through the open of the delta object. -/
def emitHead (t : SseTranslation) : Bytes :=
  ascii "data: " ++ Envelope.start .chunk t.id t.created t.model ++ Envelope.choice .chunk

/-- `emit_tail`. -/
def emitTail (t : SseTranslation) (finish : Option Bytes) : Bytes :=
  Envelope.endChoice (finish.getD []) ++ Envelope.close none t.includeUsage ++
    ascii "\n\n"

/-- `emit_head`, the members of a delta, and `emit_tail`. -/
def emitChunk (t : SseTranslation) (delta : Bytes) (finish : Option Bytes) :
    SseTranslation × Bytes :=
  let t := t.ensureCreated
  (t, t.emitHead ++ delta ++ t.emitTail finish)

/-- `emit_usage`. -/
def emitUsage (t : SseTranslation) : SseTranslation × Bytes :=
  if !t.includeUsage || t.usageEmitted then (t, [])
  else
    let t := t.ensureCreated
    ({ t with usageEmitted := true },
      ascii "data: " ++ Envelope.start .chunk t.id t.created t.model ++
        Envelope.close (some t.usage) false ++ ascii "\n\n")

/-- `emit_done`. -/
def emitDone (t : SseTranslation) : SseTranslation × Bytes :=
  if t.done then (t, [])
  else
    let (t, usage) := t.emitUsage
    ({ t with done := true }, usage ++ ascii "data: [DONE]\n\n")

/-- The chunk that carries the assistant role, when none has. -/
def emitRole (t : SseTranslation) : SseTranslation × Bytes :=
  if t.roleEmitted then (t, [])
  else
    let (t, out) := t.emitChunk (ascii "\"role\":\"assistant\"") none
    ({ t with roleEmitted := true }, out)

/-- The finish chunk: an empty delta and `finish`. -/
def emitFinish (t : SseTranslation) (finish : Option Bytes) : SseTranslation × Bytes :=
  let (t, out) := t.emitChunk [] finish
  ({ t with finishEmitted := true }, out)

/-- `emit_tool_open`. -/
def emitToolOpen (t : SseTranslation) (ord : Nat) (id name : Bytes) :
    SseTranslation × Bytes :=
  t.emitChunk
    (ascii "\"tool_calls\":[\x7b\"index\":" ++ OpenAi.digits ord ++ ascii ",\"id\":\"" ++
      sanitized id ++ ascii "\",\"type\":\"function\",\"function\":\x7b\"name\":\"" ++
      sanitized name ++ ascii "\",\"arguments\":\"\"\x7d\x7d]")
    none

/-- `emit_tool_args`. -/
def emitToolArgs (t : SseTranslation) (ord : Nat) (frag : Bytes) :
    SseTranslation × Bytes :=
  if frag.isEmpty then (t, [])
  else
    t.emitChunk
      (ascii "\"tool_calls\":[\x7b\"index\":" ++ OpenAi.digits ord ++
        ascii ",\"function\":\x7b\"arguments\":\"" ++ sanitized frag ++ ascii "\"\x7d\x7d]")
      none

/-- `default_finish`. -/
def defaultFinish (t : SseTranslation) : Bytes :=
  if 0 < t.nextToolOrd then ascii "tool_calls" else ascii "stop"

/-! ## Events -/

/-- `std::from_chars` of a whole signed 64-bit integer. -/
def fromChars (s : Bytes) : Option Int :=
  let negative := s.head? = some 0x2d
  let digits := if negative then s.tail else s
  if digits.isEmpty ∨ digits.all isDigit = false then none
  else
    let n : Nat := digits.foldl (fun v c => v * 10 + JsonScan.digitValue c) 0
    if negative then if n ≤ 2 ^ 63 then some (-(n : Int)) else none
    else if n < 2 ^ 63 then some n else none

/-- `parse_block_index`: -1 for anything but a whole number in range. -/
def parseBlockIndex (v : Json.Value) : Int :=
  (fromChars (v.numOr (ascii "index")).bytes).getD (-1)

/-- `tool_ordinal_for`: none is the source's -1. -/
def toolOrdinalFor (t : SseTranslation) (blockIndex : Int) : Option Nat :=
  if blockIndex < 0 ∨ kMaxBlocks ≤ blockIndex.toNat then none
  else (t.blockToolOrd[blockIndex.toNat]?).join

/-- A usage statement, when the event makes one. -/
def mergeUsage (t : SseTranslation) (v : Json.Value) : SseTranslation :=
  match v.find (ascii "usage") with
  | some u => { t with counts := OpenAi.mergeStated t.counts (OpenAi.usageOf u.sv.bytes) }
  | none => t

/-- `[DONE]`, which is not Anthropic's. -/
def onDone (t : SseTranslation) : SseTranslation × Bytes :=
  if t.toolOpen then (t, [])
  else
    let (t, finish) :=
      if t.finishEmitted then (t, []) else t.emitFinish (some (t.finish.getD t.defaultFinish))
    let (t, done) := t.emitDone
    (t, finish ++ done)

/-- The id and the model of `message_start`, and its usage. -/
def startMessage (t : SseTranslation) (m : Json.Value) : SseTranslation :=
  let id := (m.strOr (ascii "id")).bytes
  let model := (m.strOr (ascii "model")).bytes
  if kMaxEcho < id.length ∨ kMaxEcho < model.length then { t with failed := true }
  else
    let t := if id.isEmpty then t else { t with id := sanitized id }
    ({ t with model := sanitized model } : SseTranslation).mergeUsage m

/-- `message_start`. -/
def onMessageStart (t : SseTranslation) (v : Json.Value) : SseTranslation × Bytes :=
  let t := match v.find (ascii "message") with
    | some m => t.startMessage m
    | none => t
  if t.failed then (t, []) else t.ensureCreated.emitRole

/-- `content_block_delta`. -/
def onBlockDelta (t : SseTranslation) (v : Json.Value) : SseTranslation × Bytes :=
  match v.find (ascii "delta") with
  | none => (t, [])
  | some d =>
      let type := (d.strOr (ascii "type")).bytes
      if type = ascii "input_json_delta" then
        match t.toolOrdinalFor (parseBlockIndex v) with
        | some ord => t.emitToolArgs ord (d.strOr (ascii "partial_json")).bytes
        | none => (t, [])
      else if type = ascii "text_delta" then
        let (t, role) := t.emitRole
        let (t, text) := t.emitChunk
          (ascii "\"content\":\"" ++ sanitized (d.strOr (ascii "text")).bytes ++ ascii "\"") none
        ({ t with contentStarted := true }, role ++ text)
      else (t, [])

/-- The stop_reason of `message_delta`, when it has one. -/
def stopReason (v : Json.Value) : Bytes :=
  match v.find (ascii "delta") with
  | some d => (d.strOr (ascii "stop_reason")).bytes
  | none => []

/-- What a stop_reason sets. -/
def stop (t : SseTranslation) (reason : Bytes) : SseTranslation :=
  if reason.isEmpty then t
  else if OpenAi.finishOf reason = .error then { t with failed := true }
  else { t with finish := OpenAi.finishName (OpenAi.finishOf reason), toolOpen := false }

/-- `message_delta`. -/
def onMessageDelta (t : SseTranslation) (v : Json.Value) : SseTranslation × Bytes :=
  let t := t.stop (stopReason v)
  if t.failed then (t, [])
  else
    let t := t.mergeUsage v
    if t.finish.isSome && !t.finishEmitted then t.emitFinish t.finish else (t, [])

/-- `message_stop`. -/
def onMessageStop (t : SseTranslation) : SseTranslation × Bytes :=
  let t := { t with toolOpen := false }
  let (t, finish) :=
    if t.finishEmitted then (t, []) else t.emitFinish (some (t.finish.getD t.defaultFinish))
  let (t, done) := t.emitDone
  (t, finish ++ done)

/-- The ordinal of a new call at a block. -/
def openBlock (t : SseTranslation) (idx : Nat) : SseTranslation :=
  let padded := t.blockToolOrd ++ List.replicate (idx + 1 - t.blockToolOrd.length) none
  { t with
    blockToolOrd := padded.set idx (some t.nextToolOrd)
    nextToolOrd := t.nextToolOrd + 1
    toolOpen := true }

/-- `content_block_start`. -/
def onBlockStart (t : SseTranslation) (v : Json.Value) : SseTranslation × Bytes :=
  match v.find (ascii "content_block") with
  | none => (t, [])
  | some b =>
      let name := (b.strOr (ascii "name")).bytes
      let idx := parseBlockIndex v
      if (b.strOr (ascii "type")).bytes ≠ ascii "tool_use" ∨ name.isEmpty ∨
          kMaxBlocks ≤ t.nextToolOrd ∨ idx < 0 ∨ kMaxBlocks ≤ idx.toNat then (t, [])
      else
        let ord := t.nextToolOrd
        let t := t.openBlock idx.toNat
        let (t, role) := t.emitRole
        let (t, call) := t.emitToolOpen ord (b.strOr (ascii "id")).bytes name
        ({ t with contentStarted := true }, role ++ call)

/-- `dispatch` behind the parse. -/
def onEvent (t : SseTranslation) (v : Json.Value) : SseTranslation × Bytes :=
  let type := (v.strOr (ascii "type")).bytes
  if type = ascii "error" then ({ t with failed := true }, [])
  else if type = ascii "message_start" then t.onMessageStart v
  else if type = ascii "content_block_delta" then t.onBlockDelta v
  else if type = ascii "message_delta" then t.onMessageDelta v
  else if type = ascii "message_stop" then t.onMessageStop
  else if type = ascii "content_block_start" then t.onBlockStart v
  else (t, [])

/-- `dispatch`. -/
def dispatch (t : SseTranslation) (data : Bytes) : SseTranslation × Bytes :=
  if data = ascii "[DONE]" then t.onDone
  else
    let (v, ok) := Json.parse data .unique
    if ok = false ∨ v.type ≠ .object then (t, []) else t.onEvent v

/-- `finish`. -/
def finishStream (t : SseTranslation) : Bool × SseTranslation × Bytes :=
  if t.failed || !(t.done || t.finish.isSome) then (false, t, [])
  else if t.done then (true, t, [])
  else
    let (t, finish) := if t.finishEmitted then (t, []) else t.emitFinish t.finish
    let (t, done) := t.emitDone
    (true, t, finish ++ done)

end SseTranslation

/-! ## The stream -/

/-- `AnthropicToOpenAiSse`. -/
structure AnthropicToOpenAiSse where
  frames : SseFrameReader := {}
  translation : SseTranslation := {}
  deriving DecidableEq, Repr

namespace AnthropicToOpenAiSse

open SseTranslation

/-- `reset`, with the clock's reading if it will be read. -/
def reset (createdSecs : Int) (includeUsage : Bool) (clock : Int) : AnthropicToOpenAiSse where
  translation := { createdSecs := createdSecs, includeUsage := includeUsage, clock := clock }

/-- The loop of `feed`, at most `rounds` rounds of it. -/
def feedLoop : Nat → AnthropicToOpenAiSse → Bool × AnthropicToOpenAiSse × Bytes
  | 0, x => (!x.translation.failed, x, [])
  | rounds + 1, x =>
      match x.frames.next with
      | (.event data, frames) =>
          let (t, out) := x.translation.dispatch data
          if t.failed then (false, ⟨frames, t⟩, out)
          else if t.done then (true, ⟨frames.stop, t⟩, out)
          else
            let (ok, x, more) := feedLoop rounds ⟨frames, t⟩
            (ok, x, out ++ more)
      | (.fail, frames) => (false, ⟨frames, { x.translation with failed := true }⟩, [])
      | (.more, frames) => (!x.translation.failed, ⟨frames, x.translation⟩, [])

/-- `feed`: every round of its loop but the last passes a byte. -/
def feed (x : AnthropicToOpenAiSse) (bytes : Bytes) : Bool × AnthropicToOpenAiSse × Bytes :=
  if x.translation.failed then (false, x, [])
  else if x.translation.done then (true, x, [])
  else feedLoop (bytes.length + 1) ⟨x.frames.feed bytes, x.translation⟩

/-- `finish`. -/
def finish (x : AnthropicToOpenAiSse) : Bool × AnthropicToOpenAiSse × Bytes :=
  let (ok, t, out) := x.translation.finishStream
  (ok, ⟨x.frames, t⟩, out)

/-- Pieces fed in turn, whatever the calls answer, and all that they append. -/
def feedAll (x : AnthropicToOpenAiSse) : List Bytes → AnthropicToOpenAiSse × Bytes
  | [] => (x, [])
  | piece :: rest =>
      let (_, x, out) := x.feed piece
      let (x, more) := x.feedAll rest
      (x, out ++ more)

end AnthropicToOpenAiSse

end Llmbridge
