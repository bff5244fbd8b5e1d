import Llmbridge.Gateway.GeminiEvents
import Llmbridge.Http1.Rendering
import Llmbridge.Provider.SseWellFormed
import Llmbridge.Provider.StreamUsage

/-!
# A streaming step

`gateway/src/stream.hpp` and the stream's life of `gateway/src/core/stream.cpp`: the
venue's framing is taken off, the bytes are translated or forwarded, and what is written
is framed for the client.
-/

namespace Llmbridge
namespace Gateway

open Rfc8259 (Byte Bytes ascii)
open Http (Body ChunkDecoder)
open Http1 (crlf hexText)
open OpenAi (StreamUsage)
open JsonScan (memmem)

/-! ## Markers -/

/-- The loop of `sse_carries_first_token`; none when it ends without an answer. -/
def firstTokenLoop (s : Bytes) : (fuel start : Nat) → Option Bool
  | 0, _ => none
  | fuel + 1, start =>
      match memmem s (ascii "\"content\":\"") start with
      | none => none
      | some pos =>
          let v := pos + (ascii "\"content\":\"").length
          if s.length ≤ v then some false
          else if s[v]? ≠ some 0x22 then some true
          else firstTokenLoop s fuel (pos + 1)

/-- `sse_carries_first_token`. -/
def sseCarriesFirstToken (s : Bytes) : Bool :=
  (firstTokenLoop s (s.length + 1) 0).getD
    ((memmem s (ascii "\"text_delta\"") 0).isSome ||
      (memmem s (ascii "\"type\":\"tool_use\"") 0).isSome ||
      (memmem s (ascii "\"tool_calls\"") 0).isSome)

/-- The loop of `sse_carries_thinking`. -/
def thinkingLoop (s : Bytes) : (fuel start : Nat) → Bool
  | 0, _ => false
  | fuel + 1, start =>
      match memmem s (ascii "\"reasoning") start with
      | none => false
      | some pos =>
          let v := pos + (ascii "\"reasoning").length
          let long := ascii "_content\":"
          let short := ascii "\":"
          if (s.drop v).take long.length = long ∨ (s.drop v).take short.length = short then
            let v := v + if (s.drop v).take long.length = long then long.length else short.length
            let v := v + ((s.drop v).takeWhile fun c => c = 0x20 ∨ c = 0x09).length
            if s.length ≤ v then false
            else if s[v]? ≠ some 0x22 then thinkingLoop s fuel (pos + 1)
            else if v + 1 < s.length ∧ s[v + 1]? ≠ some 0x22 then true
            else thinkingLoop s fuel (pos + 1)
          else if s.length < v + long.length then false
          else thinkingLoop s fuel (pos + 1)

/-- `sse_carries_thinking`. -/
def sseCarriesThinking (s : Bytes) : Bool :=
  (memmem s (ascii "\"thinking_delta\"") 0).isSome ||
    (memmem s (ascii "\"redacted_thinking\"") 0).isSome || thinkingLoop s (s.length + 1) 0

/-! ## The client's framing -/

/-- `chunk_wrap`: what stands in `out` from `pos` on becomes one chunk. -/
def chunkWrap (chunkedOut : Bool) (out : Bytes) (pos : Nat) : Bytes :=
  if chunkedOut = false ∨ out.length ≤ pos then out
  else out.take pos ++ (hexText (out.length - pos) ++ crlf) ++ out.drop pos ++ crlf

/-- `chunk_terminate`. -/
def chunkTerminate (chunkedOut : Bool) (out : Bytes) : Bytes :=
  if chunkedOut then out ++ ascii "0\r\n\r\n" else out

/-! ## The venue's framing -/

/-- How the venue frames a stream's body, and how far it is read. -/
structure Framing where
  streamBody : Body := .none
  streamLeft : Nat := 0
  chunkdec : ChunkDecoder := {}
  deriving DecidableEq, Repr

/-- `stream_complete`. -/
def Framing.streamComplete (f : Framing) (atEof : Bool) : Bool :=
  match f.streamBody with
  | .chunked => f.chunkdec.isDone
  | .length => f.streamLeft = 0
  | _ => atEof

/-- The start of `stream_step`: whether the framing holds, what stays of the venue's
bytes, and the bytes of the body among them. -/
def Framing.unframe (f : Framing) (input : Bytes) : Bool × Framing × Bytes × Bytes :=
  match f.streamBody with
  | .chunked =>
      let (d, sseIn) := f.chunkdec.feed input
      (!d.failed, { f with chunkdec := d }, [], sseIn)
  | .length =>
      if f.streamLeft < input.length then
        (true, { f with streamLeft := 0 }, input.drop f.streamLeft, input.take f.streamLeft)
      else (true, { f with streamLeft := f.streamLeft - input.length }, [], input)
  | _ => (true, f, [], input)

/-! ## The step -/

/-- What a streamed reply keeps of its client and its request. -/
structure StreamConn where
  framing : Framing := {}
  streamChunkedOut : Bool := false
  streamEnded : Bool := false
  streamTerminated : Bool := false
  streamKeepAlive : Bool := false
  /-- `msg.keep_alive`. -/
  keepAlive : Bool := false
  closeAfterResp : Bool := false
  sseTranslating : Bool := false
  sseXlate : AnthropicToOpenAiSse := {}
  streamUsage : StreamUsage := {}
  geminiReply : Bool := false
  /-- The facts of a Gemini stream, and when the first token came. -/
  gemini : GeminiReq := {}
  tsFirstThinking : Int := 0
  tsLastChunk : Int := 0
  maxChunkGapNs : Int := 0
  streamTail : Bytes := [0, 0, 0, 0]
  deriving Repr

/-- `StreamStep`. -/
inductive StreamStep
  | ok
  | ended
  | corrupt
  | failed
  deriving DecidableEq, Repr

/-- What of a request decides how its stream is relayed. -/
structure StreamRequest where
  /-- `msg.http_1_1`. -/
  http11 : Bool := true
  /-- `msg.keep_alive`. -/
  keepAlive : Bool := true
  /-- The venue's events are translated: `translate_body` at an Anthropic venue. -/
  translating : Bool := false
  wantsUsage : Bool := false
  responsesApi : Bool := false
  geminiReply : Bool := false
  deriving DecidableEq, Repr

namespace StreamConn

/-- The longest silence between chunks, once tokens started. -/
def noteGap (c : StreamConn) (now : Int) : StreamConn :=
  { c with
    maxChunkGapNs :=
      if c.gemini.tsFirstToken ≠ 0 ∧ c.tsLastChunk ≠ 0 ∧ c.maxChunkGapNs < now - c.tsLastChunk
      then now - c.tsLastChunk
      else c.maxChunkGapNs
    tsLastChunk := now }

/-- The thinking and token stamps of a forwarded read. -/
def stampForward (c : StreamConn) (sseIn : Bytes) (now : Int) : StreamConn :=
  let (seen, gemini) :=
    if c.geminiReply then noteGeminiEvents c.gemini sseIn
    else
      ({ thinking := c.tsFirstThinking == 0 && c.gemini.tsFirstToken == 0 &&
            sseCarriesThinking sseIn
         token := c.gemini.tsFirstToken == 0 && sseCarriesFirstToken sseIn }, c.gemini)
  { c with
    tsFirstThinking :=
      if seen.thinking && c.tsFirstThinking == 0 && gemini.tsFirstToken == 0 then now
      else c.tsFirstThinking
    gemini :=
      if seen.token && gemini.tsFirstToken == 0 then { gemini with tsFirstToken := now }
      else gemini }

/-- The last four bytes of the kept ones and a read. -/
def keepLast (tail sseIn : Bytes) : Bytes :=
  tail.drop (min sseIn.length 4) ++ sseIn.drop (sseIn.length - min sseIn.length 4)

/-- What a step answers once its bytes are written. -/
def outcome (c : StreamConn) (atEof : Bool) : StreamStep :=
  if atEof ∧ c.streamEnded = false then .corrupt
  else if c.streamEnded then .ended
  else .ok

/-- The byte-forward half of `stream_step`. -/
def forward (c : StreamConn) (sseIn out : Bytes) (atEof : Bool) (now : Int) :
    StreamStep × StreamConn × Bytes :=
  let (c, out) :=
    if sseIn = [] then (c, out)
    else
      let c := { c with streamUsage := c.streamUsage.feed sseIn }
      let c := c.stampForward sseIn now
      ({ c with streamTail := keepLast c.streamTail sseIn },
        chunkWrap c.streamChunkedOut (out ++ sseIn) out.length)
  if c.framing.streamComplete atEof ∧ c.streamEnded = false then
    (.ended, { c with streamEnded := true }, out)
  else (c.outcome atEof, c, out)

/-- The thinking and token stamps of a translated read. -/
def stampTranslated (c : StreamConn) (sseIn : Bytes) (now : Int) : StreamConn :=
  { c with
    tsFirstThinking :=
      if c.tsFirstThinking == 0 && sseCarriesThinking sseIn then now else c.tsFirstThinking
    gemini :=
      if c.gemini.tsFirstToken == 0 && c.sseXlate.translation.contentStarted then
        { c.gemini with tsFirstToken := now }
      else c.gemini }

/-- The translating half of `stream_step`: a refused read's bytes stay as they were
written, unframed. -/
def translate (c : StreamConn) (sseIn out : Bytes) (atEof : Bool) (now : Int) :
    StreamStep × StreamConn × Bytes :=
  let (fed, xlate, text) := if sseIn = [] then (true, c.sseXlate, []) else c.sseXlate.feed sseIn
  let c := { c with sseXlate := xlate }
  if fed = false then (.failed, c, out ++ text)
  else
    let out := chunkWrap c.streamChunkedOut (out ++ text) out.length
    let c := c.stampTranslated sseIn now
    if c.framing.streamComplete atEof ∧ c.streamEnded = false then
      let (finished, xlate, text) := c.sseXlate.finish
      let c := { c with sseXlate := xlate }
      if finished = false then (.failed, c, out ++ text)
      else
        (.ended, { c with streamEnded := true },
          chunkWrap c.streamChunkedOut (out ++ text) out.length)
    else (c.outcome atEof, c, out)

/-- `stream_step`: with what stays of the venue's bytes, and all that is staged. -/
def streamStep (c : StreamConn) (input out : Bytes) (atEof : Bool) (now : Int) :
    StreamStep × StreamConn × Bytes × Bytes :=
  let (ok, framing, left, sseIn) := c.framing.unframe input
  let c := { c with framing := framing }
  if ok = false then (.corrupt, c, left, out)
  else
    let c := if sseIn = [] then c else c.noteGap now
    let (step, c, out) :=
      if c.sseTranslating then c.translate sseIn out atEof now else c.forward sseIn out atEof now
    (step, c, left, out)

/-! ## A stream's beginning and end -/

/-- `begin_stream`, as far as the state goes; `clock` is what the translator's clock
reads. -/
def beginStream (q : StreamRequest) (h : Http.ResponseHead) (clock : Int) : StreamConn where
  framing := { streamBody := h.body, streamLeft := h.contentLength }
  streamKeepAlive := h.keepAlive
  keepAlive := q.keepAlive
  sseTranslating := q.translating
  sseXlate := if q.translating then .reset (-1) q.wantsUsage clock else {}
  streamUsage := if q.translating then .reset false else .reset q.responsesApi
  geminiReply := q.geminiReply
  streamChunkedOut := q.http11 && q.keepAlive

/-- `stream_truncate`. -/
def streamTruncate (c : StreamConn) : StreamConn :=
  { c with streamEnded := true, closeAfterResp := true }

/-- `kReplyNoteMax`. -/
def kReplyNoteMax : Nat := 1024

/-- `ends_blank_line`, of four bytes. -/
def endsBlankLine (t : Bytes) : Bool :=
  let ends := fun i : Nat => t.getD i 0
  if ends 3 = 0x0a ∧ ends 2 = 0x0d then ends 1 = 0x0a ∨ ends 1 = 0x0d
  else if ends 3 = 0x0a then ends 2 = 0x0a
  else ends 3 = 0x0d ∧ (ends 2 = 0x0d ∨ ends 2 = 0x0a)

/-- `note_refusal`: why a note cannot follow the stream. -/
def noteRefusal (c : StreamConn) (note : Bytes) : Option String :=
  if kReplyNoteMax < note.length then some "longer than kReplyNoteMax"
  else if note.any fun ch => ch = 0x0d ∨ ch = 0x0a ∨ ch = 0 then
    some "holding a CR, LF or NUL"
  else if c.sseTranslating = false ∧ endsBlankLine c.streamTail = false then
    some "the venue's stream ended inside an event"
  else none

/-- `sink_note`, with what the sink answers; empty without one. -/
def sinkNote (c : StreamConn) (note out : Bytes) : Bytes :=
  if note = [] ∨ (c.noteRefusal note).isSome then out
  else chunkWrap c.streamChunkedOut (out ++ (ascii ": " ++ note ++ ascii "\n\n")) out.length

/-- `stream_terminate`. -/
def streamTerminate (c : StreamConn) (note out : Bytes) : StreamConn × Bytes :=
  ({ c with streamTerminated := true },
    chunkTerminate c.streamChunkedOut (c.sinkNote note out))

end StreamConn

/-! ## The relay -/

/-- A stream being relayed: the client's side, the venue's bytes not yet read, and all
that was staged for the client behind its head. -/
structure StreamRelay where
  conn : StreamConn := {}
  rbuf : Bytes := []
  staged : Bytes := []
  deriving Repr

namespace StreamRelay

variable (note : StreamConn → Bytes)

/-- The start of `stream_flush`: a clean end is told once. -/
def flush (r : StreamRelay) : StreamRelay :=
  if r.conn.streamEnded ∧ r.conn.streamTerminated = false ∧ r.conn.closeAfterResp = false then
    let (conn, staged) := r.conn.streamTerminate (note r.conn) r.staged
    { r with conn := conn, staged := staged }
  else r

/-- A step, and what its outcome does to the stream. -/
def stepped (r : StreamRelay) (atEof : Bool) (now : Int) : StreamRelay :=
  let (step, conn, rbuf, staged) := r.conn.streamStep r.rbuf r.staged atEof now
  { conn := if step = .corrupt ∨ step = .failed then conn.streamTruncate else conn
    rbuf := rbuf
    staged := staged }

/-- `stream_pump`, of a read and the time it comes. -/
def pump (r : StreamRelay) (read : Bytes × Int) : StreamRelay :=
  ({ r with rbuf := r.rbuf ++ read.1 }.stepped false read.2).flush note

/-- `stream_on_upstream_eof`. -/
def upstreamEof (r : StreamRelay) (now : Int) : StreamRelay :=
  (r.stepped true now).flush note

/-- Reads in turn. -/
def pumpAll (r : StreamRelay) (reads : List (Bytes × Int)) : StreamRelay :=
  reads.foldl (pump note) r

/-- A stream: its reads, and where it comes the venue's end of it. -/
def stream (r : StreamRelay) (reads : List (Bytes × Int)) (eof : Option Int) : StreamRelay :=
  match eof with
  | none => r.pumpAll note reads
  | some now => (r.pumpAll note reads).upstreamEof note now

end StreamRelay

end Gateway
end Llmbridge
