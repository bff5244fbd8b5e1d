import Llmbridge.Rfc8259.Places
import Llmbridge.Http1.Lines

/-!
# HTTP/1.1 heads

`net/include/net/http.hpp`: framing of requests by Content-Length, and of
responses by their head.  A `string_view` into a buffer is its bytes, with its
place where the source subtracts pointers; `string_view::find` is `Http1.find`.
-/

namespace Llmbridge
namespace Http

open Rfc8259 (Byte Bytes ascii isDigit substr)
open Http1 (find cr lf crlf)

/-- `Message`. -/
structure Message where
  headerLen : Nat := 0
  bodyLen : Nat := 0
  totalLen : Nat := 0
  keepAlive : Bool := true
  encoded : Bool := false
  http11 : Bool := true
  head : Bool := false
  deriving DecidableEq, Repr

/-- `FrameStatus`. -/
inductive FrameStatus
  | needMore
  | complete
  | error
  deriving DecidableEq, Repr

/-- `Field`. -/
inductive Field
  | other
  | contentLength
  | transferEncoding
  | contentEncoding
  | contentType
  | connection
  | keepAlive
  | proxyConnection
  | te
  | trailer
  | upgrade
  | host
  | expect
  | acceptEncoding
  | authorization
  | xApiKey
  | apiKey
  | xGoogApiKey
  | anthropicVersion
  | retryAfter
  | requestId
  | requestsRemaining
  | inputTokensRemaining
  | outputTokensRemaining
  | tokensRemaining
  | anthropicBeta
  deriving DecidableEq, Repr

/-- `hop_by_hop`: Connection through Upgrade. -/
def hopByHop : Field → Bool
  | .connection | .keepAlive | .proxyConnection | .te | .trailer | .upgrade => true
  | _ => false

/-- `HeaderLine`, with the place of its name in the head. -/
structure HeaderLine where
  field : Field
  name : Bytes
  value : Bytes
  «at» : Nat
  deriving DecidableEq, Repr

/-- Where the value stands in the head. -/
def HeaderLine.valueAt (h : HeaderLine) : Nat :=
  h.at + h.name.length + 1

/-! ## `detail` -/

/-- `lc`. -/
def lc (c : Byte) : Byte :=
  if 0x41 ≤ c ∧ c ≤ 0x5a then c + 32 else c

/-- `contains_ci`; the needle is lower-case. -/
def containsCi (hay needle : Bytes) : Bool :=
  (find needle (hay.map lc)).isSome

/-- `line_is`; the name is lower-case. -/
def lineIs (line name : Bytes) : Bool :=
  name.isPrefixOf (line.map lc)

/-- `same_ci`. -/
def sameCi (a b : Bytes) : Bool :=
  a.map lc == b.map lc

/-- A space or a tab. -/
def isOws (c : Byte) : Bool :=
  c == 0x20 || c == 0x09

/-- `ltrim`. -/
def ltrim (v : Bytes) : Bytes :=
  v.dropWhile isOws

/-- `trim_ows`. -/
def trimOws (v : Bytes) : Bytes :=
  (ltrim v).rdropWhile isOws

/-- The number that decimal digits write. -/
def decimalValue (v : Bytes) : Nat :=
  v.foldl (fun n c => n * 10 + (c.toNat - 0x30)) 0

/-- `parse_strict_length`: 1*DIGIT that fits. -/
def parseStrictLength (v : Bytes) : Option Nat :=
  let v := trimOws v
  if v.isEmpty ∨ v.all isDigit = false then none
  else if decimalValue v < 2 ^ 64 then some (decimalValue v)
  else none

/-- `is_zero_count`. -/
def isZeroCount (v : Bytes) : Bool :=
  parseStrictLength v = some 0

/-- `line_end`: the end of the line at `start`, unless it holds a bare CR or a bare
LF. -/
def lineEnd (s : Bytes) (start : Nat) : Option Nat :=
  let b := s.drop start
  match b.findIdx? fun c => c == lf with
  | some n =>
      if n = 0 ∨ b[n - 1]? ≠ some cr ∨ (b.take (n - 1)).contains cr then none
      else some (start + (n - 1))
  | none => if b.contains cr then none else some (start + b.length)

/-- `line_ok`: where the colon of a header line stands. -/
def lineOk (line : Bytes) : Option Nat :=
  if line.isEmpty ∨ line.head?.any isOws then none
  else
    match line.findIdx? fun c => c == 0x3a with
    | none => none
    | some colon =>
        if colon = 0 ∨ (line.drop (colon - 1)).head?.any isOws then none else some colon

/-- `is` of `classify`. -/
def named (n : Bytes) (lower : String) (f : Field) : Field :=
  if sameCi n (ascii lower) then f else .other

/-- `classify`. -/
def classify (n : Bytes) : Field :=
  match n with
  | [] => .other
  | front :: _ =>
      let c := lc front
      match n.length with
      | 2 => named n "te" .te
      | 4 => named n "host" .host
      | 6 => named n "expect" .expect
      | 7 =>
          if c = 0x61 then named n "api-key" .apiKey
          else if c = 0x74 then named n "trailer" .trailer
          else named n "upgrade" .upgrade
      | 9 => named n "x-api-key" .xApiKey
      | 10 =>
          if c = 0x63 then named n "connection" .connection
          else if c = 0x6b then named n "keep-alive" .keepAlive
          else named n "request-id" .requestId
      | 11 => named n "retry-after" .retryAfter
      | 12 =>
          if c = 0x63 then named n "content-type" .contentType
          else named n "x-request-id" .requestId
      | 13 => named n "authorization" .authorization
      | 14 =>
          if c = 0x63 then named n "content-length" .contentLength
          else if c = 0x61 then named n "anthropic-beta" .anthropicBeta
          else named n "x-goog-api-key" .xGoogApiKey
      | 15 => named n "accept-encoding" .acceptEncoding
      | 16 =>
          if c = 0x63 then named n "content-encoding" .contentEncoding
          else if c = 0x70 then named n "proxy-connection" .proxyConnection
          else named n "x-amzn-requestid" .requestId
      | 17 =>
          if c = 0x61 then named n "anthropic-version" .anthropicVersion
          else named n "transfer-encoding" .transferEncoding
      | 28 => named n "x-ratelimit-remaining-tokens" .tokensRemaining
      | 30 => named n "x-ratelimit-remaining-requests" .requestsRemaining
      | 38 => named n "anthropic-ratelimit-requests-remaining" .requestsRemaining
      | 42 => named n "anthropic-ratelimit-input-tokens-remaining" .inputTokensRemaining
      | 43 => named n "anthropic-ratelimit-output-tokens-remaining" .outputTokensRemaining
      | _ => .other

/-- The elements of a comma-separated list, trimmed; none of an empty text. -/
def listTokens (list : Bytes) : List Bytes :=
  if list.isEmpty then [] else (list.splitOn 0x2c).map trimOws

/-- `has_token`. -/
def hasToken (list lower : Bytes) : Bool :=
  (listTokens list).any fun t => sameCi t lower

/-! ## The walk over the lines -/

section Walk

variable {σ : Type} (f : σ → HeaderLine → σ × Bool)

/-- One header line: checked, classified, and handed on. -/
def visitLine (s : σ) («at» : Nat) (line : Bytes) : σ × Bool :=
  match lineOk line with
  | none => (s, false)
  | some colon =>
      f s
        { field := classify (line.take colon)
          name := line.take colon
          value := line.drop (colon + 1)
          «at» := «at» }

/-- The loop of `walk_headers`: every line but the first takes two bytes. -/
def walkLoop (head : Bytes) : (rounds eol : Nat) → σ → Bool × σ
  | 0, _, s => (false, s)
  | rounds + 1, eol, s =>
      if head.length ≤ eol then (true, s)
      else
        let start := eol + 2
        match lineEnd head start with
        | none => (false, s)
        | some eol =>
            match visitLine f s start (substr head start (eol - start)) with
            | (s, false) => (false, s)
            | (s, true) => walkLoop head rounds eol s

/-- `walk_headers`. -/
def walkHeaders (head : Bytes) (s : σ) : Bool × σ :=
  match lineEnd head 0 with
  | none => (false, s)
  | some eol => walkLoop f head (head.length + 1) eol s

end Walk

/-! ## Requests -/

/-- `kMaxHeaderLen`. -/
def kMaxHeaderLen : Nat := 32 * 1024

/-- `kMaxBodyLen`. -/
def kMaxBodyLen : Nat := 16 * 1024 * 1024

/-- What the walk of `parse_request` holds. -/
structure RequestWalk (α : Type) where
  out : Message
  haveCl : Bool := false
  close : Bool := false
  keep : Bool := false
  also : α

/-- One header line of `parse_request`, before the visitor sees it. -/
def requestLine {α : Type} (w : RequestWalk α) (h : HeaderLine) : RequestWalk α × Bool :=
  match h.field with
  | .contentLength =>
      match parseStrictLength h.value with
      | none => (w, false)
      | some n =>
          if w.haveCl ∧ n ≠ w.out.bodyLen then (w, false)
          else ({ w with out := { w.out with bodyLen := n }, haveCl := true }, true)
  | .transferEncoding => (w, false)
  | .contentEncoding =>
      let v := ltrim h.value
      let encoded := !v.isEmpty && !containsCi v (ascii "identity")
      ({ w with out := { w.out with encoded := encoded } }, true)
  | .connection =>
      ({ w with
          close := w.close || hasToken h.value (ascii "close")
          keep := w.keep || hasToken h.value (ascii "keep-alive") }, true)
  | _ => (w, true)

/-- The bytes behind the last space of a request line. -/
def versionOf (line : Bytes) : Bytes :=
  if line.contains 0x20 then (line.reverse.takeWhile fun c => c != 0x20).reverse else []

/-- The request line of a head. -/
def requestLineOf (head : Bytes) : Bytes :=
  match find crlf head with
  | some n => head.take n
  | none => head

section Requests

variable {α : Type} (also : α → HeaderLine → α × Bool)

/-- The walk of `parse_request`: its own reader, then the visitor. -/
def requestVisit (w : RequestWalk α) (h : HeaderLine) : RequestWalk α × Bool :=
  match requestLine w h with
  | (w, false) => (w, false)
  | (w, true) =>
      let (a, ok) := also w.also h
      ({ w with also := a }, ok)

/-- `parse_request` at a buffered head: whether it is accepted, and what it frames. -/
def requestHead (head : Bytes) (out : Message) (a : α) : Bool × Message × α :=
  if kMaxHeaderLen < out.headerLen then (false, out, a)
  else
    let rl := requestLineOf head
    let out :=
      { out with
        bodyLen := 0
        keepAlive := versionOf rl != ascii "HTTP/1.0"
        http11 := versionOf rl == ascii "HTTP/1.1"
        head := (rl.takeWhile fun c => c != 0x20) == ascii "HEAD" }
    let (ok, w) := walkHeaders (requestVisit also) head { out := out, also := a }
    if ok = false ∨ kMaxBodyLen < w.out.bodyLen then (false, w.out, w.also)
    else
      (true,
        { w.out with
          keepAlive := if w.close || w.keep then !w.close else w.out.keepAlive
          totalLen := w.out.headerLen + w.out.bodyLen },
        w.also)

/-- `parse_request`, with a visitor of every header line. -/
def parseRequestWith (buf : Bytes) (out : Message) (a : α) : FrameStatus × Message × α :=
  match find (crlf ++ crlf) buf with
  | none => (if kMaxHeaderLen < buf.length then .error else .needMore, out, a)
  | some hdrEnd =>
      match requestHead also (buf.take hdrEnd) { out with headerLen := hdrEnd + 4 } a with
      | (false, out, a) => (.error, out, a)
      | (true, out, a) =>
          (if buf.length < out.totalLen then .needMore else .complete, out, a)

end Requests

/-- `parse_request`. -/
def parseRequest (buf : Bytes) (out : Message) : FrameStatus × Message :=
  let (status, out, _) := parseRequestWith (fun (_ : Unit) _ => ((), true)) buf out ()
  (status, out)

/-! ## Responses -/

/-- `Body`. -/
inductive Body
  | none
  | length
  | chunked
  | untilClose
  deriving DecidableEq, Repr

/-- `Quota`. -/
inductive Quota
  | none
  | requests
  | inputTokens
  | outputTokens
  | tokens
  deriving DecidableEq, Repr

/-- `ResponseHead`. -/
structure ResponseHead where
  headerLen : Nat := 0
  status : Nat := 0
  body : Body := .none
  keepAlive : Bool := true
  chunked : Bool := false
  eventStream : Bool := false
  hasContentLength : Bool := false
  encoded : Bool := false
  bedrockTierAt : Nat := 0
  bedrockLatencyAt : Nat := 0
  bedrockTierLen : Nat := 0
  bedrockLatencyLen : Nat := 0
  contentLength : Nat := 0
  quotaExhausted : Quota := .none
  retryAfterS : Nat := 0
  deriving DecidableEq, Repr

/-- What the walk of `parse_response_head` holds. -/
structure ResponseWalk where
  out : ResponseHead
  close : Bool := false
  keep : Bool := false
  deriving DecidableEq, Repr

/-- `quota`. -/
def ResponseWalk.quota (w : ResponseWalk) (v : Bytes) (q : Quota) : ResponseWalk :=
  if isZeroCount v then { w with out := { w.out with quotaExhausted := q } } else w

/-- The place and the size of a trimmed value short enough to keep. -/
def kept (h : HeaderLine) : Option (Nat × Nat) :=
  let v := trimOws h.value
  if 255 < v.length then none
  else some (h.valueAt + (if v.isEmpty then h.value.length
    else (h.value.takeWhile isOws).length), v.length)

/-- One header line of `parse_response_head`. -/
def responseLine (w : ResponseWalk) (h : HeaderLine) : ResponseWalk × Bool :=
  match h.field with
  | .contentLength =>
      match parseStrictLength h.value with
      | none => (w, false)
      | some n =>
          if w.out.hasContentLength ∧ n ≠ w.out.contentLength then (w, false)
          else
            ({ w with out := { w.out with contentLength := n, hasContentLength := true } },
              true)
  | .retryAfter =>
      match parseStrictLength h.value with
      | none => (w, true)
      | some n => ({ w with out := { w.out with retryAfterS := min n 65535 } }, true)
  | .requestsRemaining => (w.quota h.value .requests, true)
  | .inputTokensRemaining => (w.quota h.value .inputTokens, true)
  | .outputTokensRemaining => (w.quota h.value .outputTokens, true)
  | .tokensRemaining => (w.quota h.value .tokens, true)
  | .transferEncoding =>
      ({ w with
          out := { w.out with
            chunked := w.out.chunked || containsCi h.value (ascii "chunked") } }, true)
  | .contentEncoding =>
      let v := ltrim h.value
      let encoded := !v.isEmpty && !containsCi v (ascii "identity")
      ({ w with out := { w.out with encoded := encoded } }, true)
  | .contentType =>
      ({ w with
          out := { w.out with
            eventStream :=
              w.out.eventStream || containsCi h.value (ascii "text/event-stream") } }, true)
  | .connection =>
      ({ w with
          close := w.close || hasToken h.value (ascii "close")
          keep := w.keep || hasToken h.value (ascii "keep-alive") }, true)
  | .other =>
      if sameCi h.name (ascii "x-amzn-bedrock-service-tier") then
        match kept h with
        | none => (w, true)
        | some (place, size) =>
            ({ w with out := { w.out with bedrockTierAt := place, bedrockTierLen := size } },
              true)
      else if sameCi h.name (ascii "x-amzn-bedrock-performanceconfig-latency") then
        match kept h with
        | none => (w, true)
        | some (place, size) =>
            ({ w with
                out := { w.out with bedrockLatencyAt := place, bedrockLatencyLen := size } },
              true)
      else (w, true)
  | _ => (w, true)

/-- The digit at a place of a status line. -/
def digitAt (head : Bytes) (i : Nat) : Option Nat :=
  (head[i]?).bind fun c => if isDigit c then some (c.toNat - 0x30) else none

/-- The status line: its code, and whether it is HTTP/1.1. -/
def statusLine (head : Bytes) : Option (Nat × Bool) :=
  if head.length < 9 ∨ head.take 7 ≠ ascii "HTTP/1." ∨
      (head[7]? ≠ some 0x30 ∧ head[7]? ≠ some 0x31) ∨ head[8]? ≠ some 0x20 then none
  else
    match digitAt head 9, digitAt head 10, digitAt head 11 with
    | some a, some b, some c =>
        if 12 < head.length ∧ head[12]? ≠ some 0x20 ∧ head[12]? ≠ some cr then none
        else some (a * 100 + b * 10 + c, head[7]? = some 0x31)
    | _, _, _ => none

/-- How the body of a response ends, by its head. -/
def bodyOf (out : ResponseHead) (headRequest : Bool) : Body :=
  if headRequest ∨ out.status < 200 ∨ out.status = 204 ∨ out.status = 304 then .none
  else if out.chunked then .chunked
  else if out.hasContentLength then .length
  else .untilClose

/-- `parse_response_head`. -/
def parseResponseHead (buf : Bytes) (out : ResponseHead) (headRequest : Bool) :
    FrameStatus × ResponseHead :=
  match find (crlf ++ crlf) buf with
  | none => (if kMaxHeaderLen < buf.length then .error else .needMore, out)
  | some hdrEnd =>
      let out := { out with headerLen := hdrEnd + 4 }
      if kMaxHeaderLen < out.headerLen then (.error, out)
      else
        let head := buf.take hdrEnd
        match statusLine head with
        | none => (.error, out)
        | some (status, http11) =>
            let out := { out with status := status, keepAlive := http11 }
            let (ok, w) := walkHeaders responseLine head { out := out }
            if ok = false then (.error, w.out)
            else
              let out :=
                { w.out with
                  keepAlive := if w.close || w.keep then !w.close else w.out.keepAlive }
              if out.chunked ∧ out.hasContentLength then (.error, out)
              else
                let out := { out with body := bodyOf out headRequest }
                if out.body = .length ∧ kMaxBodyLen < out.contentLength then (.error, out)
                else (.complete, out)

end Http
end Llmbridge
