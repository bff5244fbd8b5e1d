import Llmbridge.Gateway.Configuration
import Llmbridge.Gateway.ForwardFacts
import Llmbridge.Gateway.StreamStep
import Llmbridge.Provider.TranslateResponseCorrect

/-!
# The replies the gateway builds

`net/include/net/http_write.hpp` and `gateway/src/response.cpp`: status lines, the
venue's headers that a reply keeps, errors, relayed replies and the head of a stream.
-/

namespace Llmbridge
namespace Gateway

open Rfc8259 (Byte Bytes ascii)
open Http (Field HeaderLine sameCi lc walkHeaders)
open Http1 (crlf cr lf Clean)
open Translate (writeError)
open Forward (decimal ended)

/-! ## Lines -/

/-- `reason`. -/
def reason (status : Int) : String :=
  if status = 200 then "OK"
  else if status = 201 then "Created"
  else if status = 202 then "Accepted"
  else if status = 204 then "No Content"
  else if status = 206 then "Partial Content"
  else if status = 304 then "Not Modified"
  else if status = 400 then "Bad Request"
  else if status = 401 then "Unauthorized"
  else if status = 402 then "Payment Required"
  else if status = 403 then "Forbidden"
  else if status = 404 then "Not Found"
  else if status = 405 then "Method Not Allowed"
  else if status = 408 then "Request Timeout"
  else if status = 409 then "Conflict"
  else if status = 413 then "Content Too Large"
  else if status = 415 then "Unsupported Media Type"
  else if status = 422 then "Unprocessable Content"
  else if status = 429 then "Too Many Requests"
  else if status = 451 then "Unavailable For Legal Reasons"
  else if status = 500 then "Internal Server Error"
  else if status = 501 then "Not Implemented"
  else if status = 502 then "Bad Gateway"
  else if status = 503 then "Service Unavailable"
  else if status = 504 then "Gateway Timeout"
  else if status = 529 then "Overloaded"
  else if status < 200 then "Informational"
  else if status < 300 then "OK"
  else if status < 400 then "Redirection"
  else if status < 500 then "Client Error"
  else "Server Error"

/-- The line that `append_status_line` writes, without its line end. -/
def statusText (status : Int) : Bytes :=
  ascii "HTTP/1.1 " ++ decimal (if status < 0 then 0 else status.toNat) ++ ascii " " ++
    ascii (reason status)

/-- `append_status_line`. -/
def appendStatusLine (out : Bytes) (status : Int) : Bytes :=
  out ++ (statusText status ++ crlf)

/-- The line that `append_content_length` writes, without its line end. -/
def lengthText (n : Nat) : Bytes :=
  ascii "Content-Length: " ++ decimal n

/-- `append_content_length`. -/
def appendContentLength (out : Bytes) (n : Nat) : Bytes :=
  out ++ (lengthText n ++ crlf)

/-- `starts_ci`. -/
def startsCi (s : Bytes) (lower : String) : Bool :=
  (ascii lower).length ≤ s.length && sameCi (s.take (ascii lower).length) (ascii lower)

/-- `relayed`. -/
def relayed (h : HeaderLine) : Bool :=
  match h.field with
  | .retryAfter | .requestId | .requestsRemaining | .inputTokensRemaining
  | .outputTokensRemaining | .tokensRemaining => true
  | .other =>
      sameCi h.name (ascii "retry-after-ms") || startsCi h.name "x-ratelimit-" ||
        startsCi h.name "anthropic-ratelimit-" || startsCi h.name "ratelimit"
  | _ => false

/-- A byte that no relayed value holds. -/
def controls (c : Byte) : Bool :=
  (c < 0x20 && c != 0x09) || c == 0x7f

/-- The visitor of `append_relayed`: what is written, and whether it has a Content-Type. -/
def relayLine (ownBody : Bool) (s : Bytes × Bool) (h : HeaderLine) : (Bytes × Bool) × Bool :=
  let own := ownBody && (h.field = .contentType || h.field = .contentEncoding)
  if !own && !relayed h then (s, true)
  else if h.value.any controls then (s, true)
  else ((s.1 ++ (h.name ++ 0x3a :: h.value ++ crlf), s.2 || h.field = .contentType), true)

/-- `append_relayed`: with whether a Content-Type was copied. -/
def appendRelayed (out head : Bytes) (ownBody : Bool) : Bytes × Bool :=
  (walkHeaders (relayLine ownBody) head (out, false)).2

/-! ## Errors -/

/-- `kErrorShapes`: codes, their types and their messages. -/
def kErrorShapes : List (Int × String × String) :=
  [(400, "invalid_request_error", "malformed request"),
    (401, "authentication_error", "unauthorized"),
    (402, "billing_error", "payment required"),
    (403, "permission_error", "forbidden"),
    (404, "invalid_request_error", "not found"),
    (408, "timeout_error", "request timed out"),
    (413, "invalid_request_error", "request too large"),
    (415, "invalid_request_error", "compressed request body is not supported"),
    (429, "rate_limit_error", "rate limit exceeded"),
    (500, "api_error", "internal error"),
    (502, "upstream_error", "bad gateway: upstream failure"),
    (503, "service_error", "service unavailable"),
    (504, "timeout_error", "upstream timed out")]

/-- `error_shape`: the type and the message of a code. -/
def errorShape (code : Int) : String × String :=
  match kErrorShapes.find? fun s => s.1 = code with
  | some s => s.2
  | none =>
      if code < 500 then ("invalid_request_error", "request refused")
      else ("api_error", "server error")

/-- The body of `append_error`. -/
def errorBody (code : Int) (detail : Option Bytes) : Bytes :=
  writeError
    (match detail with
      | some text => if code < 500 then text else ascii (errorShape code).2
      | none => ascii (errorShape code).2)
    (ascii (errorShape code).1)

/-- `append_error`. -/
def appendError (out : Bytes) (code : Int) (detail : Option Bytes) (keep : Bool) : Bytes :=
  let body := errorBody code detail
  let out := appendStatusLine out code
  let out := out ++
    if keep then ascii "Content-Type: application/json\r\nConnection: keep-alive\r\n"
    else ascii "Content-Type: application/json\r\nConnection: close\r\n"
  appendContentLength out body.length ++ crlf ++ body

/-- `append_relayed_reply`. -/
def appendRelayedReply (out : Bytes) (status : Int) (upstreamHead body : Bytes)
    (ownBody : Bool) : Bytes :=
  let out := appendStatusLine out status
  let out := out ++ if ownBody then [] else ascii "Content-Type: application/json\r\n"
  let (out, typed) := appendRelayed out upstreamHead ownBody
  let out := out ++
    if !typed && ownBody then ascii "Content-Type: application/json\r\n" else []
  let out := out ++ ascii "Connection: keep-alive\r\n"
  appendContentLength out body.length ++ crlf ++ body

/-! ## The head of a stream -/

/-- `kSseHead`. -/
def kSseHead : Bytes :=
  ascii ("HTTP/1.1 200 OK\r\n" ++ "Content-Type: text/event-stream\r\n" ++
    "Cache-Control: no-cache\r\n" ++ "Connection: close\r\n" ++ "\r\n")

/-- `kSseHeadChunked`. -/
def kSseHeadChunked : Bytes :=
  ascii ("HTTP/1.1 200 OK\r\n" ++ "Content-Type: text/event-stream\r\n" ++
    "Cache-Control: no-cache\r\n" ++ "Transfer-Encoding: chunked\r\n" ++ "\r\n")

/-- `add` of `append_timing_headers`: a stamp never taken is left out. -/
def timingHeader (entry : String × Int) : Bytes :=
  if entry.2 < 0 then []
  else ascii entry.1 ++ ascii ": " ++ OpenAi.decimal entry.2 ++ crlf

/-- What `append_timing_headers` reads of a request: its stamps and spans, in
nanoseconds but for the first two. -/
structure TimingFacts where
  /-- `wall_ns` of `ts_req_recvd`. -/
  t0 : Int
  reqSeq : Int
  computeNs : Int
  connectNs : Int
  upwriteNs : Int
  /-- `body_work_ns`, of a streamed body only. -/
  bodyWorkNs : Option Int
  clientUploadNs : Int
  upstreamNs : Int
  deriving DecidableEq, Repr

/-- The headers of `append_timing_headers`, in order; a quotient is cut towards zero. -/
def TimingFacts.entries (t : TimingFacts) (upstreamKey : String) : List (String × Int) :=
  [("x-llmbridge-t0", t.t0), ("x-llmbridge-seq", t.reqSeq),
    ("x-llmbridge-gateway-us", t.computeNs.tdiv 1000),
    ("x-llmbridge-connect-us", t.connectNs.tdiv 1000),
    ("x-llmbridge-upwrite-us", t.upwriteNs.tdiv 1000)] ++
    (match t.bodyWorkNs with
      | some ns => [("x-llmbridge-body-work-us", ns.tdiv 1000)]
      | none => []) ++
    [("x-llmbridge-client-upload-us", t.clientUploadNs.tdiv 1000),
      (upstreamKey, t.upstreamNs.tdiv 1000)]

/-- `append_timing_headers`. -/
def appendTimingHeaders (out : Bytes) (t : TimingFacts) (upstreamKey : String) : Bytes :=
  out ++ (t.entries upstreamKey).flatMap timingHeader

/-- The head that `begin_stream` stages: `timing` where `--timing-headers` asks for it,
`upstreamHead` without its blank line. -/
def streamHead (out : Bytes) (chunkedOut : Bool) (timing : Option TimingFacts)
    (upstreamHead : Bytes) : Bytes :=
  let base := if chunkedOut then kSseHeadChunked else kSseHead
  let out := out ++ base.take (base.length - 2)
  let out :=
    match timing with
    | some t => appendTimingHeaders out t "x-llmbridge-upstream-ttfb-us"
    | none => out
  (appendRelayed out upstreamHead false).1 ++ crlf

/-- `append_usage_headers`, of the counts of input and output tokens. -/
def appendUsageHeaders (out : Bytes) (tokensIn tokensOut : Int) : Bytes :=
  out ++ [("x-llmbridge-tokens-in", tokensIn), ("x-llmbridge-tokens-out", tokensOut)].flatMap
    timingHeader

/-- `append_http`. -/
def appendHttp (out startLine body extra : Bytes) : Bytes :=
  let out := out ++ startLine ++
    ascii "\r\nContent-Type: application/json\r\nConnection: keep-alive\r\n"
  appendContentLength out body.length ++ extra ++ crlf ++ body

/-- The headers that `--timing-headers` adds to a translated reply: its timing, and its
counts. -/
def timingText : Option (TimingFacts × Int × Int) → Bytes
  | some (t, tokensIn, tokensOut) =>
      appendUsageHeaders (appendTimingHeaders [] t "x-llmbridge-upstream-us") tokensIn tokensOut
  | none => []

/-- The reply that `on_response` stages; `raw` is the venue's whole message. -/
def onResponse (translateBody : Bool) (xlateResp : Bytes → Option Bytes)
    (timing : Option (TimingFacts × Int × Int)) (h : Http.ResponseHead)
    (upHead body raw : Bytes) : Option Bytes :=
  if translateBody = true ∧ h.status ≠ 0 ∧ h.status ≠ 200 then
    some (appendRelayedReply [] h.status upHead
      (Translate.upstreamErrorToOpenai body (ascii "upstream_error")) false)
  else if translateBody then
    (xlateResp body).map fun text =>
      appendHttp [] (ascii "HTTP/1.1 200 OK") text (timingText timing)
  else if h.body = .chunked then
    some (appendRelayedReply [] (if h.status = 0 then 200 else h.status) upHead body true)
  else some raw

/-- `status_of`. -/
def statusOf (resp : Bytes) : Nat :=
  if resp.length < 12 ∨ resp.take 5 ≠ ascii "HTTP/" then 0
  else
    match Http.digitAt resp 9, Http.digitAt resp 10, Http.digitAt resp 11 with
    | some a, some b, some c => a * 100 + b * 10 + c
    | _, _, _ => 0

/-! ## What a venue's head adds -/

theorem values_append (lower : String) (first second : List Bytes) :
    Http.values lower (first ++ second) = Http.values lower first ++ Http.values lower second := by
  unfold Http.values
  rw [List.filter_append, List.map_append]

/-- A line of a venue's head that a reply keeps. -/
structure KeptLine (ownBody : Bool) (head line : Bytes) : Prop where
  clean : Clean line
  isField : Http.IsField line (Http.nameOf line) (Http.valueOf line)
  verbatim : line <:+: head
  printable : (Http.valueOf line).any controls = false
  framing : Http.classify (Http.nameOf line) ≠ .contentLength ∧
    Http.classify (Http.nameOf line) ≠ .transferEncoding ∧
    Http.classify (Http.nameOf line) ≠ .connection
  foreign : ownBody = false → Http.classify (Http.nameOf line) ≠ .contentType ∧
    Http.classify (Http.nameOf line) ≠ .contentEncoding

/-- What a visitor keeps of the clean lines of a head, the walk keeps, whether it goes
through or not. -/
theorem walkHeaders_visits {σ : Type} {f : σ → HeaderLine → σ × Bool} {P : σ → Prop}
    (head : Bytes)
    (keeps : ∀ s («at» : Nat) line, Clean line → line <:+: head → P s →
      P (Http.visitLine f s «at» line).1) {s : σ} (holds : P s) :
    P (walkHeaders f head s).2 := by
  have loop : ∀ rounds eol s, P s → P (Http.walkLoop f head rounds eol s).2 := by
    intro rounds
    induction rounds with
    | zero => exact fun _ _ holds => holds
    | succ rounds inductionHypothesis =>
        intro eol s holds
        rw [Http.walkLoop]
        split
        · exact holds
        dsimp only
        cases found : Http.lineEnd head (eol + 2) with
        | none => exact holds
        | some next =>
            obtain ⟨line, rest, split, clean, rfl, -⟩ := Http.line_of_lineEnd found
            have taken : Rfc8259.substr head (eol + 2) (eol + 2 + line.length - (eol + 2)) =
                line := by
              rw [Rfc8259.substr, split, Nat.add_sub_cancel_left, List.take_left]
            have inside : line <:+: head := by
              refine ⟨head.take (eol + 2), rest, ?_⟩
              rw [List.append_assoc, ← split, List.take_append_drop]
            have visited := keeps s (eol + 2) line clean inside holds
            dsimp only
            rw [taken]
            generalize Http.visitLine f s (eol + 2) line = result at visited ⊢
            obtain ⟨state, ok⟩ := result
            cases ok with
            | false => exact visited
            | true => exact inductionHypothesis _ _ visited
  unfold walkHeaders
  split
  · exact holds
  · exact loop _ _ _ holds

/-- No name that is relayed frames a message or types its body. -/
theorem relayed_framing {h : HeaderLine} (keeps : relayed h = true) :
    (h.field ≠ .contentLength ∧ h.field ≠ .transferEncoding ∧ h.field ≠ .connection) ∧
      h.field ≠ .contentType ∧ h.field ≠ .contentEncoding := by
  unfold relayed at keeps
  cases field : h.field with
  | contentLength | transferEncoding | connection | contentType | contentEncoding =>
      rw [field] at keeps
      cases keeps
  | _ => exact ⟨⟨by decide, by decide, by decide⟩, by decide, by decide⟩

/-- What `append_relayed` writes are lines of the venue's head, and it says whether they
have a Content-Type. -/
theorem appendRelayed_spec (out head : Bytes) (ownBody : Bool) :
    ∃ lines : List Bytes, (appendRelayed out head ownBody).1 = out ++ ended lines ∧
      (appendRelayed out head ownBody).2 = !(Http.values "content-type" lines).isEmpty ∧
      ∀ line ∈ lines, KeptLine ownBody head line := by
  have typing := fun name => Http.classify_iff (f := .contentType) (by decide) rfl name
  unfold appendRelayed
  refine @walkHeaders_visits _ (relayLine ownBody)
    (fun s => ∃ lines : List Bytes, s.1 = out ++ ended lines ∧
      s.2 = !(Http.values "content-type" lines).isEmpty ∧
      ∀ line ∈ lines, KeptLine ownBody head line) head ?_ (out, false)
    ⟨[], (List.append_nil out).symm, rfl, List.forall_mem_nil _⟩
  rintro s place line clean inside ⟨lines, written, typed, kept⟩
  unfold Http.visitLine
  cases colon : Http.lineOk line with
  | none => exact ⟨lines, written, typed, kept⟩
  | some n =>
      have isField := Http.isField_of_lineOk colon
      dsimp only
      unfold relayLine
      dsimp only
      split
      · exact ⟨lines, written, typed, kept⟩
      rename_i wanted
      split
      · exact ⟨lines, written, typed, kept⟩
      rename_i printable
      refine ⟨lines ++ [line], ?_, ?_, ?_⟩
      · rw [written, ← isField.split, Forward.ended_append]
        simp only [Forward.ended_cons, Forward.ended_nil, List.append_nil, List.append_assoc]
      · rw [typed, values_append, Http.values_cons, isField.nameOf, typing]
        dsimp only
        cases decide (Http.classify (line.take n) = .contentType) <;> simp [Http.values]
      · intro found member
        rcases List.mem_append.mp member with member | member
        · exact kept found member
        · rw [List.mem_singleton.mp member]
          have names : (Http.classify (line.take n) ≠ .contentLength ∧
              Http.classify (line.take n) ≠ .transferEncoding ∧
              Http.classify (line.take n) ≠ .connection) ∧
              (ownBody = false → Http.classify (line.take n) ≠ .contentType ∧
                Http.classify (line.take n) ≠ .contentEncoding) := by
            by_cases keeps : relayed ⟨Http.classify (line.take n), line.take n,
                line.drop (n + 1), place⟩ = true
            · exact ⟨(relayed_framing keeps).1, fun _ => (relayed_framing keeps).2⟩
            · simp only [Bool.not_eq_true] at keeps
              rw [keeps] at wanted
              simp only [Bool.not_false, Bool.and_true, Bool.not_eq_true', Bool.not_eq_false,
                Bool.and_eq_true, Bool.or_eq_true, decide_eq_true_eq] at wanted
              obtain ⟨own, is⟩ := wanted
              refine ⟨?_, fun no => absurd (own.symm.trans no) (by decide)⟩
              rcases is with is | is <;> rw [is] <;> decide
          rw [← isField.nameOf] at names
          refine ⟨clean, ?_, inside, ?_, names.1, names.2⟩
          · rw [isField.nameOf, isField.valueOf]
            exact isField
          · rw [isField.valueOf]
            exact Bool.eq_false_of_not_eq_true printable

end Gateway
end Llmbridge
