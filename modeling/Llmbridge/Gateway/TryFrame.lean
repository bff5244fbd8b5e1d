import Llmbridge.Gateway.Attempt
import Llmbridge.Net.ContentCoding

/-!
# Framing a request

`try_frame` of `gateway/src/core/client.cpp` and `body_streamable` of `body.cpp`: the
checks a request passes on its head, and where a body is let through as it arrives.
The lines logged, the counts of statistics and what the sink captures are left out.
-/

namespace Llmbridge
namespace Gateway

open Rfc8259 (Byte Bytes ascii isDigit substr)
open Http1 (find crlf Clean join)
open Http (Message parseRequestWith requestHead listsCoding CodedByLast)
open Provider (Venue Wire rfind isLower isUpper)
open Forward (HeadFacts readHead)

/-! ## Request lines -/

/-- The characters of a method. -/
def isMethodChar (c : Byte) : Bool :=
  isLower c || isUpper c || isDigit c || (ascii "!#$%&'*+-.^_`|~").contains c

/-- `request_line_ok`. -/
def requestLineOk (buf : Bytes) : Bool :=
  match find crlf buf with
  | none => false
  | some eol =>
      let rl := buf.take eol
      match rl.findIdx? fun c => c == 0x20 with
      | none => false
      | some sp1 =>
          let sp2 := (rfind [0x20] rl).getD 0
          let version := rl.drop (sp2 + 1)
          if sp1 = 0 ∨ sp2 ≤ sp1 + 1 then false
          else if version ≠ ascii "HTTP/1.1" ∧ version ≠ ascii "HTTP/1.0" then false
          else
            (rl.take sp1).all isMethodChar &&
              (substr rl (sp1 + 1) (sp2 - sp1 - 1)).all fun c => !(c ≤ 0x20) && c != 0x7f

/-! ## Bodies that stream -/

/-- `kDefaultStreamBodyMax`. -/
def kDefaultStreamBodyMax : Nat := 256

/-- What a worker is set up with, and counts, that `try_frame` reads. -/
structure Worker where
  setup : Setup
  upstreams : List Upstream
  sink : Bool := false
  policy : Bool := false
  decidesOnHead : Bool := false
  streamBody : Bool := true
  streamOpenAiBody : Bool := true
  streamBodyMin : Nat := 16 * 1024
  streamBodyMax : Nat := kDefaultStreamBodyMax
  bodiesStreaming : Nat := 0

namespace Worker

/-- `venue_streams`. -/
def venueStreams (w : Worker) (client : Wire) (slot : Int) : Bool :=
  let plan := resolveTranslation client (venueAt w.upstreams slot).dialect false
  plan.ok && !plan.translate

/-- `any_venue_streams`. -/
def anyVenueStreams (w : Worker) (client : Wire) : Bool :=
  (List.range w.upstreams.length).any fun i => w.venueStreams client i

/-- `body_streamable`. -/
def bodyStreamable (w : Worker) (rbuf : Bytes) (m : Message) : Bool :=
  if w.streamBody = false ∨ (w.policy ∧ w.decidesOnHead = false) ∨
      m.bodyLen < w.streamBodyMin ∨ m.encoded ∨ m.totalLen ≤ rbuf.length then false
  else if requestLineOk rbuf = false ∨ (targetRefusal rbuf).isSome then false
  else
    let client := clientDialectOf (rbuf.take m.headerLen)
    if client = .openAi ∧ w.streamOpenAiBody = false then false
    else if (if w.policy then w.anyVenueStreams client else w.venueStreams client 0) = false then
      false
    else w.streamBodyMax = 0 || w.bodiesStreaming < w.streamBodyMax

/-- `decide_want`. -/
def decideWant (w : Worker) (m : Message) : Nat :=
  m.headerLen + if w.setup.wantsPrefixHash then min m.bodyLen ClientConn.kPrefixHashBytes else 0

end Worker

/-! ## The step -/

/-- `kAmbiguousKeysMessage`. -/
def kAmbiguousKeysMessage : Bytes :=
  ascii "request body repeats a top-level key or escapes one"

/-- What follows `try_frame`: more bytes, the decision on a head, a body sent on as it
arrives, a refusal, or the policy's decision on the whole request. -/
inductive Next
  | wait
  | decideOnHead
  | startBody
  | refused (r : Refused)
  | decide
  deriving DecidableEq, Repr

/-- What `try_frame` leaves: the connection, whether the interim 100 was sent, and what
follows. -/
structure Framed where
  conn : ClientConn
  continued : Bool := false
  next : Next := .wait

/-- The checks on a request that is whole or refused, once it is opened. -/
def checkWhole (w : Worker) (st : Http.FrameStatus) (c : ClientConn) : Framed :=
  if st = .error then { conn := c, next := .refused ⟨400, "request framing", none⟩ }
  else if requestLineOk c.rbuf = false then
    { conn := c, next := .refused ⟨400, "request line", none⟩ }
  else
    match targetRefusal c.rbuf with
    | some r => { conn := c, next := .refused ⟨400, r.why, some (ascii r.detail)⟩ }
    | none =>
        if c.msg.encoded then
          { conn := c, next := .refused ⟨415, "compressed request body", none⟩ }
        else
          match (if w.sink || w.policy then c.captureModel w.setup else (none, c)) with
          | (some why, c) =>
              { conn := c, next := .refused ⟨400, why, some kAmbiguousKeysMessage⟩ }
          | (none, c) => { conn := c.withSlot 0, next := .decide }

/-- A body that waits to its last byte, unless it goes as it arrives. -/
def holdBody (w : Worker) (m : Message) (facts : HeadFacts) (seq : Nat) (t0 : Int)
    (continued : Bool) (c : ClientConn) : Framed :=
  if w.bodyStreamable c.rbuf m = false then
    { conn := { c with clientFrameWant := m.totalLen }, continued := continued }
  else if w.policy ∧ c.rbuf.length < w.decideWant m then
    { conn := { c with clientFrameWant := w.decideWant m }, continued := continued }
  else
    let c := ({ c with clientFrameWant := 0 } : ClientConn).openRequest m facts seq t0
    if w.policy then { conn := c, continued := continued, next := .decideOnHead }
    else { conn := c.withSlot 0, continued := continued, next := .startBody }

/-- `try_frame`; `gone` where the interim 100 finds the client gone. -/
def tryFrame (w : Worker) (gone : Bool) (seq : Nat) (t0 : Int) (c : ClientConn) : Framed :=
  if c.clientFrameWant ≠ 0 ∧ c.rbuf.length < c.clientFrameWant then { conn := c }
  else
    let (st, m, facts) := parseRequestWith (readHead w.setup.strip) c.rbuf {} {}
    if st = .needMore then
      if m.totalLen = 0 then { conn := c }
      else
        let continued := c.clientFrameWant = 0 && c.rbuf.length ≤ m.headerLen && facts.expect = 2
        if continued && gone then { conn := c, continued := true }
        else holdBody w m facts seq t0 continued c
    else
      checkWhole w st (({ c with clientFrameWant := 0 } : ClientConn).openRequest m facts seq t0)

/-! ## Compressed bodies -/

/-- The refusal of a compressed body. -/
def compressed : Refused :=
  ⟨415, "compressed request body", none⟩

/-- Past the checks on the request line and the target, a compressed body is refused, and
no other. -/
theorem checkWhole_compressed {w : Worker} {st : Http.FrameStatus} {c : ClientConn} :
    (checkWhole w st c).next = .refused compressed ↔
      st ≠ .error ∧ requestLineOk c.rbuf = true ∧ targetRefusal c.rbuf = none ∧
        c.msg.encoded = true := by
  unfold checkWhole compressed
  by_cases malformed : st = .error
  · simp [malformed]
  · rw [if_neg malformed]
    by_cases badLine : requestLineOk c.rbuf = false
    · simp [badLine]
    · rw [if_neg badLine]
      rw [Bool.not_eq_false] at badLine
      cases target : targetRefusal c.rbuf with
      | some r => simp
      | none =>
          dsimp only
          by_cases coded : c.msg.encoded = true
          · rw [if_pos coded]
            simp [malformed, badLine, coded]
          · rw [if_neg coded]
            generalize (if (w.sink || w.policy) = true then c.captureModel w.setup
              else (none, c)) = captured
            obtain ⟨why, c'⟩ := captured
            cases why <;> simp [coded]

theorem holdBody_next (w : Worker) (m : Message) (facts : HeadFacts) (seq : Nat) (t0 : Int)
    (continued : Bool) (c : ClientConn) (r : Refused) :
    (holdBody w m facts seq t0 continued c).next ≠ .refused r := by
  unfold holdBody
  split
  · simp
  · split
    · simp
    · dsimp only
      split <;> simp

/-- A connection that is opened for a request holds the bytes it held, and that message. -/
theorem openRequest_held (c : ClientConn) (m : Message) (facts : HeadFacts) (seq : Nat)
    (t0 : Int) :
    (c.openRequest m facts seq t0).rbuf = c.rbuf ∧ (c.openRequest m facts seq t0).msg = m := by
  unfold ClientConn.openRequest
  dsimp only
  split <;> exact ⟨rfl, rfl⟩

/-- What `try_frame` parses. -/
def parsed (w : Worker) (c : ClientConn) : Http.FrameStatus × Message × HeadFacts :=
  parseRequestWith (readHead w.setup.strip) c.rbuf {} {}

/-- A compressed body is refused once the request is whole and its head is in order, and
nothing else is refused so. -/
theorem tryFrame_compressed {w : Worker} {gone : Bool} {seq : Nat} {t0 : Int} {c : ClientConn} :
    (tryFrame w gone seq t0 c).next = .refused compressed ↔
      c.clientFrameWant ≤ c.rbuf.length ∧ (parsed w c).1 = .complete ∧
        requestLineOk c.rbuf = true ∧ targetRefusal c.rbuf = none ∧
        (parsed w c).2.1.encoded = true := by
  unfold tryFrame
  by_cases waits : c.clientFrameWant ≠ 0 ∧ c.rbuf.length < c.clientFrameWant
  · rw [if_pos waits]
    refine iff_of_false (by simp) ?_
    rintro ⟨here, -⟩
    omega
  · rw [if_neg waits]
    have here : c.clientFrameWant ≤ c.rbuf.length := by omega
    rw [← parsed]
    generalize parsed w c = verdict
    obtain ⟨st, m, facts⟩ := verdict
    dsimp only
    by_cases more : st = .needMore
    · rw [if_pos more, more]
      refine iff_of_false ?_ (by simp)
      split
      · simp
      · split
        · simp
        · exact holdBody_next w m facts seq t0 _ c _
    · obtain ⟨rbuf, msg⟩ := openRequest_held { c with clientFrameWant := 0 } m facts seq t0
      rw [if_neg more, checkWhole_compressed, rbuf, msg]
      cases st with
      | needMore => exact absurd rfl more
      | complete => simp [here]
      | error => simp

/-- A compressed body is kept from streaming; any other streams by the other rules. -/
theorem bodyStreamable_encoded (w : Worker) (rbuf : Bytes) (m : Message) :
    w.bodyStreamable rbuf m =
      (!m.encoded && w.bodyStreamable rbuf { m with encoded := false }) := by
  unfold Worker.bodyStreamable
  cases m.encoded <;> simp

/-- A request's `encoded` says whether its combined Content-Encoding lists a coding, and
the gateway refuses it, and keeps it from streaming, exactly then. -/
structure RequestJudged (w : Worker) (c : ClientConn) (lines : List Bytes) : Prop where
  encoded : (parsed w c).2.1.encoded = true ↔ listsCoding lines = true
  refused : (parsed w c).1 = .complete → c.clientFrameWant ≤ c.rbuf.length →
    requestLineOk c.rbuf = true → targetRefusal c.rbuf = none → ∀ gone seq t0,
      (tryFrame w gone seq t0 c).next = .refused compressed ↔ listsCoding lines = true
  held : w.bodyStreamable c.rbuf { (parsed w c).2.1 with encoded := false } = true →
    (w.bodyStreamable c.rbuf (parsed w c).2.1 = false ↔ listsCoding lines = true)

/-- A request is judged by the combined Content-Encoding exactly where its last line
speaks for all of them. -/
theorem requestJudged_iff
    {w : Worker} {c : ClientConn} {n : Nat} (found : find (crlf ++ crlf) c.rbuf = some n)
    (accepted : (parsed w c).1 ≠ .error) {start : Bytes} {lines : List Bytes}
    (head : c.rbuf.take n = join start lines) (clean : ∀ line ∈ start :: lines, Clean line) :
    RequestJudged w c lines ↔ CodedByLast lines := by
  have encoded : ((parsed w c).2.1.encoded = true ↔ listsCoding lines = true) ↔
      CodedByLast lines := Http.parseRequestWith_encoded_iff found accepted head clean
  constructor
  · exact fun judged => encoded.mp judged.encoded
  · intro speaks
    have right := encoded.mpr speaks
    refine ⟨right, ?_, ?_⟩
    · intro whole here lineOk target gone seq t0
      rw [tryFrame_compressed, right]
      exact ⟨fun refused => refused.2.2.2.2, fun coded => ⟨here, whole, lineOk, target, coded⟩⟩
    · intro others
      rw [bodyStreamable_encoded, others, Bool.and_true, Bool.not_eq_false', right]

/-- A compressed body is never taken for plain text, of a request or of a response,
exactly where the last Content-Encoding line speaks for all of them. -/
theorem compressed_told_iff
    {α : Type} (also : α → Http.HeaderLine → α × Bool) (a : α) (request : Bytes)
    (w : Worker) (c : ClientConn) (reply : Bytes) (headRequest : Bool) :
    (∀ n start lines, find (crlf ++ crlf) request = some n →
      (parseRequestWith also request {} a).1 ≠ .error →
      request.take n = join start lines → (∀ line ∈ start :: lines, Clean line) →
      (((parseRequestWith also request {} a).2.1.encoded = true ↔ listsCoding lines = true) ↔
        CodedByLast lines)) ∧
    (∀ n start lines, find (crlf ++ crlf) c.rbuf = some n → (parsed w c).1 ≠ .error →
      c.rbuf.take n = join start lines → (∀ line ∈ start :: lines, Clean line) →
      (RequestJudged w c lines ↔ CodedByLast lines)) ∧
    (∀ out start lines, Http.parseResponseHead reply {} headRequest = (.complete, out) →
      reply.take out.headerLen = join start lines ++ (crlf ++ crlf) →
      (∀ line ∈ start :: lines, Clean line) →
      ((out.encoded = true ↔ listsCoding lines = true) ↔ CodedByLast lines)) := by
  refine ⟨?_, ?_, ?_⟩
  · intro n start lines found accepted head clean
    exact Http.parseRequestWith_encoded_iff found accepted head clean
  · intro n start lines found accepted head clean
    exact requestJudged_iff found accepted head clean
  · intro out start lines complete head clean
    exact Http.parseResponseHead_encoded_iff complete head clean

/-- A worker with one venue and no translations. -/
def plainWorker : Worker where
  setup := { translators := ⟨fun _ => none, fun _ _ => none, fun _ _ => none,
    fun _ _ _ _ => .error "credential", fun _ => ""⟩ }
  upstreams := [default]

/-- The head of a request whose body of two bytes has these codings. -/
def codedHead (codings : String) : Bytes :=
  ascii ("POST / HTTP/1.1\r\nContent-Encoding: " ++ codings ++ "\r\nContent-Length: 2")

/-- The header lines of that request. -/
def codedLines (codings : String) : List Bytes :=
  [ascii ("Content-Encoding: " ++ codings), ascii "Content-Length: 2"]

/-- A connection that holds that request whole. -/
def codedRequest (codings : String) : ClientConn where
  rbuf := codedHead codings ++ (crlf ++ crlf) ++ [0x1f, 0x8b]

/-- One coding is told of. -/
theorem compressed_told_gzip :
    RequestJudged plainWorker (codedRequest "gzip") (codedLines "gzip") := by
  have judged := (compressed_told_iff (fun (_ : Unit) _ => ((), true)) () [] plainWorker
    (codedRequest "gzip") [] false).2.1 (codedHead "gzip").length (ascii "POST / HTTP/1.1")
    (codedLines "gzip") (by decide) (by decide) (by decide) (by decide)
  rw [judged]
  have last : (Http.values "content-encoding" (codedLines "gzip")).getLast? =
      some (ascii " gzip") := by decide
  constructor
  · intro v member
    rw [last, Option.mem_some_iff] at member
    subst member
    decide
  · intro v member
    rw [last, Option.mem_some_iff] at member
    subst member
    decide

/-- A coding before `identity` on one line: the body is taken for plain. -/
theorem compressed_missed :
    (parsed plainWorker (codedRequest "gzip, identity")).1 = .complete ∧
      (tryFrame plainWorker false 0 0 (codedRequest "gzip, identity")).next = .decide ∧
      listsCoding (codedLines "gzip, identity") = true ∧
      ¬ RequestJudged plainWorker (codedRequest "gzip, identity")
        (codedLines "gzip, identity") := by
  refine ⟨by decide, by decide, by decide, fun judged => ?_⟩
  exact absurd (judged.encoded.mpr (by decide)) (by decide)

end Gateway
end Llmbridge
