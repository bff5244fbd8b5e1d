import Llmbridge.Gateway.ForwardCorrect

/-!
# Headers that the client's Connection names

`build_forward` drops a header that a Connection line names when its name is none that
the gateway knows, or `anthropic-beta`.  A known header that nothing else drops is
forwarded, named or not.
-/

namespace Llmbridge
namespace Forward

open Rfc8259 (Byte Bytes ascii)
open Http1 (find crlf Clean join)
open Http
open Provider (Venue)

/-- The names of the headers that the gateway knows and always forwards. -/
def outliving : List String :=
  ["content-encoding", "content-type", "anthropic-version", "retry-after", "request-id",
    "x-request-id", "x-amzn-requestid", "x-ratelimit-remaining-requests",
    "anthropic-ratelimit-requests-remaining", "anthropic-ratelimit-input-tokens-remaining",
    "anthropic-ratelimit-output-tokens-remaining", "x-ratelimit-remaining-tokens"]

/-- The fields of these names. -/
def outlivingFields : List Field :=
  [.contentEncoding, .contentType, .anthropicVersion, .retryAfter, .requestId,
    .requestsRemaining, .inputTokensRemaining, .outputTokensRemaining, .tokensRemaining]

theorem namedIn_flatMap {fields : List Field} (listed : ∀ f ∈ fields, f ≠ .other) (line : Bytes) :
    namedIn (fields.flatMap Field.names) line =
      fields.any fun f => classify (nameOf line) = f := by
  rw [Bool.eq_iff_iff, namedIn, List.any_eq_true, List.any_eq_true]
  constructor
  · rintro ⟨lower, member, same⟩
    obtain ⟨f, inside, names⟩ := List.mem_flatMap.mp member
    exact ⟨f, inside, decide_eq_true ((classify_eq (listed f inside)).mpr ⟨lower, names, same⟩)⟩
  · rintro ⟨f, inside, same⟩
    obtain ⟨lower, names, is⟩ := (classify_eq (listed f inside)).mp (of_decide_eq_true same)
    exact ⟨lower, List.mem_flatMap.mpr ⟨f, inside, names⟩, is⟩

theorem namedIn_outliving (line : Bytes) :
    namedIn outliving line = outlivingFields.any fun f => classify (nameOf line) = f :=
  @namedIn_flatMap outlivingFields (by decide) line

/-- A line that is forwarded whether a Connection line names it or not: a header that is
always forwarded, the Host where the gateway writes none, or a credential where the
policy names no key; and none of the strip list. -/
def crosses (strip : List Bytes) (hostHdr : Bytes) (key : NamedKey) (line : Bytes) : Bool :=
  !stripped (nameOf line) strip &&
    (namedIn outliving line || (namedIn ["host"] line && hostHdr.isEmpty) ||
      (namedIn credentials line && key.isEmpty))

/-- A named line is kept exactly when it crosses. -/
theorem keeps_listed {strip lines : List Bytes} {hostHdr : Bytes} {key : NamedKey} {line : Bytes}
    {d : Drops} (same : d.hostHdr = hostHdr ∧ d.strip = strip ∧ d.keyed = !key.isEmpty)
    (listed : d.listed (nameOf line) = connectionNames lines (nameOf line))
    (uncoded : classify (nameOf line) ≠ .transferEncoding)
    (named : connectionNames lines (nameOf line) = true) :
    d.keeps line = crosses strip hostHdr key line := by
  obtain ⟨rfl, rfl, keyed⟩ := same
  unfold Drops.keeps Drops.drop crosses
  rw [namedIn_outliving, namedIn_host, namedIn_credentials, keyed, listed, named]
  generalize classify (nameOf line) = field at uncoded ⊢
  cases field with
  | transferEncoding => exact absurd rfl uncoded
  | _ =>
      cases stripped (nameOf line) d.strip <;> cases key.isEmpty <;> cases d.hostHdr.isEmpty <;>
        simp [outlivingFields, credentialFields, hopByHop]

/-- A head that is forwarded: the request line written for the client's, the gateway's own
lines, and the client's that are copied. -/
structure Copied (msg : Bytes) (f : HeadFacts) (start : Bytes) (lines : List Bytes)
    (hostHdr basePath : Bytes) (declared : Nat) (key : NamedKey) (beta pathModel : Bytes)
    (venue : Venue) (vertexProject body line : Bytes) (kept : List Bytes) (out : Bytes) :
    Prop where
  clean : ∀ found ∈ start :: lines, Clean found
  request : RequestLine start basePath pathModel venue vertexProject line
  sublist : kept.Sublist lines
  written : ∃ clientBeta token,
    betaOf msg f beta (connectionNames lines) = .ok (clientBeta, token) ∧
      out = join line (added hostHdr f.contentLength declared key clientBeta token ++ kept) ++
        crlf ++ crlf ++ body

/-- No header that the client's Connection names is copied, exactly where none of those
that it names crosses. -/
theorem buildForward_listed_iff
    {strip : List Bytes} {msg : Bytes} {n : Nat} (found : find (crlf ++ crlf) msg = some n)
    (accepted : (parseRequestWith (readHead strip) msg {} {}).1 ≠ .error)
    {hostHdr basePath body : Bytes} {declared : Nat} {key : NamedKey} {beta pathModel : Bytes}
    {venue : Venue} {vertexProject out : Bytes}
    (built : buildForward msg (parseRequestWith (readHead strip) msg {} {}).2.1.headerLen
      (parseRequestWith (readHead strip) msg {} {}).2.2 strip hostHdr basePath body declared key
      beta pathModel venue vertexProject = (none, out)) :
    ∃ start lines line kept,
      msg.take n = join start lines ∧
      Copied msg (parseRequestWith (readHead strip) msg {} {}).2.2 start lines hostHdr basePath
        declared key beta pathModel venue vertexProject body line kept out ∧
      ((∀ copied ∈ kept, connectionNames lines (nameOf copied) = false) ↔
        ∀ sent ∈ lines, connectionNames lines (nameOf sent) = true →
          crosses strip hostHdr key sent = false) := by
  obtain ⟨headerLen, start, lines, head⟩ := accepted_head found accepted
  generalize parseRequestWith (readHead strip) msg {} {} = parsed at head headerLen built ⊢
  obtain ⟨-, shape⟩ := buildForward_shape head hostHdr basePath body declared key beta
    pathModel venue vertexProject built
  obtain ⟨few, clientBeta, token, line, joined, isLine, written⟩ := shape rfl
  have asked : listedIn msg parsed.2.2 = connectionNames lines := funext (head.listed few)
  rw [asked] at joined written
  refine ⟨start, lines, line, _, ?_,
    ⟨head.clean, isLine, List.filter_sublist, clientBeta, token, joined, written⟩, ?_⟩
  · have front := head.head
    rw [headerLen, Nat.add_sub_cancel] at front
    exact front
  · have keeps : ∀ sent ∈ lines, connectionNames lines (nameOf sent) = true →
        Drops.keeps ⟨hostHdr, strip, !key.isEmpty, !token.isEmpty, connectionNames lines⟩ sent =
          crosses strip hostHdr key sent := fun sent member =>
      keeps_listed ⟨rfl, rfl, rfl⟩ rfl (head.uncoded sent member)
    constructor
    · intro none sent member named
      by_contra through
      have copied := none sent (List.mem_filter.mpr ⟨member, by
        rw [keeps sent member named]
        exact Bool.eq_true_of_not_eq_false through⟩)
      rw [named] at copied
      exact absurd copied (by decide)
    · intro stops copied inside
      obtain ⟨member, kept⟩ := List.mem_filter.mp inside
      by_contra named
      have listed := Bool.eq_true_of_not_eq_false named
      rw [keeps copied member listed, stops copied member listed] at kept
      exact absurd kept (by decide)

/-- A request whose Connection names a request id. -/
def listedRequest : Bytes :=
  ascii "POST /v1 HTTP/1.1\r\nHost: c\r\nConnection: x-request-id\r\n" ++
    ascii "X-Request-Id: 7\r\n\r\n"

/-- The request id goes to the venue. -/
theorem listedRequest_crosses :
    (parseRequestWith (readHead []) listedRequest {} {}).1 ≠ .error ∧
      buildForward listedRequest (parseRequestWith (readHead []) listedRequest {} {}).2.1.headerLen
          (parseRequestWith (readHead []) listedRequest {} {}).2.2 [] (ascii "venue") [] [] 0 {}
          [] [] .openAi [] =
        (none, ascii "POST /v1 HTTP/1.1\r\nHost: venue\r\nX-Request-Id: 7\r\n\r\n") ∧
      connectionNames [ascii "Host: c", ascii "Connection: x-request-id",
        ascii "X-Request-Id: 7"] (nameOf (ascii "X-Request-Id: 7")) = true :=
  ⟨by decide, by rfl, by decide⟩

/-- The same of that request with the header on the strip list. -/
theorem buildForward_listed_iff_stripped :
    ∃ start lines line kept,
      listedRequest.take 69 = join start lines ∧
      Copied listedRequest
        (parseRequestWith (readHead [ascii "x-request-id"]) listedRequest {} {}).2.2 start lines
        (ascii "venue") [] 0 {} [] [] .openAi [] [] line kept
        (ascii "POST /v1 HTTP/1.1\r\nHost: venue\r\n\r\n") ∧
      ((∀ copied ∈ kept, connectionNames lines (nameOf copied) = false) ↔
        ∀ sent ∈ lines, connectionNames lines (nameOf sent) = true →
          crosses [ascii "x-request-id"] (ascii "venue") {} sent = false) :=
  @buildForward_listed_iff [ascii "x-request-id"] listedRequest 69 (by decide) (by decide)
    (ascii "venue") [] [] 0 {} [] [] .openAi [] _ (by rfl)

end Forward
end Llmbridge
