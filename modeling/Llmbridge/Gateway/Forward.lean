import Llmbridge.Net.Http
import Llmbridge.Provider.Venues

/-!
# Byte-forwarded requests

`gateway/src/request.cpp`: the facts `HeadReader` takes from a head, the key a policy
names, and `build_forward`.
-/

namespace Llmbridge
namespace Forward

open Rfc8259 (Byte Bytes ascii substr)
open Http1 (find crlf)
open Http (Field HeaderLine hopByHop hasToken sameCi lineIs ltrim trimOws isOws lc)
open Provider (Venue pathModelOk vertexProjectOk geminiForwardTarget)

/-! ## Head facts -/

/-- `Span`. -/
structure Span where
  «at» : Nat := 0
  len : Nat := 0
  deriving DecidableEq, Repr

/-- `in`. -/
def Span.in (s : Span) (head : Bytes) : Bytes :=
  substr head s.at s.len

/-- `empty`. -/
def Span.isEmpty (s : Span) : Bool :=
  s.len = 0

/-- `kConnections`. -/
def kConnections : Nat := 4

/-- `kKeyHeaders`. -/
def kKeyHeaders : Nat := 8

/-- `HeadFacts`. -/
structure HeadFacts where
  authorization : Span := {}
  xApiKey : Span := {}
  apiKey : Span := {}
  xGoogApiKey : Span := {}
  anthropicVersion : Span := {}
  connection : List Span := []
  connections : Nat := 0
  expect : Nat := 0
  contentLength : Bool := false
  contentType : Span := {}
  keyName : List Span := []
  keyValue : List Span := []
  keyHeaders : Nat := 0
  anthropicBeta : Span := {}
  anthropicBetas : Nat := 0
  deriving DecidableEq, Repr

/-- `stripped`. -/
def stripped (name : Bytes) (strip : List Bytes) : Bool :=
  strip.any fun s => sameCi name (if s.getLast? = some 0x3a then s.dropLast else s)

/-- `kKeyHeaderPrefix`. -/
def kKeyHeaderPrefix : Bytes :=
  ascii "x-kottos-key-"

/-- `kMaxKeyHeaderName`. -/
def kMaxKeyHeaderName : Nat := 64

/-- `key_header_ok`. -/
def keyHeaderOk (name : Bytes) : Bool :=
  kKeyHeaderPrefix.length < name.length && name.length ≤ kMaxKeyHeaderName &&
    lineIs name kKeyHeaderPrefix &&
    ((name.drop kKeyHeaderPrefix.length).map lc).all fun c =>
      Provider.isLower c || Provider.isDigit c || c == 0x2d || c == 0x5f || c == 0x2e

/-- The span of a name. -/
def nameSpan (h : HeaderLine) : Span :=
  ⟨h.at, h.name.length⟩

/-- The span of a value, as sent. -/
def valueSpan (h : HeaderLine) : Span :=
  ⟨h.valueAt, h.value.length⟩

/-- The span of a value without the blanks around it. -/
def trimmedSpan (h : HeaderLine) : Span :=
  ⟨h.valueAt + (h.value.takeWhile isOws).length, (trimOws h.value).length⟩

/-- `cred` of `HeadReader`: the first that is not stripped. -/
def credential (strip : List Bytes) (h : HeaderLine) (s : Span) : Span :=
  if s.isEmpty ∧ stripped h.name strip = false then trimmedSpan h else s

/-- `HeadReader`. -/
def headReader (strip : List Bytes) (f : HeadFacts) (h : HeaderLine) : HeadFacts :=
  match h.field with
  | .authorization => { f with authorization := credential strip h f.authorization }
  | .xApiKey => { f with xApiKey := credential strip h f.xApiKey }
  | .apiKey => { f with apiKey := credential strip h f.apiKey }
  | .xGoogApiKey => { f with xGoogApiKey := credential strip h f.xGoogApiKey }
  | .anthropicVersion => { f with anthropicVersion := credential strip h f.anthropicVersion }
  | .anthropicBeta =>
      if stripped h.name strip ∨ f.anthropicBetas = 2 then f
      else
        { f with
          anthropicBetas := f.anthropicBetas + 1
          anthropicBeta := if f.anthropicBetas = 0 then trimmedSpan h else f.anthropicBeta }
  | .contentLength => { f with contentLength := true }
  | .contentType =>
      if f.contentType.isEmpty then { f with contentType := valueSpan h } else f
  | .expect =>
      if f.expect = 0 then
        let v := ltrim h.value
        { f with expect := if 12 ≤ v.length ∧ lineIs v (ascii "100-continue") then 2 else 1 }
      else f
  | .connection =>
      { f with
        connection :=
          if f.connections < kConnections then f.connection ++ [valueSpan h] else f.connection
        connections := if f.connections ≤ kConnections then f.connections + 1 else f.connections }
  | .other =>
      if keyHeaderOk h.name then
        { f with
          keyName := if f.keyHeaders < kKeyHeaders then f.keyName ++ [nameSpan h] else f.keyName
          keyValue :=
            if f.keyHeaders < kKeyHeaders then f.keyValue ++ [trimmedSpan h] else f.keyValue
          keyHeaders := if f.keyHeaders ≤ kKeyHeaders then f.keyHeaders + 1 else f.keyHeaders }
      else f
  | _ => f

/-- `HeadReader` as the visitor of a walk: it refuses no line. -/
def readHead (strip : List Bytes) (f : HeadFacts) (h : HeaderLine) : HeadFacts × Bool :=
  (headReader strip f h, true)

/-! ## Keys and beta tokens -/

/-- `header_value_safe`. -/
def headerValueSafe (v : Bytes) : Bool :=
  !v.isEmpty && v.length ≤ 8192 && v.all fun c => 0x20 ≤ c ∧ c ≤ 0x7e

/-- `key_line_for`; empty for a venue that signs. -/
def keyLineFor (venue : Venue) (bearer : Bool) : Bytes :=
  match (Provider.spec venue).auth with
  | .forward => ascii "Authorization: Bearer "
  | .bearer => ascii "Authorization: Bearer "
  | .xApiKey => ascii "x-api-key: "
  | .googApiKey => if bearer then ascii "Authorization: Bearer " else ascii "x-goog-api-key: "
  | .apiKey => ascii "api-key: "
  | .sigV4 => []

/-- `NamedKey`. -/
structure NamedKey where
  line : Bytes := []
  value : Bytes := []
  deriving DecidableEq, Repr

/-- `empty`. -/
def NamedKey.isEmpty (key : NamedKey) : Bool :=
  key.line.isEmpty

/-- `Refusal`: the reason logged, and the client's text. -/
structure Refusal where
  why : String
  detail : String
  deriving DecidableEq, Repr

/-- `named_key`. -/
def namedKey (head : Bytes) (f : HeadFacts) (name : Bytes) (venue : Venue) (bearer : Bool) :
    Except Refusal NamedKey :=
  let line := keyLineFor venue bearer
  if line.isEmpty then
    .error ⟨"credential header unusable",
      "the provider key header this request is routed with cannot be used for its venue"⟩
  else if kKeyHeaders < f.keyHeaders then
    .error ⟨"too many credential headers",
      "a request routed with a provider key header carries at most 8 x-kottos-key- headers"⟩
  else
    let seen := (f.keyName.zip f.keyValue).filter fun entry => sameCi (entry.1.in head) name
    let value := (seen.head?.map fun entry => entry.2.in head).getD []
    if 1 < seen.length then
      .error ⟨"credential header repeated",
        "the provider key header this request is routed with appears more than once"⟩
    else if value.isEmpty then
      .error ⟨"credential header missing",
        "the provider key header this request is routed with is missing or empty"⟩
    else if headerValueSafe value = false then
      .error ⟨"malformed credential",
        "a credential header holds bytes that cannot be forwarded (control characters are refused)"⟩
    else .ok ⟨line, value⟩

/-- `kMaxBetaToken`. -/
def kMaxBetaToken : Nat := 64

/-- `beta_token_ok`. -/
def betaTokenOk (t : Bytes) : Bool :=
  !t.isEmpty && t.length ≤ kMaxBetaToken &&
    t.all fun c =>
      Provider.isLower c || Provider.isDigit c || c == 0x2d || c == 0x5f || c == 0x2e

/-! ## The forwarded request -/

/-- `target_path_ok`, behind the query's start. -/
def pathOk : Bytes → Bool
  | [] => true
  | c :: rest =>
      let encoded :=
        c = 0x25 ∧ 2 ≤ rest.length ∧
          ((rest[0]? = some 0x32 ∧
              (rest[1]?.any fun b => b ||| 0x20 == 0x65 || b ||| 0x20 == 0x66)) ∨
            (rest[0]? = some 0x35 ∧ (rest[1]?.any fun b => b ||| 0x20 == 0x63)))
      let segment := rest.takeWhile fun b => b != 0x2f
      let dots := c = 0x2f ∧ (segment = [0x2e] ∨ segment = [0x2e, 0x2e])
      if c = 0x5c ∨ encoded ∨ dots then false else pathOk rest

/-- `target_path_ok`. -/
def targetPathOk (target : Bytes) : Bool :=
  pathOk (Provider.pathOf target)

/-- `append_decimal`. -/
def decimal (n : Nat) : Bytes :=
  (Nat.toDigits 10 n).map fun c => c.toUInt8

/-- `append_content_length`. -/
def contentLengthLine (n : Nat) : Bytes :=
  ascii "Content-Length: " ++ decimal n

/-- The parts of a request line: the method with its space, the target and the version;
none where the target is not in origin form. -/
def originForm (rl : Bytes) : Option (Bytes × Bytes × Bytes) :=
  match rl.findIdx? fun c => c == 0x20 with
  | none => none
  | some sp1 =>
      match (rl.drop (sp1 + 1)).findIdx? fun c => c == 0x20 with
      | none => none
      | some len =>
          if len = 0 ∨ rl[sp1 + 1]? ≠ some 0x2f then none
          else some (rl.take (sp1 + 1), substr rl (sp1 + 1) len, rl.drop (sp1 + 1 + len + 1))

/-- What decides which of the client's lines a forwarded request drops. -/
structure Drops where
  hostHdr : Bytes
  strip : List Bytes
  keyed : Bool
  merge : Bool
  listed : Bytes → Bool

/-- Whether a header line is dropped. -/
def Drops.drop (d : Drops) (field : Field) (name : Bytes) : Bool :=
  (field = .host && !d.hostHdr.isEmpty) ||
    field = .contentLength || field = .expect ||
    field = .acceptEncoding || hopByHop field ||
    stripped name d.strip ||
    (d.keyed && (field = .authorization || field = .xApiKey ||
      field = .apiKey || field = .xGoogApiKey)) ||
    (field = .anthropicBeta && (d.merge || d.listed name)) ||
    (field = .other && (lineIs name kKeyHeaderPrefix || d.listed name))

/-- What the copying walk holds: the request so far, and where the run of kept lines
starts. -/
structure Copy where
  into : Bytes
  run : Nat
  deriving DecidableEq, Repr

/-- One line of the copying walk: at a dropped one, the run before it is written. -/
def copyLine (head : Bytes) (d : Drops) (c : Copy) (h : HeaderLine) : Copy × Bool :=
  if d.drop h.field h.name then
    ({ into := if c.run < h.at then c.into ++ substr head c.run (h.at - c.run) else c.into
       run := h.valueAt + h.value.length + 2 }, true)
  else (c, true)

/-- The client's beta list that the policy's token joins, and the token still to add;
or why the request is refused. -/
def betaOf (msg : Bytes) (f : HeadFacts) (beta : Bytes) (listed : Bytes → Bool) :
    Except String (Bytes × Bytes) :=
  if beta ≠ [] ∧ listed (ascii "anthropic-beta") = false then
    if 1 < f.anthropicBetas then .error "anthropic-beta repeated"
    else
      let clientBeta := f.anthropicBeta.in msg
      if clientBeta ≠ [] ∧ headerValueSafe clientBeta = false then .error "anthropic-beta unusable"
      else .ok (clientBeta, if hasToken clientBeta beta then [] else beta)
  else .ok ([], beta)

/-- `listed` of `build_forward`: one of the client's Connection headers names it. -/
def listedIn (msg : Bytes) (f : HeadFacts) (name : Bytes) : Bool :=
  f.connection.any fun s => hasToken (s.in msg) name

/-- `build_forward`: why it is refused, if it is, and `into`. -/
def buildForward (msg : Bytes) (headerLen : Nat) (f : HeadFacts) (strip : List Bytes)
    (hostHdr basePath body : Bytes) (declared : Nat) (key : NamedKey) (beta pathModel : Bytes)
    (venue : Venue) (vertexProject : Bytes) : Option String × Bytes :=
  let into : Bytes := []
  if kConnections < f.connections then (some "too many Connection headers", into)
  else
    let listed := listedIn msg f
    match betaOf msg f beta listed with
    | .error why => (some why, into)
    | .ok (clientBeta, beta) =>
        let head := msg.take (headerLen - 4)
        let eol := (find crlf head).getD head.length
        match originForm (head.take eol) with
        | none => (some "request target not origin-form", into)
        | some (method, target, version) =>
            if targetPathOk target = false then (some "request target not origin-form", into)
            else if pathModel ≠ [] ∧ pathModelOk pathModel = false then
              (some "model override unusable in a path", into)
            else if vertexProject ≠ [] ∧ vertexProjectOk vertexProject = false then
              (some "vertex project unusable in a path", into)
            else
              let into := into ++ method ++ basePath
              let project := if venue = .vertex then vertexProject else []
              match (if (Provider.spec venue).wire ≠ .gemini then some target
                else geminiForwardTarget target pathModel venue project) with
              | none => (some "model override for a target that names no model", [])
              | some target =>
                  let version := if version = ascii "HTTP/1.0" then ascii "HTTP/1.1" else version
                  let into := into ++ target ++ ascii " " ++ version ++ crlf
                  let into :=
                    if hostHdr.isEmpty then into else into ++ ascii "Host: " ++ hostHdr ++ crlf
                  let into :=
                    if f.contentLength ∨ declared ≠ 0 then
                      into ++ contentLengthLine declared ++ crlf
                    else into
                  let into := if key.isEmpty then into else into ++ key.line ++ key.value ++ crlf
                  let merge := !beta.isEmpty
                  let into :=
                    if merge then
                      into ++ ascii "anthropic-beta: " ++ clientBeta ++
                        (if clientBeta.isEmpty then [] else ascii ",") ++ beta ++ crlf
                    else into
                  let drops : Drops := ⟨hostHdr, strip, !key.isEmpty, merge, listed⟩
                  match Http.walkHeaders (copyLine head drops) head ⟨into, eol + 2⟩ with
                  | (false, _) => (some "request head", [])
                  | (true, c) =>
                      let into :=
                        if c.run < head.length then c.into ++ head.drop c.run ++ crlf else c.into
                      (none, into ++ crlf ++ body)

end Forward
end Llmbridge
