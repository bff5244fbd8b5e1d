import Llmbridge.Gateway.Configuration
import Llmbridge.Gateway.Request
import Llmbridge.Provider.TranslateBody

/-!
# Requests rebuilt for a venue

`gateway/src/request.cpp` and `gateway/include/gateway/dialect.hpp`: what the request
line says of the client, which translation a venue needs, and the request that a
translation sends.  The translators themselves, the signature of a Bedrock request and
the path of each venue are parameters.
-/

namespace Llmbridge
namespace Gateway

open Rfc8259 (Byte Bytes ascii substr)
open Http1 (find crlf)
open Http (trimOws ltrim sameCi lc)
open Provider (Venue Wire rfind pathOf pathModelOk vertexProjectOk geminiPathModel)
open Translate (TopLevelFacts topLevelFacts modelOf quotable)
open Forward (HeadFacts NamedKey Refusal headerValueSafe contentLengthLine)

/-- `Upstream`. -/
structure Upstream extends Forward.Upstream where
  dialect : Venue := .openAi
  basePath : Bytes := []
  hostHdr : Bytes := []
  query : Bytes := []
  authBearer : Bool := false
  awsRegion : Bytes := []
  deriving DecidableEq, Repr

/-! ## The request line -/

/-- The method and the target of a request line; none where it has no two blanks. -/
def requestLineParts (head : Bytes) : Option (Bytes × Bytes) :=
  let rl := head.take ((find crlf head).getD head.length)
  match rl.findIdx? fun c => c == 0x20 with
  | none => none
  | some sp1 =>
      match rfind [0x20] rl with
      | none => none
      | some sp2 =>
          if sp2 ≤ sp1 then none else some (rl.take sp1, substr rl (sp1 + 1) (sp2 - sp1 - 1))

/-- `target_of`. -/
def targetOf (head : Bytes) : Bytes :=
  ((requestLineParts head).map (·.2)).getD []

/-- `client_wire`. -/
def clientWire (method target : Bytes) : Wire :=
  let path := pathOf target
  if (ascii "/chat/completions").isSuffixOf path then .openAi
  else if (find (ascii "/v1/messages/batches") path).isSome then .anthropic
  else if method ≠ ascii "POST" then .openAi
  else if (ascii "/v1/messages").isSuffixOf path ∨
      (ascii "/v1/messages/count_tokens").isSuffixOf path then .anthropic
  else if (ascii ":generateContent").isSuffixOf path ∨
      (ascii ":streamGenerateContent").isSuffixOf path then .gemini
  else if (ascii "/v2/chat").isSuffixOf path then .cohere
  else .openAi

/-- `client_dialect_of`. -/
def clientDialectOf (head : Bytes) : Wire :=
  match requestLineParts head with
  | none => .openAi
  | some (method, target) => clientWire method target

/-- `body_facts`. -/
def bodyFacts (head body : Bytes) : TopLevelFacts :=
  match clientDialectOf head with
  | .openAi => topLevelFacts body
  | .gemini =>
      let target := targetOf head
      let model := (geminiPathModel target).model
      { model := if pathModelOk model then model else []
        stream := (ascii ":streamGenerateContent").isSuffixOf (pathOf target) }
  | _ => { model := modelOf body }

/-! ## Targets that are refused -/

/-- `hex`. -/
def hexDigit (c : Byte) : Option Nat :=
  if 0x30 ≤ c ∧ c ≤ 0x39 then some (c.toNat - 0x30)
  else if 0x61 ≤ c ||| 0x20 ∧ c ||| 0x20 ≤ 0x66 then some ((c ||| 0x20).toNat - 0x61 + 10)
  else none

/-- A byte of a query parameter's name that no percent sign encodes. -/
def queryByte (c : Byte) : Byte :=
  if c = 0x2b then 0x20 else lc c

/-- The byte that two hexadecimal digits behind a percent sign stand for. -/
def percentByte (c h l : Byte) : Option Byte :=
  if c = 0x25 then
    (hexDigit h).bind fun high => (hexDigit l).map fun low => UInt8.ofNat (high * 16 + low)
  else none

/-- A query parameter's name as a server reads it: percent-decoded, in lower case. -/
def queryName : Bytes → Bytes
  | c :: h :: l :: rest =>
      match percentByte c h l with
      | some b => lc b :: queryName rest
      | none => queryByte c :: queryName (h :: l :: rest)
  | c :: rest => queryByte c :: queryName rest
  | [] => []

/-- `query_has_credential`. -/
def queryHasCredential (query : Bytes) : Bool :=
  (query.splitOnP fun c => c == 0x26 || c == 0x3b).any fun pair =>
    let name := queryName (pair.takeWhile fun c => c != 0x3d)
    name == ascii "key" || name == ascii "access_token"

/-- `query_is`. -/
def queryIs (query pair : Bytes) : Bool :=
  (query.splitOnP fun c => c == 0x26).contains pair

/-- What `refuse::` tells the client. -/
def kKeyInUrl : String :=
  "a key or token in the URL is not forwarded: send it in a header, such as x-goog-api-key"

/-- `kGeminiInteractions`. -/
def kGeminiInteractions : String :=
  "the Gemini Interactions API is not supported"

/-- `kGeminiNoSse`. -/
def kGeminiNoSse : String :=
  "a Gemini streamGenerateContent request needs alt=sse in its query"

/-- `kPathModel`. -/
def kPathModel : String :=
  "the model in the path must be 1 to 255 of A-Z, a-z, 0-9, dot, underscore and hyphen"

/-- The Interactions API's routes. -/
def isInteractions (path : Bytes) : Bool :=
  [ascii "/v1beta/interactions", ascii "/v1alpha/interactions",
    ascii "/v1/interactions"].any fun v =>
      v.isPrefixOf path &&
        (path.length == v.length || path[v.length]? == some 0x2f || path[v.length]? == some 0x3a)

/-- `target_refusal`. -/
def targetRefusal (head : Bytes) : Option Refusal :=
  let target := targetOf head
  let path := pathOf target
  let query := target.drop (path.length + 1)
  if queryHasCredential query then some ⟨"key in the URL", kKeyInUrl⟩
  else if isInteractions path then some ⟨"Gemini Interactions API", kGeminiInteractions⟩
  else if clientDialectOf head ≠ .gemini then none
  else if (ascii ":streamGenerateContent").isSuffixOf path ∧
      queryIs query (ascii "alt=sse") = false then
    some ⟨"Gemini stream without alt=sse", kGeminiNoSse⟩
  else
    let pm := geminiPathModel target
    if pm.at.isSome ∧ pathModelOk pm.model = false then
      some ⟨"model in the path unusable", kPathModel⟩
    else none

/-! ## Translations -/

/-- `TranslationPlan`. -/
structure TranslationPlan where
  ok : Bool := false
  translate : Bool := false
  venue : Venue := .openAi
  why : String := ""
  deriving DecidableEq, Repr

/-- `resolve_translation`. -/
def resolveTranslation (client : Wire) (venue : Venue) (stream : Bool) : TranslationPlan :=
  let s := Provider.spec venue
  if client = s.wire ∧ s.sameWireForwards then ⟨true, false, venue, ""⟩
  else if client ≠ .openAi then
    ⟨false, false, venue,
      if s.sameWireForwards then "no translator for this client dialect to this venue"
      else "venue needs an OpenAI-dialect client"⟩
  else if stream ∧ s.streams = false then ⟨false, false, venue, "venue cannot stream"⟩
  else ⟨true, true, venue, ""⟩

/-- `resolve_dialect`. -/
def resolveDialect (head body : Bytes) (venue : Venue) : TranslationPlan :=
  let client := clientDialectOf head
  let streamMatters := client = .openAi ∧ (Provider.spec venue).streams = false
  resolveTranslation client venue (streamMatters ∧ (topLevelFacts body).stream)

/-- `bearer_token`. -/
def bearerToken (v : Bytes) : Bytes :=
  if v.length ≤ 7 ∨ sameCi (v.take 6) (ascii "bearer") = false ∨
      (v[6]? ≠ some 0x20 ∧ v[6]? ≠ some 0x09) then []
  else ltrim (v.drop 7)

/-- `kAnthropicVersionDefault`. -/
def kAnthropicVersionDefault : Bytes :=
  ascii "2023-06-01"

/-- `line` of `append_auth`. -/
def authLine (name : String) (v : Bytes) : Bytes :=
  if v.isEmpty then [] else ascii name ++ ascii ": " ++ v ++ crlf

/-- `append_auth`: why it is refused, or the credential lines. -/
def appendAuth (mode : Venue) (head : Bytes) (f : HeadFacts) (key : NamedKey) (beta : Bytes)
    (bearer : Bool) : Except String Bytes :=
  let auth := f.authorization.in head
  let xApiKey := f.xApiKey.in head
  let apiKey := f.apiKey.in head
  let goog := f.xGoogApiKey.in head
  let version := f.anthropicVersion.in head
  let versionLine :=
    authLine "anthropic-version" (if version.isEmpty then kAnthropicVersionDefault else version)
  if [auth, xApiKey, apiKey, goog, version].any fun v => !v.isEmpty && !headerValueSafe v then
    .error "credential"
  else if key.isEmpty = false then
    .ok (key.line ++ key.value ++ crlf ++
      (if (Provider.spec mode).auth = .xApiKey then
        versionLine ++ authLine "anthropic-beta" beta
      else []))
  else
    match (Provider.spec mode).auth with
    | .xApiKey =>
        .ok (authLine "x-api-key" (if xApiKey.isEmpty then bearerToken auth else xApiKey) ++
          versionLine ++ authLine "anthropic-beta" beta)
    | .googApiKey =>
        if bearer then
          if (bearerToken auth).isEmpty then .error "no credential"
          else .ok (authLine "Authorization" auth)
        else .ok (authLine "x-goog-api-key" (if goog.isEmpty then bearerToken auth else goog))
    | .bearer => .ok (authLine "Authorization" auth)
    | .apiKey =>
        let key := if apiKey.isEmpty = false then apiKey else xApiKey
        let key := if key.isEmpty then bearerToken auth else key
        if key.isEmpty then .error "no credential" else .ok (authLine "api-key" key)
    | .sigV4 => .error "credential"
    | .forward => .error "credential"

/-- What `VenueSpec` and the signature add to a translated request: `request` and
`target` of each venue, `vertex_project_target`, `sign_bedrock` and
`translate_failure`. -/
structure Translators where
  /-- The venue's body and whether the client asked for usage, from the parsed body, the
  bytes of the body and the model that replaces the client's. -/
  request : Venue → Option (Json.Value → Bytes → Bytes → Option (Bytes × Bool))
  target : Venue → Bytes → Option Bytes
  vertexProjectTarget : Bytes → Bytes → Option Bytes
  signBedrock : Upstream → Bytes → Bytes → Bytes → Except String Bytes
  translateFailure : Bytes → String

/-- `kOpaqueRequestMembers`. -/
def kOpaqueRequestMembers : List Bytes :=
  [ascii "parameters"]

/-- `build_translated_request`: `why`, or `out` and `*wants_stream_usage`. -/
def buildTranslatedRequest (t : Translators) (up : Upstream) (mode : Venue) (body head : Bytes)
    (f : HeadFacts) (modelOverride : Bytes) (key : NamedKey) (beta vertexProject : Bytes) :
    Except String (Bytes × Bool) :=
  let (v, ok) := Json.parse body .unique kOpaqueRequestMembers
  match t.request mode with
  | none => .error "translate"
  | some request =>
      if ok = false ∨ v.type ≠ .object then .error "translate"
      else if modelOverride ≠ [] ∧ (¬ (v.find (ascii "model")).any (·.type = .string) ∨
          quotable modelOverride = false) then .error "translate"
      else
        match request v body modelOverride with
        | none => .error "translate"
        | some (tbody, includeUsage) =>
            let model :=
              if modelOverride.isEmpty then (v.strOr (ascii "model")).bytes else modelOverride
            match (if mode = .vertex ∧ vertexProject ≠ [] then
              t.vertexProjectTarget vertexProject model else t.target mode model) with
            | none => .error "translate"
            | some target =>
                let path := up.basePath ++ target ++
                  (if up.query.isEmpty then [] else ascii "?" ++ up.query)
                let start := ascii "POST " ++ path ++ ascii " HTTP/1.1" ++ crlf ++ ascii "Host: " ++
                  up.hostHdr ++ crlf
                match (if (Provider.spec mode).auth = .sigV4 then
                  (if key.isEmpty = false then .error "credential"
                  else t.signBedrock up (f.authorization.in head) path tbody)
                  else appendAuth mode head f key beta up.authBearer) with
                | .error why => .error why
                | .ok auth =>
                    .ok (start ++ auth ++ ascii "Content-Type: application/json" ++ crlf ++
                      ascii "Connection: keep-alive" ++ crlf ++ contentLengthLine tbody.length ++
                      crlf ++ crlf ++ tbody, includeUsage)

/-- `beta_for`. -/
def betaFor (up : Upstream) (f : ReqState) : Bytes :=
  if (Provider.spec up.dialect).auth = .xApiKey then f.route.betaOverride.view else []

end Gateway
end Llmbridge
