import Llmbridge.Gateway.Connections
import Llmbridge.Gateway.Rebuild

/-!
# One attempt at a request

What an attempt is made of: `open_request`, `capture_model`, `apply_decision`,
`apply_hedge`, the request that `dispatch` builds, `take_request`, and what
`failover_target` and `upstream_failed` do with a retry.  `gateway/src/core/client.cpp`,
`hedge.cpp`, `body.cpp`, `sink.cpp` and `upstream.cpp`.
-/

namespace Llmbridge
namespace Gateway

open Rfc8259 (Byte Bytes ascii)
open Provider (Venue pathModelOk vertexProjectOk geminiPathModel geminiVertexScoped)
open Forward (HeadFacts NamedKey Refusal namedKey keyHeaderOk betaTokenOk buildForward
  kMaxBetaToken kMaxKeyHeaderName)
open Translate (KeyCheck)

/-- A reply of the gateway's own: its status, the reason logged, and what a 4xx shows. -/
structure Refused where
  code : Int
  why : String
  detail : Option Bytes := none
  deriving DecidableEq, Repr

/-- `refuse::kKeyHeaderUnusable`. -/
def kKeyHeaderUnusable : Bytes :=
  ascii "the provider key header this request is routed with cannot be used for its venue"

/-- `refuse::kNoCredential`. -/
def kNoCredential : Bytes :=
  ascii "no credential: send api-key, x-api-key or Authorization: Bearer"

/-- `refuse::kCredential`. -/
def kCredential : Bytes :=
  ascii ("a credential header holds bytes that cannot be forwarded " ++
    "(control characters are refused)")

/-- `refuse::kBedrockCredential`. -/
def kBedrockCredential : Bytes :=
  ascii ("a Bedrock venue is signed with the caller's AWS access key pair, sent as " ++
    "Bearer ACCESS_KEY_ID:SECRET or ACCESS_KEY_ID:SECRET:SESSION_TOKEN; the bearer " ++
    "sent is not one (a Bedrock API key is not accepted here)")

/-- `refuse::kVertexProject`. -/
def kVertexProject : Bytes :=
  ascii ("this Vertex venue takes an OAuth token, which needs a project-scoped Gemini path: " ++
    "/v1/projects/\x7bproject\x7d/locations/\x7blocation\x7d/publishers/google/models/" ++
    "\x7bmodel\x7d:...")

/-- What the gateway is set up with that an attempt reads. -/
structure Setup where
  strip : List Bytes := []
  translators : Translators
  wantsPrefixHash : Bool := false
  prefixHashOf : Bytes → UInt64 := fun _ => 0

instance : Inhabited Upstream :=
  ⟨{ port := 0, tls := false }⟩

/-- `venue_at`. -/
def venueAt (table : List Upstream) (slot : Int) : Upstream :=
  let i := if 0 ≤ slot then slot.toNat else 0
  table.getD (if i < table.length then i else 0) default

/-- A slot of the table. -/
def inTable (table : List Upstream) (slot : Int) : Bool :=
  0 ≤ slot ∧ slot.toNat < table.length

namespace ClientConn

/-! ## The request as framed -/

/-- `open_request`. -/
def openRequest (c : ClientConn) (m : Http.Message) (head : HeadFacts) (seq : Nat) (t0 : Int) :
    ClientConn :=
  let req := c.req.begin seq
  let c := { c with
    links := { c.links with upstreamSlot := -1 }
    msg := m
    req := { req with f := { req.f with
      tsReqRecvd := t0
      captured := { head := head, modelInPath := clientDialectOf c.rbuf = .gemini } } } }
  if c.rbuf.length < m.totalLen then c
  else { c with tsFirstByte := if c.rbuf.length > m.totalLen then t0 else 0 }

/-- `kPrefixHashBytes`. -/
def kPrefixHashBytes : Nat := 4096

/-- `capture_model`: why to refuse, if there is a reason. -/
def captureModel (setup : Setup) (c : ClientConn) : Option String × ClientConn :=
  let top := bodyFacts c.head c.body
  let captured := { c.req.f.captured with
    askedStream := top.stream
    askedUsage := top.includeUsage
    askedCacheTtl := .set top.cacheTtl }
  let c' := { c with req := { c.req with f := { c.req.f with captured := captured } } }
  match top.keys with
  | .duplicateKey => (some "duplicate top-level key", c')
  | .escapedKey => (some "escaped top-level key", c')
  | .tooManyKeys => (some "too many top-level keys", c')
  | .ok =>
      let captured :=
        if top.model.length ≤ 64 then { captured with model := .set top.model } else captured
      let captured :=
        if setup.wantsPrefixHash ∧ c.body ≠ [] then
          { captured with prefixHash := setup.prefixHashOf (c.body.take kPrefixHashBytes) }
        else captured
      (none, { c with req := { c.req with f := { c.req.f with captured := captured } } })

end ClientConn

/-! ## The decision -/

/-- The four overrides that a decision or a retry names, each copied whole or refused:
the first that does not fit ends it. -/
def Route.setOverrides (r : Route) (model tier speed geo : Bytes) : Bool × Route :=
  let r := { r with modelOverride := .set model }
  if FixedStr.fits 255 model = false then (false, r)
  else
    let r := { r with tierOverride := .set tier }
    if FixedStr.fits 32 tier = false then (false, r)
    else
      let r := { r with speedOverride := .set speed }
      if FixedStr.fits 32 speed = false then (false, r)
      else
        let r := { r with geoOverride := .set geo }
        (FixedStr.fits 32 geo, r)

namespace ReqState

/-- A leg's copy, as `apply_hedge` writes it. -/
def legCopy (l : HedgeLeg) : HedgeLegCopy where
  venue := l.upstreamIndex
  model := .set l.model
  tier := .set l.serviceTier
  speed := .set l.speed
  geo := .set l.inferenceGeo
  beta := .set l.anthropicBeta
  key := .set l.credentialHeader

/-- Why `apply_hedge` refuses a leg. -/
def badLeg (table : List Upstream) (f : ReqState) (l : HedgeLeg) : Option String :=
  if inTable table l.upstreamIndex = false then some "policy hedge leg past the table"
  else if keyHeaderOk l.credentialHeader = false then some "policy hedge leg names no usable key"
  else if f.captured.modelInPath ∧ l.model ≠ [] ∧ pathModelOk l.model = false then
    some "policy hedge leg model unusable in a path"
  else if l.anthropicBeta ≠ [] ∧ betaTokenOk l.anthropicBeta = false then
    some "policy hedge leg anthropic_beta unusable"
  else if FixedStr.fits 255 l.model = false ∨ FixedStr.fits 32 l.serviceTier = false ∨
      FixedStr.fits 32 l.speed = false ∨ FixedStr.fits 32 l.inferenceGeo = false then
    some "policy hedge leg override longer than the gateway holds"
  else none

/-- Why `apply_hedge` refuses the decision itself. -/
def badHedge (f : ReqState) (d : Decision) : Option String :=
  if d.hedge = none ∨ kMaxHedgeLegs < d.hedgeLegs then some "policy hedge unusable"
  else if d.credentialHeader = [] then some "policy hedge names no key for its own venue"
  else if d.substituteModel ≠ [] then some "policy hedge with a model substitution"
  else if f.captured.modelInPath ∧ d.model ≠ [] ∧ pathModelOk d.model = false then
    some "policy model unusable in a path"
  else none

/-- `apply_hedge`: why it is refused, if it is, and what it writes. -/
def applyHedge (table : List Upstream) (f : ReqState) (d : Decision) : Option Refused × ReqState :=
  let f := { f with hedgeN := 0 }
  if d.hedgeLegs = 0 then (none, f)
  else
    let legs := (d.hedge.getD []).take d.hedgeLegs
    match (f.badHedge d).or (legs.findSome? (badLeg table f)) with
    | some bad => (some ⟨500, bad, none⟩, f)
    | none => (none, { f with hedge := legs.map legCopy, hedgeN := d.hedgeLegs })

end ReqState

namespace ClientConn

/-- A connection with another request state. -/
def withReq (c : ClientConn) (f : ReqState) : ClientConn :=
  { c with req := { c.req with f := f } }

@[simp] theorem withReq_f (c : ClientConn) (f : ReqState) : (c.withReq f).req.f = f := rfl

@[simp] theorem withReq_rbuf (c : ClientConn) (f : ReqState) : (c.withReq f).rbuf = c.rbuf := rfl

@[simp] theorem withReq_msg (c : ClientConn) (f : ReqState) : (c.withReq f).msg = c.msg := rfl

@[simp] theorem withReq_links (c : ClientConn) (f : ReqState) :
    (c.withReq f).links = c.links := rfl

@[simp] theorem withReq_saved (c : ClientConn) (f : ReqState) :
    (c.withReq f).req.saved = c.req.saved := rfl

/-- The venue that `apply_decision` picks: out of range is the first; none where a key is
named for a venue past the table. -/
def slotOf (table : List Upstream) (d : Decision) : Option Int :=
  if inTable table d.upstreamIndex then some d.upstreamIndex
  else if 0 ≤ d.upstreamIndex ∧ d.credentialHeader ≠ [] then none
  else some 0

/-- A connection served by another venue. -/
def withSlot (c : ClientConn) (slot : Int) : ClientConn :=
  { c with links := { c.links with upstreamSlot := slot } }

/-- A connection whose attempts have another route. -/
def withRoute (c : ClientConn) (r : Route) : ClientConn :=
  c.withReq { c.req.f with route := r }

/-- `apply_decision`: why it is refused, if it is, and what it writes. -/
def applyDecision (table : List Upstream) (c : ClientConn) (d : Decision) :
    Option Refused × ClientConn :=
  match slotOf table d with
  | none => (some ⟨500, "policy named a key for a venue past the table", none⟩, c.withSlot 0)
  | some slot =>
      let c := c.withSlot slot
      let (fit, r) := c.req.f.route.setOverrides d.model d.serviceTier d.speed d.inferenceGeo
      if fit = false then
        (some ⟨500, "policy override longer than the gateway holds", none⟩, c.withRoute r)
      else if d.anthropicBeta ≠ [] ∧ betaTokenOk d.anthropicBeta = false then
        (some ⟨500, "policy anthropic_beta unusable", none⟩, c.withRoute r)
      else
        let r := { r with betaOverride := .set d.anthropicBeta }
        if substitutionOk d.substituteModel d.substituteFor = false then
          (some ⟨500, "policy model substitution unusable", none⟩, c.withRoute r)
        else
          let r := { r with
            substModel := .set d.substituteModel
            substFor := .set d.substituteFor }
          if d.credentialHeader ≠ [] ∧ keyHeaderOk d.credentialHeader = false then
            (some ⟨400, "credential header unusable", some kKeyHeaderUnusable⟩, c.withRoute r)
          else
            let r := { r with keyHeader := .set d.credentialHeader }
            if d.vertexProject ≠ [] ∧ vertexProjectOk d.vertexProject = false then
              (some ⟨500, "policy vertex_project unusable", none⟩, c.withRoute r)
            else
              let r := { r with vertexProject := .set d.vertexProject }
              let (bad, f) :=
                { c.req.f with route := r, policyTag := d.tag : ReqState }.applyHedge table d
              (bad, c.withReq f)

end ClientConn

/-! ## What is sent -/

namespace ReqState

/-- `resolve_substitution`. -/
def resolveSubstitution (f : ReqState) : ReqState :=
  let plan := { f.plan with splice := false, modelSubstituted := false, membersSpliced := 0 }
  if f.route.substModel.isEmpty ∨ f.route.modelOverride.isEmpty = false ∨
      f.captured.model.view ≠ f.route.substFor.view then { f with plan := plan }
  else
    { f with
      plan := { plan with modelSubstituted := true }
      route := { f.route with modelOverride := .set f.route.substModel.view } }

/-- A path's model that a policy named cannot stand in the path, or the path holds none. -/
def pathModelUnusable (f : ReqState) (target : Bytes) : Bool :=
  f.captured.modelInPath ∧ f.pathModel ≠ [] ∧
    (pathModelOk f.pathModel = false ∨ (geminiPathModel target).at = none)

/-- What `dispatch` resolves before it builds, for the venue `up`: the translation and the
key; why it is refused, if it is, and what it writes. -/
def prepare (up : Upstream) (head body target : Bytes) (f : ReqState) :
    Except Refused NamedKey × ReqState :=
  let f := if f.stand.bodyStreaming then f else f.resolveSubstitution
  let plan := resolveDialect head body up.dialect
  if plan.ok = false then (.error ⟨400, plan.why, none⟩, f)
  else
    let f := { f with plan := { f.plan with
      translateBody := plan.translate
      effectiveDialect := plan.venue
      geminiReply := (Provider.spec up.dialect).wire = Provider.Wire.gemini } }
    match (if f.route.keyHeader.isEmpty then Except.ok ({} : NamedKey)
      else namedKey head f.captured.head f.route.keyHeader.view up.dialect up.authBearer) with
    | .error r => (.error ⟨400, r.why, some (ascii r.detail)⟩, f)
    | .ok key =>
        if f.pathModelUnusable target then
          (.error ⟨500, "policy model unusable in a path", none⟩, f)
        else
          let f :=
            if f.captured.modelInPath ∧ f.stand.bodyStreaming then
              { f with plan := { f.plan with
                modelSubstituted := f.route.modelOverride.isEmpty && !f.pathModel.isEmpty } }
            else f
          if up.dialect = Venue.vertex ∧ up.authBearer ∧ f.route.vertexProject.isEmpty ∧
              (plan.translate ∨ geminiVertexScoped target = false) then
            (.error ⟨400, "vertex oauth without a project", some kVertexProject⟩, f)
          else (.ok key, f)

/-- Why a translation failed, as the client is told. -/
def translationRefused (setup : Setup) (body : Bytes) (why : String) : Refused :=
  if why = "translate" then
    ⟨400, "translate", some (ascii (setup.translators.translateFailure body))⟩
  else if why = "no credential" then ⟨400, "no credential", some kNoCredential⟩
  else
    ⟨400, "malformed credential",
      some (if why = "bedrock credential" then kBedrockCredential else kCredential)⟩

/-- The overrides that a body sent whole is rewritten with. -/
def overrides (f : ReqState) : Translate.Overrides where
  model := if f.captured.modelInPath then [] else f.route.modelOverride.view
  serviceTier := f.route.tierOverride.view
  speed := f.route.speedOverride.view
  inferenceGeo := f.route.geoOverride.view

/-- The body that goes byte-forwarded, and the client's own tier that a rewrite replaced;
none where the overrides cannot be applied. -/
def rewritten (f : ReqState) (body : Bytes) : Option (Bytes × Option Bytes) :=
  if f.rewritesBody = false then some ([], none)
  else
    match Translate.applyOverrides body f.overrides with
    | (false, _, _) => none
    | (true, had, out) => some (out, some had)

/-- The request that `dispatch` builds of a body that is whole: why it is refused, or its
bytes, and what it writes. -/
def buildWhole (setup : Setup) (up : Upstream) (msg : Http.Message) (head body : Bytes)
    (f : ReqState) (key : NamedKey) : Except Refused Bytes × ReqState :=
  if f.plan.translateBody then
    match buildTranslatedRequest setup.translators up f.plan.effectiveDialect body head
      f.captured.head f.route.modelOverride.view key f.route.betaOverride.view
      f.route.vertexProject.view with
    | .error why => (.error (translationRefused setup body why), f)
    | .ok (into, wantsUsage) =>
        (.ok into, { f with plan := { f.plan with wantsUsage := wantsUsage } })
  else
    match f.rewritten body with
    | none => (.error ⟨400, "cannot apply route overrides", none⟩, f)
    | some (rewritten, had) =>
        let f := { f with plan := { f.plan with
          askedTier := (had.map FixedStr.set).getD f.plan.askedTier } }
        match buildForward head msg.headerLen f.captured.head setup.strip up.hostHdr up.basePath
          (if rewritten.isEmpty then body else rewritten)
          (if rewritten.isEmpty then msg.bodyLen else rewritten.length) key (betaFor up f)
          f.pathModel up.dialect f.route.vertexProject.view with
        | (some why, _) => (.error ⟨400, why, none⟩, f)
        | (none, into) => (.ok into, f)

end ReqState

namespace ClientConn

/-- `dispatch`, up to where it builds. -/
def prepare (table : List Upstream) (c : ClientConn) : Except Refused NamedKey × ClientConn :=
  let (key, f) := c.req.f.prepare (venueAt table c.links.upstreamSlot) c.head c.body
    (targetOf c.rbuf)
  (key, c.withReq f)

/-- The request that `dispatch` builds of a body that is whole. -/
def buildWhole (setup : Setup) (table : List Upstream) (c : ClientConn) (key : NamedKey) :
    Except Refused Bytes × ClientConn :=
  let (into, f) :=
    c.req.f.buildWhole setup (venueAt table c.links.upstreamSlot) c.msg c.head c.bodySoFar key
  (into, c.withReq f)

/-! ## Where the client's bytes are -/

/-- `take_request`. -/
def takeRequest (policy : Bool) (table : List Upstream) (c : ClientConn) : ClientConn :=
  if c.req.f.upload.bodyInRbuf then c
  else if c.req.saved ≠ [] ∨ policy = false ∨ table.length < 2 then
    { c with rbuf := c.rbuf.drop c.msg.totalLen }
  else
    { c with
      rbuf := c.rbuf.drop c.msg.totalLen
      req := { c.req with saved := c.rbuf.take c.msg.totalLen } }

/-! ## A retry -/

/-- `kMaxFailoverAttempts`. -/
def kMaxFailoverAttempts : Nat := 3

/-- `retryable` of `failover_target`. -/
def retryable (table : List Upstream) (c : ClientConn) : Bool :=
  2 ≤ table.length && !c.req.f.stand.hedged && c.req.canRedispatch &&
    (!c.req.saved.isEmpty || c.req.f.upload.bodyInRbuf) &&
    c.req.f.stand.failoverAttempts < kMaxFailoverAttempts - 1

/-- What `failover_target` does with the policy's answer: whether the retry is taken, and
what it writes. -/
def acceptRetry (table : List Upstream) (c : ClientConn) (retryable : Bool) (r : Retry) :
    Bool × ClientConn :=
  if retryable = false ∨ r.retry = false then (false, c)
  else if inTable table r.upstreamIndex = false then (false, c)
  else if r.upstreamIndex = c.links.upstreamSlot then (false, c)
  else if (if r.credentialHeader.isEmpty then !c.req.f.route.keyHeader.isEmpty
      else !keyHeaderOk r.credentialHeader) then (false, c)
  else
    let (fit, route) :=
      c.req.f.route.setOverrides r.model r.serviceTier r.speed r.inferenceGeo
    if fit = false ∨ (r.anthropicBeta ≠ [] ∧ betaTokenOk r.anthropicBeta = false) ∨
        substitutionOk r.substituteModel r.substituteFor = false then (false, c.withRoute route)
    else
      (true, c.withRoute { route with
        betaOverride := .set r.anthropicBeta
        keyHeader :=
          if r.credentialHeader.isEmpty then route.keyHeader else .set r.credentialHeader
        substModel := .set r.substituteModel
        substFor := .set r.substituteFor })

/-- `upstream_failed`, up to where the request goes next: the venue named, the attempt
counted, and the original request back at the front of `rbuf`. -/
def putBack (c : ClientConn) (r : Retry) : ClientConn :=
  { c with
    links := { c.links with upstreamSlot := r.upstreamIndex }
    rbuf := if c.req.f.upload.bodyInRbuf then c.rbuf else c.req.saved ++ c.rbuf
    req := { c.req with
      f := { c.req.f with
        stand := { c.req.f.stand with
          failoverAttempts := c.req.f.stand.failoverAttempts + 1 } } } }

end ClientConn

end Gateway
end Llmbridge
