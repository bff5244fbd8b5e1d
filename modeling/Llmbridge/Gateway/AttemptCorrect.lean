import Llmbridge.Gateway.Attempt
import Llmbridge.Gateway.ForwardCorrect

/-!
# A failover carries nothing of the failed attempt

What `dispatch` builds after a retry is what it builds when the first decision names
the retry's venue, overrides, substitution, beta token and key.
-/

namespace Llmbridge
namespace Gateway

open Rfc8259 (Byte Bytes ascii substr)
open Http1 (find crlf)
open Http (Message parseRequestWith requestHead)
open Forward (HeadFacts NamedKey readHead keyHeaderOk betaTokenOk)
open Relation (ReflTransGen)

/-! ## What is read of a request's state -/

/-- Two states that the same is resolved from: they name one route, of one request. -/
structure SameRoute (f f' : ReqState) : Prop where
  route : f.route = f'.route
  head : f.captured.head = f'.captured.head
  modelInPath : f.captured.modelInPath = f'.captured.modelInPath
  model : f.captured.model = f'.captured.model

/-- Two states that the same is built from. -/
structure SamePlan (f f' : ReqState) : Prop extends SameRoute f f' where
  translateBody : f.plan.translateBody = f'.plan.translateBody
  effectiveDialect : f.plan.effectiveDialect = f'.plan.effectiveDialect

namespace SameRoute

variable {f f' : ReqState}

/-- A route names one model for the path. -/
theorem pathModel (same : SameRoute f f') : f.pathModel = f'.pathModel := by
  unfold ReqState.pathModel
  rw [same.route, same.modelInPath, same.model]

/-- The model is usable in a path or not whatever else is held. -/
theorem pathModelUnusable (same : SameRoute f f') (target : Bytes) :
    f.pathModelUnusable target = f'.pathModelUnusable target := by
  unfold ReqState.pathModelUnusable
  rw [same.modelInPath, same.pathModel]

/-- The betas asked for are the route's. -/
theorem betaFor (same : SameRoute f f') (up : Upstream) : betaFor up f = betaFor up f' := by
  unfold Gateway.betaFor
  rw [same.route]

/-- The body is rewritten by the route. -/
theorem rewritten (same : SameRoute f f') (body : Bytes) :
    f.rewritten body = f'.rewritten body := by
  unfold ReqState.rewritten ReqState.rewritesBody ReqState.overrides
  rw [same.route, same.modelInPath]

/-- A substitution is resolved by the route. -/
theorem resolved (same : SameRoute f f') :
    SameRoute f.resolveSubstitution f'.resolveSubstitution := by
  unfold ReqState.resolveSubstitution
  simp only [same.route, same.model]
  split
  · exact ⟨rfl, same.head, same.modelInPath, same.model⟩
  · exact ⟨rfl, same.head, same.modelInPath, same.model⟩

end SameRoute

namespace ReqState

@[simp] theorem resolveSubstitution_stand (f : ReqState) :
    f.resolveSubstitution.stand = f.stand := by
  unfold resolveSubstitution
  dsimp only
  split <;> rfl

/-- What is resolved of a body that is whole depends on the route and the request. -/
theorem prepare_same
    {f f' : ReqState}
    (same : SameRoute f f')
    (whole : f.stand.bodyStreaming = false)
    (whole' : f'.stand.bodyStreaming = false)
    (up : Upstream)
    (head body target : Bytes) :
    (f.prepare up head body target).1 = (f'.prepare up head body target).1 ∧
    ∀ key, (f.prepare up head body target).1 = .ok key →
      SamePlan (f.prepare up head body target).2 (f'.prepare up head body target).2 := by
  have resolved := same.resolved
  have stays : f.resolveSubstitution.stand.bodyStreaming = false := by simp [whole]
  have stays' : f'.resolveSubstitution.stand.bodyStreaming = false := by simp [whole']
  unfold prepare
  rw [whole, whole']
  simp only [Bool.false_eq_true, if_false]
  generalize f.resolveSubstitution = g at resolved stays ⊢
  generalize f'.resolveSubstitution = g' at resolved stays' ⊢
  have unusable : ∀ p, ({ g with plan := p } : ReqState).pathModelUnusable target =
      g'.pathModelUnusable target := fun _ => resolved.pathModelUnusable target
  have unusable' : ∀ p, ({ g' with plan := p } : ReqState).pathModelUnusable target =
      g'.pathModelUnusable target := fun _ => rfl
  simp only [stays, stays', Bool.false_eq_true, and_false, if_false]
  by_cases planned : (resolveDialect head body up.dialect).ok = false
  · rw [if_pos planned, if_pos planned]
    exact ⟨rfl, fun key accepted => by cases accepted⟩
  · rw [if_neg planned, if_neg planned]
    simp only [unusable, unusable']
    simp only [resolved.route, resolved.head]
    split
    · exact ⟨rfl, fun key accepted => by cases accepted⟩
    · by_cases unusablePath : g'.pathModelUnusable target = true
      · rw [if_pos unusablePath, if_pos unusablePath]
        exact ⟨rfl, fun key accepted => by cases accepted⟩
      · rw [if_neg unusablePath, if_neg unusablePath]
        split
        · exact ⟨rfl, fun key accepted => by cases accepted⟩
        · exact ⟨rfl, fun _ _ =>
            ⟨⟨rfl, resolved.head, resolved.modelInPath, resolved.model⟩, rfl, rfl⟩⟩

/-- The bytes built of a body that is whole depend on the route, the request and what
was resolved. -/
theorem buildWhole_same
    {f f' : ReqState}
    (same : SamePlan f f')
    (setup : Setup)
    (up : Upstream)
    (msg : Message)
    (head body : Bytes)
    (key : NamedKey) :
    (f.buildWhole setup up msg head body key).1 =
      (f'.buildWhole setup up msg head body key).1 := by
  have routes := same.toSameRoute
  unfold buildWhole
  simp only [same.translateBody, same.effectiveDialect, routes.rewritten]
  by_cases translates : f'.plan.translateBody = true
  · rw [if_pos translates, if_pos translates]
    simp only [same.route, same.head]
    split <;> rfl
  · rw [if_neg translates, if_neg translates]
    cases f'.rewritten body with
    | none => rfl
    | some written =>
        have paths : ∀ p, ({ f with plan := p } : ReqState).pathModel = f'.pathModel :=
          fun _ => routes.pathModel
        have paths' : ∀ p, ({ f' with plan := p } : ReqState).pathModel = f'.pathModel :=
          fun _ => rfl
        have betas : ∀ p, betaFor up { f with plan := p } = betaFor up f' :=
          fun _ => routes.betaFor up
        have betas' : ∀ p, betaFor up { f' with plan := p } = betaFor up f' := fun _ => rfl
        simp only [paths, paths', betas, betas']
        simp only [same.route, same.head]
        split <;> rfl

end ReqState

/-! ## A request held whole -/

/-- Bytes behind a request line are not of it. -/
theorem requestLineParts_append {head : Bytes} {n : Nat} (found : find crlf head = some n)
    (more : Bytes) : requestLineParts (head ++ more) = requestLineParts head := by
  have fits : n ≤ head.length :=
    Nat.le_of_add_right_le (Http1.find_le found (by decide))
  unfold requestLineParts
  rw [found, Http1.find_append found (by decide) more, Option.getD_some, Option.getD_some,
    List.take_append_of_le_length fits]

/-- The model that `capture_model` keeps of a body that is whole. -/
def modelCaptured (head body : Bytes) : FixedStr 64 :=
  if (bodyFacts head body).model.length ≤ 64 then .set (bodyFacts head body).model else default

/-- The connection holds a request whole: its bytes as framed are the first in `rbuf`. -/
structure Held (setup : Setup) (request : Bytes) (c : ClientConn) : Prop where
  framed : parseRequestWith (readHead setup.strip) request {} {} =
    (.complete, c.msg, c.req.f.captured.head)
  length : request.length = c.msg.totalLen
  front : request <+: c.rbuf
  saved : c.req.saved = [] ∨ c.req.saved = request
  modelInPath : c.req.f.captured.modelInPath = decide (clientDialectOf request = .gemini)
  model : c.req.f.captured.model =
    modelCaptured (request.take c.msg.headerLen) (request.drop c.msg.headerLen)
  whole : c.req.f.stand.bodyStreaming = false

/-- What framing a request whole says of its length. -/
theorem framed_lengths
    {strip : List Bytes} {request : Bytes} {msg : Message} {head : HeadFacts}
    (framed : parseRequestWith (readHead strip) request {} {} = (.complete, msg, head)) :
    ∃ n, find (crlf ++ crlf) request = some n ∧ msg.headerLen = n + 4 ∧
      msg.totalLen = msg.headerLen + msg.bodyLen := by
  cases found : find (crlf ++ crlf) request with
  | none =>
      unfold parseRequestWith at framed
      rw [found] at framed
      dsimp only at framed
      split at framed <;> cases framed
  | some n =>
      have accepted := @Forward.accepted_head strip request n found (by
        rw [framed]
        exact fun same => by cases same)
      rw [framed] at accepted
      refine ⟨n, rfl, accepted.1, ?_⟩
      unfold parseRequestWith at framed
      rw [found] at framed
      dsimp only at framed
      generalize verdict : requestHead (readHead strip) (request.take n) { headerLen := n + 4 }
        {} = parsed at framed
      obtain ⟨ok, out, facts⟩ := parsed
      cases ok with
      | false => cases framed
      | true =>
          have same : out = msg := congrArg (·.2.1) framed
          subst same
          unfold requestHead at verdict
          split at verdict
          · cases verdict
          · dsimp only at verdict
            split at verdict
            · cases verdict
            · have made := congrArg (·.2.1) verdict
              dsimp only at made
              rw [← made]

namespace Held

variable {setup : Setup} {request : Bytes} {c c' : ClientConn}

/-- The head lies inside the request. -/
theorem headerLen_le (held : Held setup request c) : c.msg.headerLen ≤ request.length := by
  obtain ⟨n, -, -, total⟩ := framed_lengths held.framed
  rw [held.length, total]
  omega

/-- The held head is the request's. -/
theorem take_headerLen (held : Held setup request c) : c.head = request.take c.msg.headerLen := by
  obtain ⟨more, whole⟩ := held.front
  unfold ClientConn.head
  rw [← whole, List.take_append_of_le_length held.headerLen_le]

/-- The body so far is what is behind the head. -/
theorem bodySoFar_eq (held : Held setup request c) :
    c.bodySoFar = request.drop c.msg.headerLen := by
  obtain ⟨more, whole⟩ := held.front
  unfold ClientConn.bodySoFar
  rw [← whole, ← held.length, List.take_left]

/-- So is the body. -/
theorem body_eq (held : Held setup request c) : c.body = request.drop c.msg.headerLen := by
  obtain ⟨more, whole⟩ := held.front
  obtain ⟨n, -, -, total⟩ := framed_lengths held.framed
  have size : (request.drop c.msg.headerLen).length = c.msg.bodyLen := by
    rw [List.length_drop, held.length, total]
    omega
  unfold ClientConn.body substr
  rw [← whole, List.drop_append_of_le_length held.headerLen_le, ← size, List.take_left]

/-- The request line is the request's. -/
theorem requestLine (held : Held setup request c) :
    requestLineParts c.rbuf = requestLineParts request := by
  obtain ⟨more, whole⟩ := held.front
  obtain ⟨n, found, -⟩ := framed_lengths held.framed
  obtain ⟨rest, occurs⟩ := Http1.find_some found
  rw [List.append_assoc] at occurs
  obtain ⟨m, lineEnd⟩ := Http1.find_of_drop occurs
  rw [← whole, requestLineParts_append lineEnd more]

/-- So is the target. -/
theorem targetOf_eq (held : Held setup request c) : targetOf c.rbuf = targetOf request := by
  unfold targetOf
  rw [held.requestLine]

/-- One request is framed in one way. -/
theorem msg_eq (held : Held setup request c) (held' : Held setup request c') :
    c.msg = c'.msg := by
  have same := held.framed.symm.trans held'.framed
  exact congrArg (·.2.1) same

/-- The facts of the head are the same wherever it is held. -/
theorem facts_eq (held : Held setup request c) (held' : Held setup request c') :
    c.req.f.captured.head = c'.req.f.captured.head := by
  have same := held.framed.symm.trans held'.framed
  exact congrArg (·.2.2) same

/-- Two connections that hold one request and name one route resolve and build alike. -/
theorem sameRoute (held : Held setup request c) (held' : Held setup request c')
    (routes : c.req.f.route = c'.req.f.route) : SameRoute c.req.f c'.req.f where
  route := routes
  head := held.facts_eq held'
  modelInPath := held.modelInPath.trans held'.modelInPath.symm
  model := by rw [held.model, held'.model, held.msg_eq held']

end Held

/-! ## Where a request held whole comes from -/

/-- Bytes behind a request that is whole change nothing of how it is framed. -/
theorem parseRequestWith_take
    {strip : List Bytes} {buf : Bytes} {msg : Message} {head : HeadFacts}
    (framed : parseRequestWith (readHead strip) buf {} {} = (.complete, msg, head)) :
    parseRequestWith (readHead strip) (buf.take msg.totalLen) {} {} = (.complete, msg, head) ∧
      msg.totalLen ≤ buf.length := by
  obtain ⟨n, found, headerLen, total⟩ := framed_lengths framed
  have fits : msg.totalLen ≤ buf.length := by
    unfold parseRequestWith at framed
    rw [found] at framed
    dsimp only at framed
    generalize requestHead (readHead strip) (buf.take n) { headerLen := n + 4 } {} = verdict
      at framed
    obtain ⟨ok, out, facts⟩ := verdict
    cases ok with
    | false => cases framed
    | true =>
        have same : out = msg := congrArg (·.2.1) framed
        subst same
        by_cases short : buf.length < out.totalLen
        · have status := congrArg (·.1) framed
          dsimp only at status
          rw [if_pos short] at status
          cases status
        · exact Nat.le_of_not_lt short
  have inFront : find (crlf ++ crlf) (buf.take msg.totalLen) = some n := by
    obtain ⟨rest, occurs⟩ := Http1.find_some found
    have short : (crlf ++ crlf).length ≤ msg.totalLen - n := by
      have size : (crlf ++ crlf).length = 4 := rfl
      omega
    have stays : (buf.take msg.totalLen).drop n =
        crlf ++ crlf ++ rest.take (msg.totalLen - n - (crlf ++ crlf).length) := by
      rw [List.drop_take, occurs, List.take_append, List.take_of_length_le short]
    obtain ⟨m, again⟩ := Http1.find_of_drop stays
    have same := Http1.find_append again (by decide) (buf.drop msg.totalLen)
    rw [List.take_append_drop, found] at same
    rw [again, same]
  refine ⟨?_, fits⟩
  unfold parseRequestWith at framed ⊢
  rw [found] at framed
  rw [inFront]
  dsimp only at framed ⊢
  have before : n ≤ msg.totalLen := by omega
  rw [List.take_take, Nat.min_eq_left before, List.length_take, Nat.min_eq_left fits]
  generalize requestHead (readHead strip) (buf.take n) { headerLen := n + 4 } {} = verdict
    at framed ⊢
  obtain ⟨ok, out, facts⟩ := verdict
  cases ok with
  | false => cases framed
  | true =>
      have same : out = msg := congrArg (·.2.1) framed
      have sameFacts : facts = head := congrArg (·.2.2) framed
      subst same sameFacts
      dsimp only
      rw [if_neg (Nat.lt_irrefl _)]

/-- The dialect is read off the head alone. -/
theorem clientDialectOf_take
    {strip : List Bytes} {buf : Bytes} {msg : Message} {head : HeadFacts}
    (framed : parseRequestWith (readHead strip) buf {} {} = (.complete, msg, head)) :
    clientDialectOf (buf.take msg.totalLen) = clientDialectOf buf := by
  obtain ⟨inFront, -⟩ := parseRequestWith_take framed
  obtain ⟨n, found, -⟩ := framed_lengths inFront
  obtain ⟨rest, occurs⟩ := Http1.find_some found
  rw [List.append_assoc] at occurs
  obtain ⟨m, lineEnd⟩ := Http1.find_of_drop occurs
  have parts := requestLineParts_append lineEnd (buf.drop msg.totalLen)
  rw [List.take_append_drop] at parts
  unfold clientDialectOf
  rw [parts]

/-- What `capture_model` writes when it refuses nothing. -/
theorem ClientConn.captureModel_captured {setup : Setup} {c : ClientConn}
    (kept : (c.captureModel setup).1 = none) :
    ∃ captured, (c.captureModel setup).2 = c.withReq { c.req.f with captured := captured } ∧
      captured.head = c.req.f.captured.head ∧
      captured.modelInPath = c.req.f.captured.modelInPath ∧
      captured.model = if (bodyFacts c.head c.body).model.length ≤ 64
        then .set (bodyFacts c.head c.body).model else c.req.f.captured.model := by
  unfold captureModel at kept ⊢
  dsimp only at kept ⊢
  split at kept
  · cases kept
  · cases kept
  · cases kept
  · refine ⟨_, rfl, ?_, ?_, ?_⟩
    · split
      · split <;> rfl
      · split <;> rfl
    · split
      · split <;> rfl
      · split <;> rfl
    · by_cases short : (bodyFacts c.head c.body).model.length ≤ 64
      · simp only [if_pos short]
        split <;> rfl
      · simp only [if_neg short]
        split <;> rfl

/-- A request that `try_frame` frames whole, and of which `capture_model` refuses nothing,
is held. -/
theorem held_of_framing
    {setup : Setup} {c : ClientConn} {msg : Message} {head : HeadFacts} {seq : Nat} {t0 : Int}
    (framed : parseRequestWith (readHead setup.strip) c.rbuf {} {} = (.complete, msg, head))
    (kept : ((c.openRequest msg head seq t0).captureModel setup).1 = none) :
    Held setup (c.rbuf.take msg.totalLen)
      ((c.openRequest msg head seq t0).captureModel setup).2 := by
  obtain ⟨inFront, fits⟩ := parseRequestWith_take framed
  have dialect := clientDialectOf_take framed
  have length : (c.rbuf.take msg.totalLen).length = msg.totalLen := by
    rw [List.length_take, Nat.min_eq_left fits]
  generalize opened : c.openRequest msg head seq t0 = o at kept ⊢
  have isOpen : o.msg = msg ∧ o.rbuf = c.rbuf ∧ o.req.saved = [] ∧
      o.req.f.captured =
        { head := head, modelInPath := decide (clientDialectOf c.rbuf = .gemini) } ∧
      o.req.f.stand.bodyStreaming = false := by
    rw [← opened]
    unfold ClientConn.openRequest
    dsimp only
    split <;> exact ⟨rfl, rfl, rfl, rfl, rfl⟩
  obtain ⟨sameMsg, sameBuf, saved, captured, whole⟩ := isOpen
  obtain ⟨final, left, sameHead, inPath, model⟩ := ClientConn.captureModel_captured kept
  rw [captured] at sameHead inPath model
  rw [left]
  refine ⟨?_, ?_, ?_, Or.inl saved, ?_, ?_, whole⟩
  · show _ = (_, o.msg, final.head)
    rw [sameMsg, sameHead]
    exact inFront
  · show _ = o.msg.totalLen
    rw [sameMsg, length]
  · show _ <+: o.rbuf
    rw [sameBuf]
    exact List.take_prefix _ _
  · show final.modelInPath = _
    rw [inPath, dialect]
  · obtain ⟨n, -, -, total⟩ := framed_lengths framed
    have heads : o.head = (c.rbuf.take msg.totalLen).take o.msg.headerLen := by
      unfold ClientConn.head
      rw [sameBuf, sameMsg, List.take_take, Nat.min_eq_left (by omega)]
    have bodies : o.body = (c.rbuf.take msg.totalLen).drop o.msg.headerLen := by
      unfold ClientConn.body substr
      rw [sameBuf, sameMsg, List.drop_take, total, Nat.add_sub_cancel_left]
    show final.model = modelCaptured ((c.rbuf.take msg.totalLen).take o.msg.headerLen)
      ((c.rbuf.take msg.totalLen).drop o.msg.headerLen)
    rw [model, heads, bodies]
    rfl

/-! ## The request built -/

namespace ClientConn

/-- The request that `dispatch` builds of a body that is whole: why it is refused, or its
bytes. -/
def buildRequest (setup : Setup) (table : List Upstream) (c : ClientConn) :
    Except Refused Bytes × ClientConn :=
  match c.prepare table with
  | (.error r, c) => (.error r, c)
  | (.ok key, c) => c.buildWhole setup table key

/-- What is built of a request held whole depends on its bytes, the route and the venue. -/
theorem buildRequest_same
    {setup : Setup} {request : Bytes} {c c' : ClientConn}
    (held : Held setup request c)
    (held' : Held setup request c')
    (routes : c.req.f.route = c'.req.f.route)
    (venues : c.links.upstreamSlot = c'.links.upstreamSlot)
    (table : List Upstream) :
    (c.buildRequest setup table).1 = (c'.buildRequest setup table).1 := by
  have prepared := ReqState.prepare_same (held.sameRoute held' routes) held.whole held'.whole
    (venueAt table c'.links.upstreamSlot) c'.head c'.body (targetOf c'.rbuf)
  have heads : c.head = c'.head := by
    rw [held.take_headerLen, held'.take_headerLen, held.msg_eq held']
  have bodies : c.body = c'.body := by
    rw [held.body_eq, held'.body_eq, held.msg_eq held']
  have targets : targetOf c.rbuf = targetOf c'.rbuf := by
    rw [held.targetOf_eq, held'.targetOf_eq]
  unfold buildRequest ClientConn.prepare
  dsimp only
  rw [heads, bodies, targets, venues]
  generalize c.req.f.prepare (venueAt table c'.links.upstreamSlot) c'.head c'.body
    (targetOf c'.rbuf) = answer at prepared ⊢
  generalize c'.req.f.prepare (venueAt table c'.links.upstreamSlot) c'.head c'.body
    (targetOf c'.rbuf) = answer' at prepared ⊢
  obtain ⟨key, f⟩ := answer
  obtain ⟨key', f'⟩ := answer'
  obtain ⟨sameKey, plans⟩ := prepared
  dsimp only at sameKey plans ⊢
  subst sameKey
  cases key with
  | error r => rfl
  | ok key =>
      have built := ReqState.buildWhole_same (plans key rfl) setup
        (venueAt table c'.links.upstreamSlot) c'.msg c'.head c'.bodySoFar key
      have sofar : c.bodySoFar = c'.bodySoFar := by
        rw [held.bodySoFar_eq, held'.bodySoFar_eq, held.msg_eq held']
      rw [← heads, ← sofar, ← venues, ← held.msg_eq held'] at built
      have right : ((c'.withReq f').buildWhole setup table key).1 =
          (f'.buildWhole setup (venueAt table c.links.upstreamSlot) c.msg c.head
            c.bodySoFar key).1 := by
        rw [heads, sofar, venues, held.msg_eq held']
        rfl
      exact Eq.trans built right.symm

end ClientConn

/-! ## What an attempt leaves of the state -/

/-- What neither resolving nor building changes. -/
structure Kept (f f' : ReqState) : Prop where
  captured : f'.captured = f.captured
  upload : f'.upload = f.upload
  stand : f'.stand = f.stand
  vertexProject : f'.route.vertexProject = f.route.vertexProject

/-- A plan is no part of it. -/
theorem Kept.withPlan {f g : ReqState} (kept : Kept f g) (p : Plan) :
    Kept f { g with plan := p } :=
  ⟨kept.captured, kept.upload, kept.stand, kept.vertexProject⟩

namespace ReqState

/-- Resolving keeps what the request says. -/
theorem resolveSubstitution_kept (f : ReqState) : Kept f f.resolveSubstitution := by
  unfold resolveSubstitution
  dsimp only
  split
  · exact ⟨rfl, rfl, rfl, rfl⟩
  · exact ⟨rfl, rfl, rfl, rfl⟩

/-- So does preparing. -/
theorem prepare_kept (f : ReqState) (up : Upstream) (head body target : Bytes) :
    Kept f (f.prepare up head body target).2 := by
  have resolved := f.resolveSubstitution_kept
  unfold prepare
  dsimp only
  have first : Kept f (if f.stand.bodyStreaming then f else f.resolveSubstitution) := by
    split
    · exact ⟨rfl, rfl, rfl, rfl⟩
    · exact resolved
  generalize (if f.stand.bodyStreaming then f else f.resolveSubstitution) = g at first ⊢
  split
  · exact first
  · split
    · exact first.withPlan _
    · split
      · exact first.withPlan _
      · split
        · split
          · exact first.withPlan _
          · exact first.withPlan _
        · split
          · exact first.withPlan _
          · exact first.withPlan _

/-- So does building. -/
theorem buildWhole_kept
    (f : ReqState) (setup : Setup) (up : Upstream) (msg : Message) (head body : Bytes)
    (key : NamedKey) : Kept f (f.buildWhole setup up msg head body key).2 := by
  have same : Kept f f := ⟨rfl, rfl, rfl, rfl⟩
  unfold buildWhole
  split
  · split
    · exact same
    · exact same.withPlan _
  · split
    · exact same
    · dsimp only
      split
      · exact same.withPlan _
      · exact same.withPlan _

end ReqState

namespace ClientConn

/-- An attempt that is built leaves another request state, and of it only the plan and the
model override that a substitution resolved. -/
theorem buildRequest_kept (c : ClientConn) (setup : Setup) (table : List Upstream) :
    ∃ f, (c.buildRequest setup table).2 = c.withReq f ∧ Kept c.req.f f := by
  have prepared := c.req.f.prepare_kept (venueAt table c.links.upstreamSlot) c.head c.body
    (targetOf c.rbuf)
  unfold buildRequest ClientConn.prepare
  dsimp only
  generalize c.req.f.prepare (venueAt table c.links.upstreamSlot) c.head c.body
    (targetOf c.rbuf) = answer at prepared ⊢
  obtain ⟨key, f⟩ := answer
  cases key with
  | error r => exact ⟨f, rfl, prepared⟩
  | ok key =>
      have built := f.buildWhole_kept setup (venueAt table c.links.upstreamSlot) c.msg c.head
        c.bodySoFar key
      refine ⟨_, rfl, built.captured.trans prepared.captured,
        built.upload.trans prepared.upload, built.stand.trans prepared.stand,
        built.vertexProject.trans prepared.vertexProject⟩

end ClientConn

/-- While an attempt is out the client may send more bytes; what its plan, its stamps and
its reply are is left open. -/
structure Waited (c c' : ClientConn) : Prop where
  more : c.rbuf <+: c'.rbuf
  msg : c'.msg = c.msg
  saved : c'.req.saved = c.req.saved
  captured : c'.req.f.captured = c.req.f.captured
  route : c'.req.f.route = c.req.f.route
  bodyInRbuf : c'.req.f.upload.bodyInRbuf = c.req.f.upload.bodyInRbuf
  whole : c'.req.f.stand.bodyStreaming = c.req.f.stand.bodyStreaming

/-- An attempt at a request fails and its retry is taken: `dispatch` builds the request and
takes it, or fails to reach its venue and takes it too; the attempt is waited on; and
`failover_target` accepts the policy's answer, for which `upstream_failed` puts the request
back. -/
def FailedOver (setup : Setup) (table : List Upstream) (c : ClientConn) (r : Retry)
    (c' : ClientConn) : Prop :=
  ∃ bytes waiting accepted,
    (c.buildRequest setup table).1 = .ok bytes ∧
    Waited ((c.buildRequest setup table).2.takeRequest true table) waiting ∧
    waiting.acceptRetry table (waiting.retryable table) r = (true, accepted) ∧
    c' = accepted.putBack r

/-- A route with a retry's overrides, substitution, beta token and key. -/
def Route.retried (route : Route) (r : Retry) : Route where
  modelOverride := .set r.model
  tierOverride := .set r.serviceTier
  speedOverride := .set r.speed
  geoOverride := .set r.inferenceGeo
  betaOverride := .set r.anthropicBeta
  keyHeader := .set r.credentialHeader
  vertexProject := route.vertexProject
  substModel := .set r.substituteModel
  substFor := .set r.substituteFor

/-- An empty text was set to nothing. -/
theorem FixedStr.eq_set_nil {n : Nat} {s : FixedStr n} (empty : s.isEmpty = true) :
    s = .set [] := by
  apply FixedStr.ext
  rw [FixedStr.view_set, List.take_nil]
  simpa [FixedStr.isEmpty] using empty

/-- Overrides that fit are copied whole. -/
theorem Route.setOverrides_fit {r r' : Route} {model tier speed geo : Bytes}
    (fit : r.setOverrides model tier speed geo = (true, r')) :
    (FixedStr.fits 255 model = true ∧ FixedStr.fits 32 tier = true ∧
      FixedStr.fits 32 speed = true ∧ FixedStr.fits 32 geo = true) ∧
    r' = { r with
      modelOverride := .set model
      tierOverride := .set tier
      speedOverride := .set speed
      geoOverride := .set geo } := by
  unfold Route.setOverrides at fit
  dsimp only at fit
  split at fit
  · cases fit
  · split at fit
    · cases fit
    · split at fit
      · cases fit
      · obtain ⟨geoFits, same⟩ := Prod.mk.injEq .. ▸ fit
        refine ⟨⟨?_, ?_, ?_, geoFits⟩, same.symm⟩
        · simpa using ‹¬ FixedStr.fits 255 model = false›
        · simpa using ‹¬ FixedStr.fits 32 tier = false›
        · simpa using ‹¬ FixedStr.fits 32 speed = false›

/-- Whether a retry's fields can be used, as `failover_target` checks them. -/
structure Usable (r : Retry) : Prop where
  model : FixedStr.fits 255 r.model = true
  tier : FixedStr.fits 32 r.serviceTier = true
  speed : FixedStr.fits 32 r.speed = true
  geo : FixedStr.fits 32 r.inferenceGeo = true
  beta : ¬ (r.anthropicBeta ≠ [] ∧ betaTokenOk r.anthropicBeta = false)
  substitution : substitutionOk r.substituteModel r.substituteFor = true
  key : ¬ (r.credentialHeader ≠ [] ∧ keyHeaderOk r.credentialHeader = false)

/-- A retry that is taken was retryable, is usable, names a venue of the table, and leaves
nothing of the route before it but its project. -/
theorem ClientConn.acceptRetry_accepted
    {table : List Upstream} {c c' : ClientConn} {retryable : Bool} {r : Retry}
    (accepted : c.acceptRetry table retryable r = (true, c')) :
    retryable = true ∧ inTable table r.upstreamIndex = true ∧ Usable r ∧
      c' = c.withRoute (c.req.f.route.retried r) := by
  unfold acceptRetry at accepted
  generalize keyed : (if r.credentialHeader.isEmpty then !c.req.f.route.keyHeader.isEmpty
    else !keyHeaderOk r.credentialHeader) = badKey at accepted
  generalize copied : c.req.f.route.setOverrides r.model r.serviceTier r.speed
    r.inferenceGeo = outcome at accepted
  obtain ⟨fit, route⟩ := outcome
  split at accepted
  · cases accepted
  · rename_i asked
    split at accepted
    · cases accepted
    · rename_i within
      split at accepted
      · cases accepted
      · cases badKey with
        | true => cases accepted
        | false =>
            rw [if_neg Bool.false_ne_true] at accepted
            dsimp only at accepted
            split at accepted
            · cases accepted
            · rename_i usable
              rw [not_or, not_or] at usable
              obtain ⟨fits, beta, substitution⟩ := usable
              have fitting : fit = true := by simpa using fits
              subst fitting
              obtain ⟨⟨model, tier, speed, geo⟩, copy⟩ := Route.setOverrides_fit copied
              have retryable : retryable = true := by
                simpa using (not_or.mp asked).1
              refine ⟨retryable, by simpa using within,
                ⟨model, tier, speed, geo, beta, by simpa using substitution, ?_⟩, ?_⟩
              · rintro ⟨named, bad⟩
                have isNamed : r.credentialHeader.isEmpty = false := by simpa using named
                rw [isNamed, bad] at keyed
                cases keyed
              · have same := congrArg Prod.snd accepted
                dsimp only at same
                rw [← same, copy]
                by_cases unnamed : r.credentialHeader.isEmpty = true
                · rw [if_pos unnamed] at keyed
                  have none : c.req.f.route.keyHeader.isEmpty = true := by simpa using keyed
                  have empty : r.credentialHeader = [] := by simpa using unnamed
                  rw [if_pos unnamed]
                  unfold Route.retried
                  rw [empty]
                  dsimp only
                  rw [FixedStr.eq_set_nil none]
                · rw [if_neg unnamed]
                  rfl

/-! ## Runs of attempts -/

namespace Held

variable {setup : Setup} {request : Bytes} {c c' : ClientConn} {table : List Upstream} {r : Retry}

/-- An attempt leaves the request where the next finds it: in `rbuf`, or in `saved`. -/
theorem taken (held : Held setup request c) (f : ReqState) :
    let t := (c.withReq f).takeRequest true table
    t.msg = c.msg ∧ t.req.f = f ∧ (t.req.saved = [] ∨ t.req.saved = request) ∧
      (f.upload.bodyInRbuf = true → request <+: t.rbuf) := by
  have front : c.rbuf.take c.msg.totalLen = request := by
    obtain ⟨more, whole⟩ := held.front
    rw [← whole, ← held.length, List.take_left]
  unfold ClientConn.takeRequest
  dsimp only
  split
  · exact ⟨rfl, rfl, held.saved, fun _ => held.front⟩
  · rename_i moved
    split
    · exact ⟨rfl, rfl, held.saved, fun kept => absurd kept moved⟩
    · exact ⟨rfl, rfl, Or.inr front, fun kept => absurd kept moved⟩

/-- What a retry that is taken dispatches next is the request held whole, for the venue and
with the route that the retry names. -/
theorem failedOver (held : Held setup request c) (step : FailedOver setup table c r c') :
    Held setup request c' ∧ c'.links.upstreamSlot = r.upstreamIndex ∧
      inTable table r.upstreamIndex = true ∧ Usable r ∧
      c'.req.f.route = c.req.f.route.retried r := by
  obtain ⟨bytes, waiting, accepted, -, waited, taken, rfl⟩ := step
  obtain ⟨f, built, kept⟩ := c.buildRequest_kept setup table
  rw [built] at waited
  obtain ⟨msg, state, saved, front⟩ := @Held.taken _ _ _ table held f
  obtain ⟨retryable, within, usable, rfl⟩ := ClientConn.acceptRetry_accepted taken
  have sameMsg : waiting.msg = c.msg := waited.msg.trans msg
  have sameCaptured : waiting.req.f.captured = c.req.f.captured := by
    rw [waited.captured, state, kept.captured]
  have sameProject : waiting.req.f.route.vertexProject = c.req.f.route.vertexProject := by
    rw [waited.route, state, kept.vertexProject]
  have stillSaved : waiting.req.saved = [] ∨ waiting.req.saved = request := by
    rw [waited.saved]
    exact saved
  have place : waiting.req.f.upload.bodyInRbuf = true → request <+: waiting.rbuf := by
    intro inRbuf
    rw [waited.bodyInRbuf, state] at inRbuf
    exact (front inRbuf).trans waited.more
  have somewhere : waiting.req.saved ≠ [] ∨ waiting.req.f.upload.bodyInRbuf = true := by
    unfold ClientConn.retryable at retryable
    simp only [Bool.and_eq_true, Bool.or_eq_true] at retryable
    simpa using retryable.1.2
  refine ⟨⟨?_, ?_, ?_, stillSaved, ?_, ?_, ?_⟩, rfl, within, usable, ?_⟩
  · show _ = (_, waiting.msg, waiting.req.f.captured.head)
    rw [sameMsg, sameCaptured]
    exact held.framed
  · show _ = waiting.msg.totalLen
    rw [sameMsg]
    exact held.length
  · show request <+: if waiting.req.f.upload.bodyInRbuf then waiting.rbuf
      else waiting.req.saved ++ waiting.rbuf
    split
    · exact place ‹_›
    · rename_i moved
      have isSaved : waiting.req.saved = request := by
        rcases stillSaved with none | saved
        · rcases somewhere with some | inRbuf
          · exact absurd none some
          · exact absurd inRbuf moved
        · exact saved
      rw [isSaved]
      exact List.prefix_append request waiting.rbuf
  · show waiting.req.f.captured.modelInPath = _
    rw [sameCaptured]
    exact held.modelInPath
  · show waiting.req.f.captured.model = modelCaptured (request.take waiting.msg.headerLen)
      (request.drop waiting.msg.headerLen)
    rw [sameCaptured, sameMsg]
    exact held.model
  · show waiting.req.f.stand.bodyStreaming = false
    rw [waited.whole, state, kept.stand]
    exact held.whole
  · show waiting.req.f.route.retried r = c.req.f.route.retried r
    unfold Route.retried
    rw [sameProject]

end Held

/-- The decision that names outright what a retry names, under a project. -/
def Retry.asDecision (r : Retry) (vertexProject : Bytes) : Decision where
  allow := true
  upstreamIndex := r.upstreamIndex
  model := r.model
  serviceTier := r.serviceTier
  credentialHeader := r.credentialHeader
  speed := r.speed
  inferenceGeo := r.inferenceGeo
  anthropicBeta := r.anthropicBeta
  substituteModel := r.substituteModel
  substituteFor := r.substituteFor
  vertexProject := vertexProject

namespace ClientConn

/-- Overrides that fit are set. -/
theorem setOverrides_of_fit
    {route : Route} {model tier speed geo : Bytes}
    (modelFits : FixedStr.fits 255 model = true)
    (tierFits : FixedStr.fits 32 tier = true)
    (speedFits : FixedStr.fits 32 speed = true)
    (geoFits : FixedStr.fits 32 geo = true) :
    route.setOverrides model tier speed geo = (true, { route with
      modelOverride := .set model
      tierOverride := .set tier
      speedOverride := .set speed
      geoOverride := .set geo }) := by
  unfold Route.setOverrides
  dsimp only
  rw [modelFits, tierFits, speedFits, geoFits]
  rfl

/-- A hedge that is set up changes nothing that is built from. -/
theorem applyHedge_kept (table : List Upstream) (f : ReqState) (d : Decision) :
    Kept f (f.applyHedge table d).2 := by
  unfold ReqState.applyHedge
  dsimp only
  split
  · exact ⟨rfl, rfl, rfl, rfl⟩
  · split <;> exact ⟨rfl, rfl, rfl, rfl⟩

/-- A decision that is carried out names a project that can be used, and leaves it in the
route. -/
theorem applyDecision_applied
    {table : List Upstream} {c c' : ClientConn} {d : Decision}
    (applied : c.applyDecision table d = (none, c')) :
    ¬ (d.vertexProject ≠ [] ∧ Provider.vertexProjectOk d.vertexProject = false) ∧
      ∃ slot f, c' = (c.withSlot slot).withReq f ∧ f.captured = c.req.f.captured ∧
        f.stand = c.req.f.stand ∧ f.route.vertexProject = .set d.vertexProject := by
  unfold applyDecision at applied
  split at applied
  · cases applied
  · rename_i slot _
    dsimp only at applied
    generalize (c.withSlot slot).req.f.route.setOverrides d.model d.serviceTier d.speed
      d.inferenceGeo = copied at applied
    obtain ⟨fit, route⟩ := copied
    dsimp only at applied
    split at applied
    · cases applied
    · split at applied
      · cases applied
      · split at applied
        · cases applied
        · split at applied
          · cases applied
          · split at applied
            · cases applied
            · rename_i project
              refine ⟨project, slot, _, (congrArg Prod.snd applied).symm, ?_⟩
              have kept := applyHedge_kept table
                { (c.withSlot slot).req.f with
                  route := { route with
                    betaOverride := .set d.anthropicBeta
                    substModel := .set d.substituteModel
                    substFor := .set d.substituteFor
                    keyHeader := .set d.credentialHeader
                    vertexProject := .set d.vertexProject }
                  policyTag := d.tag } d
              exact ⟨kept.captured, kept.stand, kept.vertexProject⟩

/-- A decision that names outright what a usable retry names is carried out. -/
theorem applyDecision_asDecision
    {table : List Upstream} {c : ClientConn} {r : Retry} {vertexProject : Bytes}
    (within : inTable table r.upstreamIndex = true)
    (usable : Usable r)
    (project : ¬ (vertexProject ≠ [] ∧ Provider.vertexProjectOk vertexProject = false)) :
    ∃ f, c.applyDecision table (r.asDecision vertexProject) =
        (none, (c.withSlot r.upstreamIndex).withReq f) ∧
      f.captured = c.req.f.captured ∧ f.stand = c.req.f.stand ∧
      f.route = { c.req.f.route.retried r with vertexProject := .set vertexProject } := by
  have slot : slotOf table (r.asDecision vertexProject) = some r.upstreamIndex := if_pos within
  unfold applyDecision
  rw [slot]
  dsimp only [Retry.asDecision]
  rw [setOverrides_of_fit usable.model usable.tier usable.speed usable.geo]
  dsimp only
  simp only [usable.beta, usable.substitution, usable.key, project, Bool.true_eq_false, if_false]
  exact ⟨_, rfl, rfl, rfl, rfl⟩

end ClientConn

namespace Held

variable {setup : Setup} {request : Bytes} {c c' : ClientConn} {table : List Upstream} {r : Retry}

/-- A decision leaves the request held. -/
theorem withRoute (held : Held setup request c) {slot : Int} {f : ReqState}
    (captured : f.captured = c.req.f.captured) (stand : f.stand = c.req.f.stand) :
    Held setup request ((c.withSlot slot).withReq f) where
  framed := by
    show _ = (_, c.msg, f.captured.head)
    rw [captured]
    exact held.framed
  length := held.length
  front := held.front
  saved := held.saved
  modelInPath := by
    show f.captured.modelInPath = _
    rw [captured]
    exact held.modelInPath
  model := by
    show f.captured.model = modelCaptured (request.take c.msg.headerLen)
      (request.drop c.msg.headerLen)
    rw [captured]
    exact held.model
  whole := by
    show f.stand.bodyStreaming = false
    rw [stand]
    exact held.whole

/-- However many attempts failed, the request is held whole and the project is the first
decision's. -/
theorem attempts (held : Held setup request c)
    (run : ReflTransGen (fun a b => ∃ r, FailedOver setup table a r b) c c') :
    Held setup request c' ∧ c'.req.f.route.vertexProject = c.req.f.route.vertexProject := by
  induction run with
  | refl => exact ⟨held, rfl⟩
  | tail _ step inductionHypothesis =>
      obtain ⟨before, project⟩ := inductionHypothesis
      obtain ⟨r, step⟩ := step
      obtain ⟨after, -, -, -, route⟩ := before.failedOver step
      refine ⟨after, ?_⟩
      rw [route]
      exact project

end Held

/-- However many attempts at a request failed and whatever they were routed with, what
`dispatch` builds after a retry is what it builds, of the same bytes on any connection,
when the first decision names the retry's venue, overrides, substitution, beta token and
key outright; of the first decision only `vertex_project` is left.  The decision may be
older than the last byte of the body: no attempt changes the project it named. -/
theorem failover_builds_as_decided
    {setup : Setup} {table : List Upstream} {request : Bytes}
    {asked decided c failed next fresh : ClientConn} {d : Decision} {r : Retry}
    (applied : asked.applyDecision table d = (none, decided))
    (held : Held setup request c)
    (inForce : c.req.f.route.vertexProject = decided.req.f.route.vertexProject)
    (attempts : ReflTransGen (fun a b => ∃ r, FailedOver setup table a r b) c failed)
    (retried : FailedOver setup table failed r next)
    (heldFresh : Held setup request fresh) :
    ∃ direct, fresh.applyDecision table (r.asDecision d.vertexProject) = (none, direct) ∧
      (next.buildRequest setup table).1 = (direct.buildRequest setup table).1 := by
  obtain ⟨project, slot, f, rfl, -, -, keeps⟩ := ClientConn.applyDecision_applied applied
  obtain ⟨heldFailed, sameProject⟩ := held.attempts attempts
  obtain ⟨heldNext, venue, within, usable, route⟩ := heldFailed.failedOver retried
  obtain ⟨g, direct, sameCaptured, sameStand, routed⟩ :=
    @ClientConn.applyDecision_asDecision table fresh r d.vertexProject within usable project
  refine ⟨_, direct, ?_⟩
  apply ClientConn.buildRequest_same heldNext (heldFresh.withRoute sameCaptured sameStand)
  · have project : failed.req.f.route.vertexProject = .set d.vertexProject := by
      rw [sameProject, inForce]
      exact keeps
    rw [route]
    show _ = g.route
    rw [routed]
    unfold Route.retried
    rw [project]
  · exact venue

/-- A venue that no translator, signature or stripped header is needed for. -/
def plainSetup : Setup where
  translators :=
    { request := fun _ => none
      target := fun _ _ => none
      vertexProjectTarget := fun _ _ => none
      signBedrock := fun _ _ _ _ => .error "bedrock credential"
      translateFailure := fun _ => "" }

/-- Three Gemini venues. -/
def geminiTable : List Upstream :=
  [{ port := 443, tls := true, dialect := .gemini, hostHdr := ascii "a" },
    { port := 443, tls := true, dialect := .gemini, hostHdr := ascii "b" },
    { port := 443, tls := true, dialect := .gemini, hostHdr := ascii "c" }]

/-- A request that names its model in its path, with two keys. -/
def pathRequest : Bytes :=
  ascii "POST /v1beta/models/m:generateContent HTTP/1.1\r\nX-Kottos-Key-A: 1\r\n" ++
    ascii "X-Kottos-Key-B: 2\r\n\r\n"

/-- The connection that `try_frame` leaves of it. -/
def pathConn : ClientConn :=
  let parsed := parseRequestWith (readHead []) pathRequest {} {}
  ((({ rbuf := pathRequest } : ClientConn).openRequest parsed.2.1 parsed.2.2 1 0).captureModel
    plainSetup).2

/-- An attempt that is out, of a request of which nothing more arrives. -/
def ClientConn.attempted (c : ClientConn) : ClientConn :=
  let taken := (c.buildRequest plainSetup geminiTable).2.takeRequest true geminiTable
  taken.withReq { taken.req.f with stand := { taken.req.f.stand with phase := .dispatched } }

/-- What it leaves to dispatch next when it fails. -/
def ClientConn.failOver (c : ClientConn) (r : Retry) : ClientConn :=
  (c.attempted.acceptRetry geminiTable (c.attempted.retryable geminiTable) r).2.putBack r

/-- A retry that is accepted is failed over to. -/
theorem ClientConn.failedOver_failOver
    {c : ClientConn} {r : Retry}
    (built : (c.buildRequest plainSetup geminiTable).1.toBool = true)
    (accepted : (c.attempted.acceptRetry geminiTable (c.attempted.retryable geminiTable) r).1 =
      true) : FailedOver plainSetup geminiTable c r (c.failOver r) := by
  cases bytes : (c.buildRequest plainSetup geminiTable).1 with
  | error r =>
      rw [bytes] at built
      cases built
  | ok bytes' =>
      exact ⟨bytes', c.attempted, _, bytes,
        ⟨List.prefix_rfl, rfl, rfl, rfl, rfl, rfl, rfl⟩, Prod.ext accepted rfl, rfl⟩

/-- A decision and two retries, each with a model and a key of its own. -/
def modelX : Decision :=
  { allow := true, upstreamIndex := 0, model := ascii "x",
    credentialHeader := ascii "x-kottos-key-a" }

/-- The first retry. -/
def modelY : Retry :=
  { retry := true, upstreamIndex := 1, model := ascii "y",
    credentialHeader := ascii "x-kottos-key-b" }

/-- The second retry. -/
def modelZ : Retry :=
  { retry := true, upstreamIndex := 2, model := ascii "z",
    credentialHeader := ascii "x-kottos-key-a" }

theorem failover_builds_as_decided_twice :
    ∃ direct, pathConn.applyDecision geminiTable (modelZ.asDecision []) = (none, direct) ∧
      ((((pathConn.applyDecision geminiTable modelX).2.failOver modelY).failOver
        modelZ).buildRequest plainSetup geminiTable).1 =
      (direct.buildRequest plainSetup geminiTable).1 := by
  have held : Held plainSetup (pathRequest.take
      (parseRequestWith (readHead []) pathRequest {} {}).2.1.totalLen) pathConn :=
    @held_of_framing plainSetup { rbuf := pathRequest } _ _ 1 0
      (Prod.ext (by decide) rfl) (by decide)
  have applied : pathConn.applyDecision geminiTable modelX =
      (none, (pathConn.applyDecision geminiTable modelX).2) := Prod.ext (by decide) rfl
  obtain ⟨-, slot, f, decided, captured, stand, -⟩ := ClientConn.applyDecision_applied applied
  have stillHeld := decided ▸ held.withRoute captured stand
  have first : FailedOver plainSetup geminiTable (pathConn.applyDecision geminiTable modelX).2
      modelY ((pathConn.applyDecision geminiTable modelX).2.failOver modelY) :=
    ClientConn.failedOver_failOver (by decide +kernel) (by decide +kernel)
  have second : FailedOver plainSetup geminiTable
      ((pathConn.applyDecision geminiTable modelX).2.failOver modelY) modelZ
      (((pathConn.applyDecision geminiTable modelX).2.failOver modelY).failOver modelZ) :=
    ClientConn.failedOver_failOver (by decide +kernel) (by decide +kernel)
  exact failover_builds_as_decided applied stillHeld rfl
    (ReflTransGen.single ⟨modelY, first⟩) second held

end Gateway
end Llmbridge
