import Llmbridge.Gateway.Policy
import Llmbridge.Gateway.Splice
import Llmbridge.Net.ResponseBody

/-!
# One request's state

`gateway/src/core/req.hpp`, without the stamps and counts that only the sink's record
and the logs read.
-/

namespace Llmbridge
namespace Gateway

open Rfc8259 (Byte Bytes)
open Provider (Venue)
open Forward (HeadFacts kMaxBetaToken kMaxKeyHeaderName)

/-- `FixedStr`: at most `n` bytes. -/
structure FixedStr (n : Nat) where
  view : Bytes := []
  held : view.length ≤ n := by simp
  deriving DecidableEq, Repr

namespace FixedStr

variable {n : Nat}

instance : Inhabited (FixedStr n) :=
  ⟨{}⟩

/-- `set`, as far as it fits. -/
def set (v : Bytes) : FixedStr n where
  view := v.take n
  held := by simp

/-- What `set` answers. -/
def fits (n : Nat) (v : Bytes) : Bool :=
  v.length ≤ n

/-- `empty`. -/
def isEmpty (s : FixedStr n) : Bool :=
  s.view.isEmpty

@[simp] theorem view_set (v : Bytes) : (set v : FixedStr n).view = v.take n := rfl

@[ext] theorem ext {s t : FixedStr n} (same : s.view = t.view) : s = t := by
  cases s
  cases t
  congr

/-- Copying a held string gives it again. -/
@[simp] theorem set_view (s : FixedStr n) : (set s.view : FixedStr n) = s := by
  ext
  rw [view_set, List.take_of_length_le s.held]

end FixedStr

/-- `Phase`. -/
inductive Phase
  | idle
  | dispatched
  | responding
  | streaming
  | replying
  deriving DecidableEq, Repr

namespace Phase

/-- A phase's number, by which phases compare. -/
def rank : Phase → Nat
  | .idle => 0
  | .dispatched => 1
  | .responding => 2
  | .streaming => 3
  | .replying => 4

end Phase

/-- `ConfirmOutcome`. -/
inductive ConfirmOutcome
  | none
  | kept
  | redone
  | refused
  deriving DecidableEq, Repr

/-- `HedgeLegCopy`. -/
structure HedgeLegCopy where
  venue : Int := -1
  model : FixedStr 255 := default
  tier : FixedStr 32 := default
  speed : FixedStr 32 := default
  geo : FixedStr 32 := default
  beta : FixedStr kMaxBetaToken := default
  key : FixedStr kMaxKeyHeaderName := default
  deriving DecidableEq, Repr

/-- What a decision or a retry names for an attempt. -/
structure Route where
  modelOverride : FixedStr 255 := default
  tierOverride : FixedStr 32 := default
  speedOverride : FixedStr 32 := default
  geoOverride : FixedStr 32 := default
  betaOverride : FixedStr kMaxBetaToken := default
  keyHeader : FixedStr kMaxKeyHeaderName := default
  vertexProject : FixedStr Provider.kMaxGoogleProject := default
  substModel : FixedStr kMaxSubstituteModel := default
  substFor : FixedStr kMaxSubstituteFor := default
  deriving DecidableEq, Repr

/-- What is read from the request itself, at framing and from its body. -/
structure Captured where
  head : HeadFacts := {}
  modelInPath : Bool := false
  model : FixedStr 64 := default
  askedStream : Bool := false
  askedUsage : Bool := false
  askedCacheTtl : FixedStr 8 := default
  prefixHash : UInt64 := 0
  deriving DecidableEq, Repr

/-- What `dispatch` resolves for an attempt. -/
structure Plan where
  effectiveDialect : Venue := .openAi
  translateBody : Bool := false
  geminiReply : Bool := false
  wantsUsage : Bool := false
  askedTier : FixedStr 16 := default
  splice : Bool := false
  modelSubstituted : Bool := false
  membersSpliced : UInt8 := 0
  deriving DecidableEq, Repr

/-- A body that is forwarded as it arrives, or decided on before it is whole. -/
structure Upload where
  bodySent : Nat := 0
  bodyIn : Nat := 0
  bodyInRbuf : Bool := false
  bodyScanned : Bool := false
  bodyStreamed : Bool := false
  decidedOnHead : Bool := false
  confirmPending : Bool := false
  held : Bool := false
  bodyParts : Bool := false
  confirmOutcome : ConfirmOutcome := .none
  substTracked : Bool := false
  membersTracked : UInt8 := 0
  deriving DecidableEq, Repr

/-- The reply's stream: the venue's framing and ours. -/
structure Relay where
  streamLeft : Nat := 0
  streamBody : Http.Body := .none
  streamChunkedOut : Bool := false
  streamTerminated : Bool := false
  streamKeepAlive : Bool := false
  streamTail : Bytes := [0, 0, 0, 0]
  sseTranslating : Bool := false
  deriving DecidableEq, Repr

/-- Where the request stands. -/
structure Stand where
  reqSeq : Nat := 0
  phase : Phase := .idle
  failoverAttempts : Nat := 0
  streaming : Bool := false
  streamEnded : Bool := false
  bodyStreaming : Bool := false
  bodyParked : Bool := false
  replyKept : Bool := false
  hedged : Bool := false
  hedgeWon : Bool := false
  hedgeCut : Bool := false
  errorOwed : Bool := false
  sunk : Bool := false
  deriving DecidableEq, Repr

/-- `ReqState`, its fields in records of those that change together. -/
structure ReqState where
  stand : Stand := {}
  route : Route := {}
  captured : Captured := {}
  plan : Plan := {}
  upload : Upload := {}
  relay : Relay := {}
  policyTag : Nat := 0
  tsReqRecvd : Int := 0
  tsFirstToken : Int := 0
  tsFirstThinking : Int := 0
  tsProgress : Int := 0
  hedge : List HedgeLegCopy := []
  hedgeGroup : Nat := 0
  hedgeN : Nat := 0
  hedgeLeg : Nat := 0
  deriving DecidableEq, Repr

namespace ReqState

/-- `rewrites_body`. -/
def rewritesBody (f : ReqState) : Bool :=
  !((f.captured.modelInPath || f.route.modelOverride.isEmpty) && f.route.tierOverride.isEmpty &&
    f.route.speedOverride.isEmpty && f.route.geoOverride.isEmpty)

/-- `path_model`. -/
def pathModel (f : ReqState) : Bytes :=
  if f.captured.modelInPath = false then []
  else if f.route.modelOverride.isEmpty = false then f.route.modelOverride.view
  else if f.route.substModel.isEmpty = false ∧ f.captured.model.view = f.route.substFor.view then
    f.route.substModel.view
  else []

end ReqState

/-- `RequestCtx`. -/
structure RequestCtx where
  f : ReqState := {}
  saved : Bytes := []
  chunkdec : Http.ChunkDecoder := {}
  discard : Nat := 0
  closeOnDrain : Bool := false
  scan : BodyScan := BodyScan.reset false false

namespace RequestCtx

/-- `begin`. -/
def «begin» (c : RequestCtx) (seq : Nat) : RequestCtx :=
  { c with f := { stand := { reqSeq := seq } }, saved := [], chunkdec := {} }

/-- `can_redispatch`. -/
def canRedispatch (c : RequestCtx) : Bool :=
  c.f.stand.phase = .dispatched

end RequestCtx

end Gateway
end Llmbridge
