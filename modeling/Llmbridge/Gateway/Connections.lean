import Llmbridge.Gateway.Request
import Llmbridge.Provider.Sse

/-!
# Connections

`gateway/src/core/outbuf.hpp`, `gateway/src/core/conn.hpp`: the bytes owed to a socket,
a customer's connection with its request in flight, and a connection to a venue.  A
pointer to a connection is the number it was made under, and a connection's fields are in
records of those that change together.  The build is the one without
TLS.
-/

namespace Llmbridge
namespace Gateway

open Rfc8259 (Byte Bytes)

/-! ## Bytes owed to a socket -/

/-- `OutBuf`. -/
structure OutBuf where
  front : Bytes := []
  back : Bytes := []
  off : Nat := 0
  pinned : Bool := false
  deriving DecidableEq, Repr

namespace OutBuf

/-- A front that is all on the wire is reset before it is staged over. -/
def reset (b : OutBuf) : OutBuf :=
  if b.pinned = false ∧ b.off ≠ 0 ∧ b.off = b.front.length then { b with front := [], off := 0 }
  else b

/-- `stage().append`. -/
def append (b : OutBuf) (s : Bytes) : OutBuf :=
  let b := b.reset
  if b.pinned then { b with back := b.back ++ s } else { b with front := b.front ++ s }

/-- `wire`. -/
def wire (b : OutBuf) : Bytes :=
  b.front.drop b.off

/-- `pin`. -/
def pin (b : OutBuf) : OutBuf :=
  { b with pinned := true }

/-- `sent`. -/
def sent (b : OutBuf) (n : Nat) : OutBuf :=
  let b := { b with off := b.off + n, pinned := false }
  if b.back.isEmpty then b
  else if b.off = b.front.length then { b with front := b.back, back := [], off := 0 }
  else { b with front := b.front ++ b.back, back := [] }

/-- `idle`. -/
def idle (b : OutBuf) : Bool :=
  b.off = b.front.length && b.back.isEmpty

/-- `unsent`. -/
def unsent (b : OutBuf) : Nat :=
  b.front.length - b.off + b.back.length

/-- `take`: what it answers, and what it leaves. -/
def take (b : OutBuf) : Bytes × OutBuf :=
  (b.front ++ b.back,
    if b.pinned then { b with back := [] } else { b with front := [], back := [], off := 0 })

/-- `clear`, and `scrub`. -/
def clear (b : OutBuf) : OutBuf :=
  { b with front := [], back := [], off := 0 }

end OutBuf

/-! ## The two kinds of connection -/

/-- A client connection's links, and what keeps it open. -/
structure Links where
  slot : Option Nat := none
  doomed : Bool := false
  upstreamSlot : Int := -1
  closeAfterResp : Bool := false
  shadow : Bool := false
  hedgeOpen : Bool := false
  hedgeOf : Option Nat := none
  hedgeLegs : List (Option Nat) := List.replicate (kMaxHedgeLegs + 1) none
  up : Option Nat := none
  deriving DecidableEq, Repr

/-- `ClientConn`. -/
structure ClientConn where
  links : Links := {}
  sentBytes : Nat := 0
  rbuf : Bytes := []
  out : OutBuf := {}
  readPaused : Bool := false
  everFramed : Bool := false
  tsAccepted : Int := 0
  tsFirstByte : Int := 0
  tsClientActivity : Int := 0
  clientFrameWant : Nat := 0
  msg : Http.Message := {}
  req : RequestCtx := {}
  sseXlate : AnthropicToOpenAiSse := AnthropicToOpenAiSse.reset 0 false 0

/-- An upstream connection's links, and what keeps it out of the pool. -/
structure UpLinks where
  slot : Option Nat := none
  doomed : Bool := false
  venue : Int := -1
  fromPool : Bool := false
  retried : Bool := false
  pooled : Bool := false
  client : Option Nat := none
  deriving DecidableEq, Repr

/-- `UpstreamConn`. -/
structure UpstreamConn where
  links : UpLinks := {}
  sentBytes : Nat := 0
  rbuf : Bytes := []
  out : OutBuf := {}
  readPaused : Bool := false
  resetOnClose : Bool := false
  fdOpen : Bool := false
  connected : Bool := false
  wireReady : Bool := false
  peerEof : Bool := false
  tsOpened : Int := 0
  tsPooled : Int := 0
  tsPoolTaken : Int := 0
  framer : Http.ResponseFramer := {}

namespace ClientConn

/-- The head of the request at the front of `rbuf`. -/
def head (c : ClientConn) : Bytes :=
  c.rbuf.take c.msg.headerLen

/-- `body_so_far`. -/
def bodySoFar (c : ClientConn) : Bytes :=
  (c.rbuf.take c.msg.totalLen).drop c.msg.headerLen

/-- The body of a request that is whole at the front of `rbuf`. -/
def body (c : ClientConn) : Bytes :=
  Rfc8259.substr c.rbuf c.msg.headerLen c.msg.bodyLen

end ClientConn

end Gateway
end Llmbridge
