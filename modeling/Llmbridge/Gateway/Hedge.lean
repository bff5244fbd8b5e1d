import Llmbridge.Gateway.Replies
import Llmbridge.Gateway.Request

/-!
# Hedged requests

`gateway/src/core/hedge.cpp`, with what `client.cpp`, `stream.cpp` and `shadow_io.cpp` do
with a leg: one request sent to several venues, whose first success the client gets.
-/

namespace Llmbridge
namespace Gateway

open Rfc8259 (Byte Bytes ascii)

/-- `Sent`: how a send to the client went. -/
inductive Sent
  | done
  | queued
  | failed
  deriving DecidableEq, Repr

/-- A `ClientConn`, and its request, as far as a hedge reads them. A leg's has no socket.
Nothing of a hedge tells a request's first response bytes, `responding`, from its sending. -/
structure HedgeConn where
  /-- `hedge_leg`. -/
  leg : Nat
  phase : Phase := .dispatched
  streaming : Bool := false
  streamEnded : Bool := false
  streamTerminated : Bool := false
  /-- `ts_first_token` or `ts_first_thinking` is set. -/
  token : Bool := false
  closeAfterResp : Bool := false
  hedgeWon : Bool := false
  hedgeCut : Bool := false
  errorOwed : Bool := false
  sunk : Bool := false
  out : Bytes := []
  deriving DecidableEq, Repr

/-- What a `RequestRecord` says of a leg. -/
structure HedgeRecord where
  hedgeLeg : Nat
  status : Nat
  streamed : Bool
  hedgeWon : Bool
  hedgeCut : Bool
  deriving DecidableEq, Repr

/-- `sink_emit`. -/
def HedgeConn.record (s : HedgeConn) (status : Nat) (streamed : Bool) : HedgeRecord :=
  ⟨s.leg, status, streamed, s.hedgeWon, s.hedgeCut⟩

/-- Whether the reply that a leg staged is a 2xx. -/
def HedgeConn.isSuccess (s : HedgeConn) : Bool :=
  200 ≤ statusOf s.out && statusOf s.out < 300

/-- `begin_stream`, up to its pump. -/
def HedgeConn.began (s : HedgeConn) (head : Bytes) : HedgeConn :=
  { s with streaming := true, phase := .streaming, out := s.out ++ head }

/-- `stream_step` staged `text`, and `stream_truncate` where it failed. -/
def HedgeConn.stepped (s : HedgeConn) (text : Bytes) (token : Bool) (step : StreamStep) :
    HedgeConn :=
  { s with
    out := s.out ++ text
    token := s.token || token
    streamEnded := s.streamEnded || step != .ok
    closeAfterResp := s.closeAfterResp || (step == .corrupt || step == .failed) }

/-- A client whose request is hedged, and its legs. -/
structure HedgeRace where
  /-- `http_1_1` and `keep_alive` of the request. -/
  http11 : Bool
  keepAlive : Bool
  client : HedgeConn
  doomed : Bool := false
  hedgeOpen : Bool := true
  /-- The legs still linked, by their number. -/
  hedgeLegs : List (Option HedgeConn)
  /-- What the sink was given. -/
  records : List HedgeRecord := []
  errors : Nat := 0
  legsCut : Nat := 0
  /-- Every text that a leg staged, before it won or after. -/
  said : List (Nat × Bytes) := []
  /-- Everything staged for the client. -/
  told : Bytes := []
  deriving DecidableEq, Repr

/-- `spawn_hedge`: the legs made and linked. -/
def HedgeRace.spawned (http11 keepAlive : Bool) (legs : Nat) : HedgeRace where
  http11 := http11
  keepAlive := keepAlive
  client := { leg := 0 }
  hedgeLegs := (List.range legs).map fun i => some { leg := i }

namespace HedgeRace

/-! ## Closing -/

def setLeg (r : HedgeRace) (i : Nat) (s : HedgeConn) : HedgeRace :=
  { r with hedgeLegs := r.hedgeLegs.set i (some s) }

/-- Whether a leg is left. -/
def live (r : HedgeRace) : Bool :=
  r.hedgeLegs.any Option.isSome

/-- `leg_alone`. -/
def legAlone (r : HedgeRace) (i : Nat) : Bool :=
  !(r.hedgeLegs.set i none).any Option.isSome

/-- `close_shadow` up to its check of the race: the leg's record, and `forget`. -/
def dropLeg (r : HedgeRace) (i : Nat) (s : HedgeConn) : HedgeRace :=
  { r with
    records :=
      if s.sunk || s.phase == .idle then r.records
      else r.records ++
        [s.record (if s.hedgeCut then 0 else if s.streaming then 200 else 502) s.streaming]
    hedgeLegs := r.hedgeLegs.set i none }

/-- `cut_leg`: its close finds the race settled. -/
def cutLeg (r : HedgeRace) (i : Nat) : HedgeRace :=
  match r.hedgeLegs[i]? with
  | some (some s) =>
      dropLeg { r with legsCut := r.legsCut + 1 } i { s with hedgeCut := true }
  | _ => r

/-- `settle_hedge`. -/
def settleHedge (r : HedgeRace) : HedgeRace :=
  (List.range r.hedgeLegs.length).foldl cutLeg { r with hedgeOpen := false }

/-- `forget` of the client. -/
def closeClient (r : HedgeRace) : HedgeRace :=
  if r.doomed then r
  else if r.hedgeOpen then settleHedge { r with doomed := true }
  else { r with doomed := true }

/-- `abort_pair` of the client. -/
def abortClient (r : HedgeRace) : HedgeRace :=
  { r.closeClient with errors := r.closeClient.errors + 1 }

/-- `client_gone`. -/
def clientGone (r : HedgeRace) : HedgeRace :=
  if r.client.phase = .idle then r.closeClient else r.abortClient

/-! ## Replies -/

/-- The record of what the client got, once. -/
def emitClient (r : HedgeRace) (status : Nat) (streamed : Bool) : HedgeRace :=
  if r.client.sunk then r
  else
    { r with
      records := r.records ++ [r.client.record status streamed]
      client := { r.client with sunk := true } }

/-- `finish` of the client. -/
def finishClient (r : HedgeRace) : HedgeRace :=
  if r.client.phase ≠ .replying then r
  else
    let r := r.emitClient (statusOf r.client.out) false
    let r := { r with client := { r.client with out := [], phase := .idle } }
    if r.client.closeAfterResp || !r.keepAlive then r.closeClient else r

/-- `respond` of the client, whose send goes as `sent` says. -/
def respondClient (r : HedgeRace) (sent : Sent) : HedgeRace :=
  match sent with
  | .done => r.finishClient
  | .failed => r.clientGone
  | .queued => r

/-- `error_respond` of the client. -/
def errorRespondClient (r : HedgeRace) (code : Int) (sent : Sent) : HedgeRace :=
  if r.doomed then r
  else if 3 ≤ r.client.phase.rank ∨ r.client.out ≠ [] then r.abortClient
  else
    respondClient
      { r with
        client :=
          { r.client with
            out := appendError [] code none false
            phase := .replying
            closeAfterResp := true }
        told := r.told ++ appendError [] code none false
        errors := r.errors + 1 } sent

/-- `close_shadow`: the last leg gone with no answer is the gateway's 502. -/
def closeShadow (r : HedgeRace) (i : Nat) (s : HedgeConn) (sent : Sent) : HedgeRace :=
  let r := r.dropLeg i s
  if !r.hedgeOpen || r.live then r
  else
    errorRespondClient { r with hedgeOpen := false, client := { r.client with sunk := true } } 502
      sent

/-- `adopt_leg`. -/
def adoptLeg (r : HedgeRace) (i : Nat) (s : HedgeConn) : HedgeRace :=
  let r :=
    settleHedge
      { r with
        hedgeLegs := r.hedgeLegs.set i none
        client := { s with hedgeWon := true, out := r.client.out ++ s.out }
        told := r.told ++ s.out }
  { r with errors := r.errors + if s.errorOwed then 1 else 0 }

/-- `finish` of a leg. -/
def finishLeg (r : HedgeRace) (i : Nat) (s : HedgeConn) (sent : Sent) : HedgeRace :=
  closeShadow
    { r with
      records :=
        if s.sunk then r.records else r.records ++ [s.record (statusOf s.out) false] } i
    { s with sunk := true, out := [], phase := .idle } sent

/-- `respond` of a leg: a 2xx wins, and so does any reply of the last leg. -/
def respondLeg (r : HedgeRace) (i : Nat) (s : HedgeConn) (sent : Sent) : HedgeRace :=
  if r.hedgeOpen && (s.isSuccess || r.legAlone i) then (r.adoptLeg i s).respondClient sent
  else r.finishLeg i s sent

/-- `error_respond` of a leg: behind what is staged it closes the leg. -/
def errorRespondLeg (r : HedgeRace) (i : Nat) (s : HedgeConn) (code : Int)
    (detail : Option Bytes) (sent : Sent) : HedgeRace :=
  if 3 ≤ s.phase.rank ∨ s.out ≠ [] then r.closeShadow i s sent
  else
    respondLeg { r with said := r.said ++ [(i, appendError [] code detail false)] } i
      { s with
        out := appendError [] code detail false
        phase := .replying
        closeAfterResp := true
        errorOwed := true } sent

/-! ## Streams -/

/-- `finalize_stream` of the client. -/
def finalizeClient (r : HedgeRace) : HedgeRace :=
  let r := r.emitClient 200 true
  if !(r.http11 && r.keepAlive && !r.client.closeAfterResp) then r.closeClient
  else { r with client := { r.client with streaming := false, phase := .idle, out := [] } }

/-- `stream_terminate`, where a clean end was not written yet; `ending` is the sink's note
and the last chunk. -/
def terminateClient (r : HedgeRace) (ending : Bytes) : HedgeRace :=
  if r.client.streamEnded && !r.client.streamTerminated && !r.client.closeAfterResp then
    { r with
      client := { r.client with streamTerminated := true, out := r.client.out ++ ending }
      told := r.told ++ ending
      said := r.said ++ [(r.client.leg, ending)] }
  else r

/-- `stream_flush` of the client. -/
def flushClient (r : HedgeRace) (ending : Bytes) (sent : Sent) : HedgeRace :=
  let r := r.terminateClient ending
  match sent with
  | .failed => r.abortClient
  | .queued => r
  | .done =>
      let r := { r with client := { r.client with out := [] } }
      if r.client.streamEnded then r.finalizeClient else r

/-- `stream_flush` of a leg: its first token wins, and so does the end of the last leg. -/
def flushLeg (r : HedgeRace) (i : Nat) (s : HedgeConn) (ending : Bytes) (sent : Sent) :
    HedgeRace :=
  if r.hedgeOpen && (!s.token && !s.streamEnded) then r.setLeg i s
  else if r.hedgeOpen && (s.token || r.legAlone i) then
    (r.adoptLeg i s).flushClient ending sent
  else if s.streamEnded then
    closeShadow
      { r with records := if s.sunk then r.records else r.records ++ [s.record 200 true] } i
      { s with sunk := true, out := [] } sent
  else r.setLeg i { s with out := [] }

/-- `stream_pump` of a leg; a failed step is owed as an error. -/
def pumpLeg (r : HedgeRace) (i : Nat) (s : HedgeConn) (text : Bytes) (token : Bool)
    (step : StreamStep) (ending : Bytes) (sent : Sent) : HedgeRace :=
  flushLeg { r with said := r.said ++ [(i, text)] } i
    { s.stepped text token step with
      errorOwed := s.errorOwed || (step == .corrupt || step == .failed) } ending sent

/-- `stream_pump` of the client that a leg was adopted for. -/
def pumpClient (r : HedgeRace) (text : Bytes) (token : Bool) (step : StreamStep)
    (ending : Bytes) (sent : Sent) : HedgeRace :=
  flushClient
    { r with
      client := r.client.stepped text token step
      told := r.told ++ text
      said := r.said ++ [(r.client.leg, text)]
      errors := r.errors + if step == .corrupt || step == .failed then 1 else 0 } ending sent

end HedgeRace

/-! ## Runs -/

/-- What happens to a hedged request: to a leg, or to its client. -/
inductive HedgeEvent
  /-- A venue's 200 head: the stream's head, and its first read. -/
  | began (leg : Nat) (head text : Bytes) (token : Bool) (step : StreamStep) (ending : Bytes)
      (sent : Sent)
  /-- A read of a leg's stream, or its end. -/
  | pumped (leg : Nat) (text : Bytes) (token : Bool) (step : StreamStep) (ending : Bytes)
      (sent : Sent)
  /-- A venue's whole reply, staged as `text`; `owed` where it counts as an error. -/
  | replied (leg : Nat) (text : Bytes) (owed : Bool) (sent : Sent)
  /-- The gateway's own error for a leg. -/
  | refused (leg : Nat) (code : Int) (detail : Option Bytes) (sent : Sent)
  /-- A leg closed with nothing more to say. -/
  | closed (leg : Nat) (sent : Sent)
  /-- A read of the stream that the client has. -/
  | streamed (text : Bytes) (token : Bool) (step : StreamStep) (ending : Bytes) (sent : Sent)
  /-- The client took more of what it is owed. -/
  | drained (ending : Bytes) (sent : Sent)
  /-- The client is gone. -/
  | left
  deriving DecidableEq, Repr

namespace HedgeRace

/-- What a leg that is linked does; nothing happens to one that is not. -/
def atLeg (r : HedgeRace) (i : Nat) (act : HedgeConn → Option HedgeRace) : Option HedgeRace :=
  match r.hedgeLegs[i]? with
  | some (some s) => act s
  | _ => none

/-- One event; none where it cannot happen. -/
def step (r : HedgeRace) : HedgeEvent → Option HedgeRace
  | .began i head text token step ending sent =>
      r.atLeg i fun s =>
        if s.phase = .dispatched then
          some (pumpLeg { r with said := r.said ++ [(i, head)] } i (s.began head) text token step
            ending sent)
        else none
  | .pumped i text token step ending sent =>
      r.atLeg i fun s =>
        if s.phase = .streaming then some (r.pumpLeg i s text token step ending sent) else none
  | .replied i text owed sent =>
      r.atLeg i fun s =>
        if s.phase = .dispatched then
          some (respondLeg { r with said := r.said ++ [(i, text)] } i
            { s with
              out := s.out ++ text
              phase := .replying
              errorOwed := s.errorOwed || owed } sent)
        else none
  | .refused i code detail sent =>
      r.atLeg i fun s => some (r.errorRespondLeg i s code detail sent)
  | .closed i sent => r.atLeg i fun s => some (r.closeShadow i s sent)
  | .streamed text token step ending sent =>
      if !r.doomed && !r.hedgeOpen && r.client.phase == .streaming then
        some (r.pumpClient text token step ending sent)
      else none
  | .drained ending sent =>
      if r.doomed || r.hedgeOpen then none
      else if r.client.phase = .streaming then some (r.flushClient ending sent)
      else if r.client.phase = .replying then some (r.respondClient sent)
      else none
  | .left => if r.doomed then none else some r.clientGone

/-- A run: every event that happens can. -/
def run (r : HedgeRace) (events : List HedgeEvent) : Option HedgeRace :=
  events.foldlM step r

end HedgeRace
end Gateway
end Llmbridge
