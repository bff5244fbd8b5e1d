import Llmbridge.Net.Http

/-!
# Response bodies

`ChunkDecoder`, `parse_response` and `ResponseFramer` of
`net/include/net/http.hpp`.
-/

namespace Llmbridge
namespace Http

open Rfc8259 (Byte Bytes)
open Http1 (cr lf crlf)

/-- `St`. -/
inductive ChunkState
  | size
  | data
  | dataCrlf
  | trailer
  | done
  | error
  deriving DecidableEq, Repr

/-- `ChunkDecoder`. -/
structure ChunkDecoder where
  st : ChunkState := .size
  /-- Bytes left in the current chunk's data. -/
  remaining : Nat := 0
  /-- Input bytes taken so far. -/
  consumed : Nat := 0
  /-- A size, CRLF or trailer line across reads. -/
  line : Bytes := []
  deriving DecidableEq, Repr

/-- A hexadecimal digit of a chunk size. -/
def hexValue (h : Byte) : Option Nat :=
  if 0x30 ≤ h ∧ h ≤ 0x39 then some (h.toNat - 0x30)
  else if 0x61 ≤ h ∧ h ≤ 0x66 then some (h.toNat - 0x61 + 10)
  else if 0x41 ≤ h ∧ h ≤ 0x46 then some (h.toNat - 0x41 + 10)
  else none

/-- The digits of `size_line`: the size, and what stands behind them; none past
`kMaxBodyLen`. -/
def sizeDigits : (sz : Nat) → Bytes → Option (Nat × Bytes)
  | sz, [] => some (sz, [])
  | sz, h :: rest =>
      match hexValue h with
      | none => some (sz, h :: rest)
      | some d => if kMaxBodyLen < sz * 16 + d then none else sizeDigits (sz * 16 + d) rest

/-- `size_line`. -/
def sizeLine (line : Bytes) : Option Nat :=
  match sizeDigits 0 line with
  | none => none
  | some (sz, rest) =>
      let rest' := rest.dropWhile isOws
      if rest.length = line.length then none
      else if rest'.head?.any (fun c => c != 0x3b) then none
      else if rest'.contains cr || rest'.contains lf then none
      else some sz

/-- The line ends with CR LF. -/
def endsCrlf (line : Bytes) : Bool :=
  crlf.isSuffixOf line

namespace ChunkDecoder

/-- `fail`. -/
def fail (d : ChunkDecoder) : ChunkDecoder :=
  { d with st := .error }

/-- `_line += c`. -/
def push (d : ChunkDecoder) (c : Byte) : ChunkDecoder :=
  { d with line := d.line ++ [c] }

/-- The end of a size line. -/
def endSize (d : ChunkDecoder) : ChunkDecoder :=
  let size := sizeLine (d.line.take (d.line.length - 2))
  let d := { d with line := [] }
  match size with
  | none => d.fail
  | some sz => { d with remaining := sz, st := if sz = 0 then .trailer else .data }

/-- The loop of `Size`, with what it leaves of the input. -/
def readSize (d : ChunkDecoder) : Bytes → ChunkDecoder × Bytes
  | [] => (d, [])
  | c :: rest =>
      let d := d.push c
      if 64 < d.line.length then (d.fail, rest)
      else if endsCrlf d.line then (d.endSize, rest)
      else d.readSize rest

/-- The loop of `DataCRLF`. -/
def readCrlf (d : ChunkDecoder) : Bytes → ChunkDecoder × Bytes
  | [] => (d, [])
  | c :: rest =>
      let d := d.push c
      if d.line.length = 2 then
        if d.line = crlf then ({ d with line := [], st := .size }, rest) else (d.fail, rest)
      else d.readCrlf rest

/-- The loop of `Trailer`. -/
def readTrailer (d : ChunkDecoder) : Bytes → ChunkDecoder × Bytes
  | [] => (d, [])
  | c :: rest =>
      let d := d.push c
      if kMaxHeaderLen < d.line.length then (d.fail, rest)
      else if endsCrlf d.line then
        if d.line.length = 2 then ({ d with line := [], st := .done }, rest)
        else readTrailer { d with line := [] } rest
      else d.readTrailer rest

/-- `Data`: with the bytes decoded. -/
def readData (d : ChunkDecoder) (input : Bytes) : ChunkDecoder × Bytes × Bytes :=
  let take := min d.remaining input.length
  let d := { d with remaining := d.remaining - take }
  (if d.remaining = 0 then { d with st := .dataCrlf } else d, input.drop take,
    input.take take)

/-- The loop of `feed`, at most `rounds` rounds of it: the decoder, what is left of
the input, and the bytes decoded. -/
def feedLoop : (rounds : Nat) → ChunkDecoder → Bytes → ChunkDecoder × Bytes × Bytes
  | 0, d, input => (d, input, [])
  | rounds + 1, d, input =>
      if input.isEmpty then (d, input, [])
      else
        match d.st with
        | .done => (d, input, [])
        | .error => (d, input, [])
        | .size =>
            let (d, input) := d.readSize input
            feedLoop rounds d input
        | .dataCrlf =>
            let (d, input) := d.readCrlf input
            feedLoop rounds d input
        | .trailer =>
            let (d, input) := d.readTrailer input
            feedLoop rounds d input
        | .data =>
            let (d, input, out) := d.readData input
            let (d, input, more) := feedLoop rounds d input
            (d, input, out ++ more)

/-- `feed`: a call that fails leaves `_consumed` as it was. -/
def feed (d : ChunkDecoder) (input : Bytes) : ChunkDecoder × Bytes :=
  let (next, left, out) := feedLoop (input.length + 1) d input
  (if next.st = .error then { next with consumed := d.consumed }
    else { next with consumed := d.consumed + (input.length - left.length) }, out)

/-- `done`. -/
def isDone (d : ChunkDecoder) : Bool :=
  d.st = .done

/-- `failed`. -/
def failed (d : ChunkDecoder) : Bool :=
  d.st = .error

end ChunkDecoder

/-- `ResponseDecoder`. -/
structure ResponseDecoder where
  dec : ChunkDecoder := {}
  body : Bytes := []
  /-- Post-header bytes already handed to `dec`. -/
  fed : Nat := 0
  deriving DecidableEq, Repr

/-- `ParsedResponse`. -/
structure ParsedResponse where
  status : FrameStatus := .needMore
  head : ResponseHead := {}
  body : Bytes := []
  totalLen : Nat := 0
  deriving DecidableEq, Repr

/-- `frame_response_body`. -/
def frameResponseBody (buf : Bytes) (st : ResponseDecoder) (r : ParsedResponse) :
    ParsedResponse × ResponseDecoder :=
  if r.head.status < 200 ∨ r.head.body = .untilClose then ({ r with status := .error }, st)
  else if r.head.body ≠ .chunked then
    let len := if r.head.body = .length then r.head.contentLength else 0
    let need := r.head.headerLen + len
    if buf.length < need then (r, st)
    else
      ({ r with
          body := Rfc8259.substr buf r.head.headerLen len
          totalLen := need
          status := .complete }, st)
  else
    let after := buf.drop r.head.headerLen
    let more := st.dec.isDone = false ∧ st.fed < after.length
    let (dec, out) := if more then st.dec.feed (after.drop st.fed) else (st.dec, [])
    let st := { st with dec := dec, body := st.body ++ out }
    if more ∧ dec.failed then ({ r with status := .error }, st)
    else
      let st := if more then { st with fed := dec.consumed } else st
      if kMaxBodyLen < st.body.length then ({ r with status := .error }, st)
      else if st.dec.isDone = false then (r, st)
      else
        ({ r with
            body := st.body
            totalLen := r.head.headerLen + st.dec.consumed
            status := .complete }, st)

/-- `parse_response`. -/
def parseResponse (buf : Bytes) (st : ResponseDecoder) (headRequest : Bool) :
    ParsedResponse × ResponseDecoder :=
  match parseResponseHead buf {} headRequest with
  | (.needMore, head) => ({ head := head }, st)
  | (.error, head) => ({ head := head, status := .error }, st)
  | (.complete, head) => frameResponseBody buf st { head := head }

/-- `ResponseFramer`, without its count of parses. -/
structure ResponseFramer where
  r : ParsedResponse := {}
  dec : ResponseDecoder := {}
  haveHead : Bool := false
  deriving DecidableEq, Repr

namespace ResponseFramer

/-- `head`. -/
def head (f : ResponseFramer) (buf : Bytes) (headRequest : Bool) :
    FrameStatus × ResponseFramer :=
  if f.haveHead then (.complete, f)
  else
    let (s, h) := parseResponseHead buf f.r.head headRequest
    (s, { f with r := { f.r with head := h }, haveHead := s = .complete })

/-- `message`. -/
def message (f : ResponseFramer) (buf : Bytes) : ParsedResponse × ResponseFramer :=
  let (r, dec) := frameResponseBody buf f.dec { head := f.r.head }
  (r, { f with dec := dec })

end ResponseFramer

end Http
end Llmbridge
