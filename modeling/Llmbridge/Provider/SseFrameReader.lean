import Llmbridge.EventStream.Events

/-!
# The frame reader of a server-sent event stream

`SseFrameReader` as the translator runs it: `feed` views one read, `next` goes on
in it until an event ends.  The view of an event's only data line is a place in
the read, so it says nothing once the read is gone.
-/

namespace Llmbridge

open Rfc8259 (Byte Bytes ascii)

/-- `SseFrameReader`. -/
structure SseFrameReader where
  /-- `_in`. -/
  input : Bytes := []
  /-- `_at`. -/
  pos : Nat := 0
  /-- An unfinished line carried to the next feed. -/
  line : Bytes := []
  /-- The event's data, when it cannot stay a view. -/
  data : Bytes := []
  /-- The event's single data line in place in `input`: where, and its size. -/
  view : Nat × Nat := (0, 0)
  viewing : Bool := false
  has : Bool := false
  lineOwned : Bool := false
  /-- A CR ended the last feed; an LF opening the next is its pair. -/
  skipLf : Bool := false
  /-- `input` holds a CR, so lines end at either byte. -/
  cr : Bool := false
  stopped : Bool := false
  failed : Bool := false
  deriving DecidableEq, Repr

namespace SseFrameReader

/-- `SseFrameReader::kMaxLine`. -/
def kMaxLine : Nat := 1048576

/-- `SseFrameReader::kMaxEvent`. -/
def kMaxEvent : Nat := 4194304

/-- `SseFrameReader::Step`, an event with its data. -/
inductive Step
  | event (data : Bytes)
  | more
  | fail
  deriving DecidableEq, Repr

/-- `fail`. -/
def fail (r : SseFrameReader) : SseFrameReader :=
  { r with failed := true, line := [], data := [] }

/-- `feed`. -/
def feed (r : SseFrameReader) (bytes : Bytes) : SseFrameReader :=
  { r with input := bytes, pos := 0, cr := bytes.contains EventStream.cr }

/-- `stop`. -/
def stop (r : SseFrameReader) : SseFrameReader :=
  { r with stopped := true }

/-- The bytes that `_view` shows. -/
def viewed (r : SseFrameReader) : Bytes :=
  (r.input.drop r.view.1).take r.view.2

/-- The data of the event being read. -/
def held (r : SseFrameReader) : Bytes :=
  if r.viewing then r.viewed else r.data

/-- `if (_viewing) { _data.assign(_view); _viewing = false; }`. -/
def own (r : SseFrameReader) : SseFrameReader :=
  if r.viewing then { r with data := r.viewed, viewing := false } else r

/-- `add_data`: `place` is where the value stands in the read, when it does. -/
def addData (r : SseFrameReader) (value : Bytes) (place : Option Nat) :
    Bool × SseFrameReader :=
  let r :=
    if !r.has then
      match place with
      | some «at» => { r with has := true, viewing := true, view := («at», value.length) }
      | none => { r with has := true, viewing := false, data := value }
    else
      let r := r.own
      { r with data := r.data ++ EventStream.lf :: value }
  (decide (r.held.length < kMaxEvent), r)

/-- `std::memchr` from `«at»` to `stop`: the byte's place, or `stop`. -/
def memchr (input : Bytes) (c : Byte) («at» stop : Nat) : Nat :=
  «at» + (((input.drop «at»).take (stop - «at»)).takeWhile fun d => d != c).length

/-- The end of the line at `_at`, or the end of the read. -/
def lineStop (r : SseFrameReader) : Nat :=
  let k := memchr r.input EventStream.lf r.pos r.input.length
  if r.cr then memchr r.input EventStream.cr r.pos k else k

/-- The end of `next` at the end of the read. -/
def pause (r : SseFrameReader) : Step × SseFrameReader :=
  if kMaxLine < r.line.length then (.fail, r.fail) else (.more, r.own)

/-- Behind the byte that ends a line: a CR takes the LF behind it, or the next
feed's. -/
def passEnd (r : SseFrameReader) (k : Nat) : SseFrameReader :=
  let r := { r with pos := k + 1 }
  if r.input[k]? = some EventStream.cr then
    if r.pos < r.input.length then
      if r.input[r.pos]? = some EventStream.lf then { r with pos := r.pos + 1 } else r
    else { r with skipLf := true }
  else r

/-- What a line is but its end: its `data` value, and where that starts in it. -/
def dataField (line : Bytes) : Option (Bytes × Nat) :=
  if line.length < 4 ∨ line.take 4 ≠ ascii "data" ∨
      (4 < line.length ∧ (line.drop 4).head? ≠ some 0x3a) then none
  else
    let start := if 4 < line.length then 5 else 4
    let value := line.drop start
    if value.head? = some 0x20 then some (value.tail, start + 1) else some (value, start)

/-- The top of the loop of `next`: the line owned goes, and the LF behind a CR of
the read before. -/
def settle (r : SseFrameReader) : SseFrameReader :=
  let r := if r.lineOwned then { r with line := [], lineOwned := false } else r
  if r.skipLf && r.pos < r.input.length then
    { r with
      pos := if r.input[r.pos]? = some EventStream.lf then r.pos + 1 else r.pos
      skipLf := false }
  else r

/-- A finished line, from what an earlier read left of it on. -/
def ownLine (r : SseFrameReader) (line : Bytes) : SseFrameReader :=
  if r.line.isEmpty then r else { r with line := r.line ++ line, lineOwned := true }

/-- A finished line that begins at `«at»`: what `next` returns at it, if it does. -/
def takeLine (r : SseFrameReader) («at» : Nat) (line : Bytes) :
    Option Step × SseFrameReader :=
  if line.isEmpty then
    if r.has then (some (.event r.held), { r with has := false }) else (none, r)
  else
    match dataField line with
    | none => (none, r)
    | some (value, start) =>
        let kept := r.addData value (if r.lineOwned then none else some («at» + start))
        if kept.1 then (none, kept.2) else (some .fail, kept.2.fail)

/-- The loop of `next`, at most `rounds` rounds of it. -/
def nextLoop : Nat → SseFrameReader → Step × SseFrameReader
  | 0, r => (.more, r)
  | rounds + 1, r =>
      let r := r.settle
      if r.input.length ≤ r.pos ∨ r.skipLf = true then r.pause
      else
        let k := r.lineStop
        let piece := (r.input.drop r.pos).take (k - r.pos)
        if k = r.input.length then { r with line := r.line ++ piece, pos := k }.pause
        else
          let q := (r.passEnd k).ownLine piece
          match q.takeLine r.pos (if q.lineOwned then q.line else piece) with
          | (some step, q) => (step, q)
          | (none, q) => nextLoop rounds q

/-- `next`: each round but the last passes a byte. -/
def next (r : SseFrameReader) : Step × SseFrameReader :=
  if r.failed then (.fail, r)
  else if r.stopped then (.more, r)
  else nextLoop (r.input.length - r.pos + 1) r

theorem own_eq (r : SseFrameReader) :
    r.own = { r with data := r.held, viewing := false } := by
  by_cases viewing : r.viewing = true
  · rw [own, if_pos viewing, held, if_pos viewing]
  · rw [own, if_neg viewing, held, if_neg viewing]
    rw [Bool.not_eq_true] at viewing
    rw [← viewing]

end SseFrameReader

end Llmbridge
