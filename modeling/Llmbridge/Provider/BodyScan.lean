import Llmbridge.Provider.Json
import Llmbridge.Rfc8259.Places

/-!
# The resumable body scan

`BodyScan` of `provider/src/body_scan.cpp`: a JSON request body checked as its
bytes arrive.  Its fields are kept in two records, where the scan is in the
syntax and what it remembers of the top-level members; every field has the
source's name.  `SIZE_MAX` stands for "none" in the source and here.
-/

namespace Llmbridge
namespace BodyScan

open Rfc8259 (Byte Bytes ascii isWs isDigit isHex isEscape isPlain substr)

/-- `SIZE_MAX`. -/
def sizeMax : Nat := 2 ^ 64 - 1

/-- `kMaxKeys`, the limit of `top_level_facts`. -/
def kMaxKeys : Nat := 256

/-- `BodyScan::St`. -/
inductive St
  /-- A value is due: the root, after `:` or after `,` in an array. -/
  | value
  /-- After `[`: a value or `]`. -/
  | arrFirst
  /-- After `{`: a key or `}`. -/
  | objFirst
  /-- After `,` in an object: a key. -/
  | objKey
  | colon
  /-- After a member: `,` or `}`. -/
  | objNext
  /-- After an element: `,` or `]`. -/
  | arrNext
  | str
  | strEsc
  | strHex
  | numSign
  | numZero
  | numInt
  | numDot
  | numFrac
  | numE
  | numESign
  | numExp
  | lit
  | «end»
  deriving DecidableEq, Repr

/-- `BodyScan::Verdict`. -/
inductive Verdict
  | more
  | done
  | refused
  deriving DecidableEq, Repr

/-- `BodyScan::Span`: a key's place in the body, in 32 bits each. -/
structure Span where
  «at» : Nat
  len : Nat
  deriving DecidableEq, Repr

/-- `BodyScan::Member`: a member the mask names, from the separator before it
through its value. -/
structure Member where
  «at» : Nat
  valueAt : Nat
  «end» : Nat
  bit : UInt8
  deriving DecidableEq, Repr

/-- Where the scan is in the syntax. -/
structure Syn where
  st : St := .value
  depth : Nat := 0
  /-- Bit `d`: the container at depth `d + 1` is an object. -/
  kinds : BitVec 64 := 0
  /-- A literal's number in the upper bits and its bytes seen in the lower
  three. -/
  lit : Nat := 0
  hex : Nat := 0
  key : Bool := false
  deriving DecidableEq, Repr

/-- What the scan remembers of the members. -/
structure Marks where
  /-- Keys of the root object. -/
  top : List Span := []
  /-- Keys of `stream_options`. -/
  options : List Span := []
  hold : Nat := sizeMax
  str : Nat := 0
  modelAt : Nat := sizeMax
  modelEnd : Nat := sizeMax
  openAt : Nat := sizeMax
  memberAt : Nat := 0
  memberValue : Nat := 0
  /-- `_found` up to `_nfound`. -/
  found : List Member := []
  members : UInt8 := 0
  membersSeen : UInt8 := 0
  memberBit : UInt8 := 0
  hasMember : Bool := false
  memberNext : Bool := false
  memberOpen : Bool := false
  optionsDepth : Nat := 0
  tracked : Bool := false
  optionsNext : Bool := false
  allKeys : Bool := true
  trackModel : Bool := false
  modelNext : Bool := false
  modelOpen : Bool := false
  modelSeen : Bool := false
  why : Option String := none
  deriving DecidableEq, Repr

/-- What a step changes. -/
structure Scan where
  syn : Syn := {}
  marks : Marks := {}
  deriving DecidableEq, Repr

end BodyScan

/-- `BodyScan`. -/
structure BodyScan extends BodyScan.Scan where
  pos : Nat := 0
  verdict : BodyScan.Verdict := .more
  deriving DecidableEq, Repr

namespace BodyScan

open Rfc8259 (Byte Bytes ascii isWs isDigit isHex isEscape isPlain substr)

/-- `member_bit`. -/
def memberBit (k : Bytes) : UInt8 :=
  if k = ascii "service_tier" then 1
  else if k = ascii "speed" then 2
  else if k = ascii "inference_geo" then 4
  else 0

/-- `reset`. -/
def reset (allKeys trackModel : Bool) (members : UInt8 := 0) : BodyScan :=
  { marks := { allKeys := allKeys, trackModel := trackModel, members := members } }

/-! ## The members -/

namespace Marks

/-- What `value_done` does for the members: a value ended before `stop`, with
`depth` containers open around it. -/
def valueDone (m : Marks) (depth stop : Nat) : Marks :=
  let m :=
    -- The tracked model closed: its bytes may go, or others in their place.
    if m.modelOpen ∧ depth = 1 then
      { m with modelOpen := false, modelEnd := stop, hold := sizeMax }
    else m
  let m :=
    if m.memberOpen ∧ depth = 1 then
      { m with
        memberOpen := false
        found := m.found ++ [⟨m.memberAt, m.memberValue, stop, m.memberBit⟩]
        hold := sizeMax }
    else m
  if depth = 0 ∧ m.members ≠ 0 then { m with hold := sizeMax } else m

/-- A refusal with its reason. -/
def because (m : Marks) (why : String) : Bool × Marks :=
  (false, { m with why := some why })

/-- What `key_done` holds back: with a mask, a top-level member it names is held
until its value closes, any other key only until now. -/
def keyHold (m : Marks) (depth : Nat) (k : Bytes) : Bool × Marks :=
  if depth = 1 ∧ m.members ≠ 0 then
    let m := { m with hasMember := true }
    let bit := BodyScan.memberBit k &&& m.members
    if bit ≠ 0 then
      if m.membersSeen &&& bit ≠ 0 then m.because "repeated top-level key"
      else
        (true, { m with
          membersSeen := m.membersSeen ||| bit
          memberBit := bit
          memberAt := m.hold
          memberNext := true })
    else (true, { m with hold := sizeMax })
  else (true, { m with hold := sizeMax })

/-- The top-level `model`, which may not repeat. -/
def keyModel (m : Marks) (depth : Nat) (k : Bytes) : Bool × Marks :=
  if depth = 1 ∧ k = ascii "model" then
    if m.modelSeen then m.because "repeated top-level key"
    else (true, { m with modelSeen := true, modelNext := m.trackModel })
  else (true, m)

/-- A key whose stored span holds these bytes. -/
def spanMatches (body : Bytes) (k : Bytes) (span : Span) : Bool :=
  span.len == k.length && substr body span.«at» k.length == k

/-- The table of keys, with `all_keys`. -/
def keyTable (m : Marks) (body : Bytes) (depth : Nat) (k : Bytes) :
    Bool × Marks :=
  if m.allKeys then
    let set := if depth = 1 then m.top else m.options
    if set.length = kMaxKeys then m.because "too many top-level keys"
    else if set.any (spanMatches body k) then m.because "repeated top-level key"
    else
      let set := set ++ [⟨m.str % 2 ^ 32, k.length % 2 ^ 32⟩]
      if depth = 1 then
        (true, { m with
          top := set, optionsNext := k = ascii "stream_options" })
      else (true, { m with options := set })
  else (true, m)

/-- `key_done`: a key at a checked level closed at `stop`. -/
def keyDone (m : Marks) (body : Bytes) (depth stop : Nat) : Bool × Marks :=
  if m.tracked = false then (true, m)
  else
    let k := substr body m.str (stop - m.str)
    if k.contains 0x5c then m.because "escaped top-level key"
    else
      match m.keyHold depth k with
      | (false, m) => (false, m)
      | (true, m) =>
          match m.keyModel depth k with
          | (false, m) => (false, m)
          | (true, m) => m.keyTable body depth k

/-- A key's opening quote at `«at»`. -/
def keyStart (m : Marks) (depth «at» : Nat) : Marks :=
  let tracked := depth = 1 ∨ (m.optionsDepth ≠ 0 ∧ depth = m.optionsDepth)
  { m with
    tracked := tracked
    hold := if tracked then min m.hold «at» else m.hold
    str := «at» + 1 }

/-- A comma in an object: held, with a mask, with the member after it. -/
def comma (m : Marks) (depth «at» : Nat) : Marks :=
  if m.members ≠ 0 ∧ depth = 1 then { m with hold := «at» } else m

/-- A value starts at `«at»` with `c`: what is told of it before its kind is
looked at. -/
def valueStart (m : Marks) (depth «at» : Nat) (c : Byte) : Bool × Marks :=
  let m := { m with optionsNext := false }
  let m :=
    if m.modelNext then
      { m with modelNext := false, modelOpen := true, modelAt := «at», hold := «at» }
    else m
  if m.members ≠ 0 then
    if depth = 0 ∧ c ≠ 0x7b then m.because "body is not a JSON object"
    else if m.memberNext then
      let m := { m with memberNext := false }
      if c ≠ 0x22 then m.because "top-level override value not a string"
      else (true, { m with memberOpen := true, memberValue := «at» })
    else (true, m)
  else (true, m)

/-- A container opened, `depth` counting it; `stop` is the byte after its
bracket and `options` says that the value is the one of `stream_options`. -/
def opened (m : Marks) (depth stop : Nat) (isObject options : Bool) : Marks :=
  let m :=
    if m.members ≠ 0 ∧ depth = 1 then { m with openAt := stop, hold := stop }
    else m
  if isObject ∧ options ∧ depth = 2 then { m with optionsDepth := 2 } else m

/-- A container closed, `depth` being left open. -/
def closed (m : Marks) (depth : Nat) : Marks :=
  if depth < m.optionsDepth then { m with optionsDepth := 0 } else m

end Marks

/-! ## One step -/

namespace Scan

/-- `value_done`. -/
def valueDone (s : Scan) (stop : Nat) : Scan :=
  { s with
    marks := s.marks.valueDone s.syn.depth stop
    syn := { s.syn with
      st := if s.syn.depth = 0 then .end
        else if s.syn.kinds.getLsbD (s.syn.depth - 1) then .objNext
        else .arrNext } }

/-- `key_done`, the scan being at the colon from here on. -/
def keyDone (s : Scan) (body : Bytes) (stop : Nat) : Bool × Scan :=
  let (ok, marks) := s.marks.keyDone body s.syn.depth stop
  (ok, { s with marks := marks, syn := { s.syn with key := false } })

/-- The scan at another place. -/
def goto (s : Scan) (st : St) : Scan :=
  { s with syn := { s.syn with st := st } }

/-- A refusal with its reason. -/
def because (s : Scan) (why : String) : Bool × Scan :=
  (false, { s with marks := (s.marks.because why).2 })

/-- The run of `St::Str`: from `i` over plain bytes and two-byte escapes, to
where it stops.  `string_stop` is walked a byte at a time; none when an escape
is bad. -/
def stringRun : Bytes → Nat → Option (Nat × Bytes)
  | [], i => some (i, [])
  | c :: rest, i =>
      if isPlain c then stringRun rest (i + 1)
      else if c = 0x5c then
        match rest with
        | [] => some (i, [c])
        | e :: more =>
            if e = 0x75 then some (i, c :: rest)
            else if isEscape e then stringRun more (i + 2)
            else none
      else some (i, c :: rest)

/-- The byte `d` at `i` that stops a run. -/
def stringStop (s : Scan) (body : Bytes) (i : Nat) (d : Byte) :
    Bool × Scan :=
  if d = 0x5c then (true, s.goto .strEsc)
  else if d ≠ 0x22 then s.because "control byte in a string"
  else if s.syn.key = false then (true, s.valueDone (i + 1))
  else (s.goto .colon).keyDone body i

/-- `kLits`. -/
def kLits (n : Nat) : Bytes :=
  if n = 0 then ascii "true" else if n = 1 then ascii "false" else ascii "null"

/-- A value starts at `i` with `c`. -/
def startValue (s : Scan) (i : Nat) (c : Byte) : Bool × Scan :=
  let options := s.marks.optionsNext
  match s.marks.valueStart s.syn.depth i c with
  | (false, marks) => (false, { s with marks := marks })
  | (true, marks) =>
      let s := { s with marks := marks }
      if c = 0x22 then (true, { s with syn := { s.syn with key := false, st := .str } })
      else if c = 0x7b ∨ c = 0x5b then
        if s.syn.depth = Json.kMaxDepth then s.because "body nests too deep"
        else
          let bit := 1#64 <<< s.syn.depth
          (true, { s with
            marks := s.marks.opened (s.syn.depth + 1) (i + 1) (c = 0x7b) options
            syn := { s.syn with
              kinds := if c = 0x7b then s.syn.kinds ||| bit else s.syn.kinds &&& ~~~bit
              depth := s.syn.depth + 1
              st := if c = 0x7b then .objFirst else .arrFirst } })
      else if c = 0x74 ∨ c = 0x66 ∨ c = 0x6e then
        let n := if c = 0x74 then 0 else if c = 0x66 then 1 else 2
        (true, { s with syn := { s.syn with lit := n <<< 3 ||| 1, st := .lit } })
      else if c = 0x2d then (true, s.goto .numSign)
      else if c = 0x30 then (true, s.goto .numZero)
      else if isDigit c then (true, s.goto .numInt)
      else (false, s)

/-- A key opens at `i`, if `c` is a quote. -/
def startKey (s : Scan) (i : Nat) (c : Byte) : Bool × Scan :=
  if c ≠ 0x22 then (false, s)
  else
    (true, { s with
      marks := s.marks.keyStart s.syn.depth i
      syn := { s.syn with key := true, st := .str } })

/-- A container closes at `i`. -/
def closeContainer (s : Scan) (i : Nat) : Scan :=
  valueDone
    { s with
      marks := s.marks.closed (s.syn.depth - 1)
      syn := { s.syn with depth := s.syn.depth - 1 } } (i + 1)

/-- The second switch of `step`: a byte between tokens that is not
whitespace. -/
def stepMark (s : Scan) (i : Nat) (c : Byte) : Bool × Scan :=
  match s.syn.st with
  | .colon => (c = 0x3a, s.goto .value)
  | .objFirst =>
      if c = 0x7d then (true, s.closeContainer i) else s.startKey i c
  | .objKey => s.startKey i c
  | .objNext =>
      if c = 0x2c then
        (true, { s with
          marks := s.marks.comma s.syn.depth i, syn := { s.syn with st := .objKey } })
      else if c ≠ 0x7d then (false, s)
      else (true, s.closeContainer i)
  | .arrNext =>
      if c = 0x2c then (true, s.goto .value)
      else if c ≠ 0x5d then (false, s)
      else (true, s.closeContainer i)
  | .arrFirst =>
      if c = 0x5d then (true, s.closeContainer i) else s.startValue i c
  | .value => s.startValue i c
  | _ => s.because "content after the body"

/-- A byte between tokens. -/
def stepBetween (s : Scan) (i : Nat) (c : Byte) : Bool × Scan :=
  if isWs c then (true, s) else s.stepMark i c

/-- The outcome of a byte that was taken. -/
def taken (i : Nat) (r : Bool × Scan) : Bool × Scan × Nat :=
  (r.1, r.2, i + 1)

/-- The first switch of `step`, `St::Str` apart, and what follows it.  A number
that ended leaves `i` on the byte after it. -/
def stepByte (s : Scan) (i : Nat) (c : Byte) : Bool × Scan × Nat :=
  match s.syn.st with
  | .strEsc =>
      if c = 0x75 then
        taken i (true, { s with syn := { s.syn with st := .strHex, hex := 0 } })
      else taken i (isEscape c, s.goto .str)
  | .strHex =>
      let hex := s.syn.hex + 1
      taken i (isHex c, { s with
        syn := { s.syn with hex := hex, st := if hex = 4 then .str else .strHex } })
  | .lit =>
      let lit := kLits (s.syn.lit >>> 3)
      if lit[s.syn.lit &&& 7]? ≠ some c then (false, s, i)
      else
        let s := { s with syn := { s.syn with lit := s.syn.lit + 1 } }
        if s.syn.lit &&& 7 = lit.length then taken i (true, s.valueDone (i + 1))
        else taken i (true, s)
  | .numSign =>
      taken i (isDigit c, s.goto (if c = 0x30 then .numZero else .numInt))
  | .numZero =>
      if isDigit c then taken i (false, s)
      else if c = 0x2e then taken i (true, s.goto .numDot)
      else if c = 0x65 ∨ c = 0x45 then taken i (true, s.goto .numE)
      else (true, s.valueDone i, i)
  | .numInt =>
      if isDigit c then taken i (true, s)
      else if c = 0x2e then taken i (true, s.goto .numDot)
      else if c = 0x65 ∨ c = 0x45 then taken i (true, s.goto .numE)
      else (true, s.valueDone i, i)
  | .numDot => taken i (isDigit c, s.goto .numFrac)
  | .numFrac =>
      if isDigit c then taken i (true, s)
      else if c = 0x65 ∨ c = 0x45 then taken i (true, s.goto .numE)
      else (true, s.valueDone i, i)
  | .numE =>
      if c = 0x2b ∨ c = 0x2d then taken i (true, s.goto .numESign)
      else taken i (isDigit c, s.goto .numExp)
  | .numESign => taken i (isDigit c, s.goto .numExp)
  | .numExp =>
      if isDigit c then taken i (true, s) else (true, s.valueDone i, i)
  | _ => taken i (s.stepBetween i c)

/-- `step`: one byte, or a run of plain string bytes. -/
def step (s : Scan) (b : Bytes) (i : Nat) : Bool × Scan × Nat :=
  match s.syn.st, b.drop i with
  | .str, rest =>
      match stringRun rest i with
      | none => (false, s, i)
      | some (i, []) => (true, s, i)
      | some (i, d :: _) => taken i (s.stringStop b i d)
  | _, [] => (true, s, i)
  | _, c :: _ => s.stepByte i c

end Scan

/-! ## Feeding -/

/-- `refuse`. -/
def refuse (s : BodyScan) (why : String) : BodyScan :=
  { s with verdict := .refused, marks := { s.marks with why := some why } }

/-- The loop of `feed`.  Every byte takes at most two steps. -/
def feedLoop (b : Bytes) : Nat → Scan → Nat → Bool × Scan × Nat
  | 0, s, i => (true, s, i)
  | fuel + 1, s, i =>
      if i < b.length then
        match s.step b i with
        | (false, s, i) => (false, s, i)
        | (true, s, i) => feedLoop b fuel s i
      else (true, s, i)

/-- A number at the root ends with the body. -/
def endsNumber (s : Scan) : Scan :=
  if s.syn.depth = 0 ∧ (s.syn.st = .numZero ∨ s.syn.st = .numInt ∨
      s.syn.st = .numFrac ∨ s.syn.st = .numExp) then s.goto .end
  else s

/-- The end of the body. -/
def finish (s : BodyScan) : BodyScan :=
  let s := { s with toScan := endsNumber s.toScan }
  if s.syn.st = .end then { s with verdict := .done }
  else s.refuse "body ends inside a value"

/-- `feed`: `body` holds every byte so far, and `last` says nothing follows. -/
def feed (s : BodyScan) (body : Bytes) (last : Bool) : BodyScan :=
  if s.verdict ≠ .more then s
  else
    match feedLoop body (2 * body.length) s.toScan s.pos with
    | (false, scan, _) =>
        { s with toScan := scan }.refuse
          (scan.marks.why.getD "body is not valid JSON")
    | (true, scan, i) =>
        let s := { s with toScan := scan, pos := i }
        if last then s.finish else s

/-- `safe`: the prefix of the body that may be forwarded. -/
def safe (s : BodyScan) : Nat :=
  if s.marks.hold < s.pos then s.marks.hold else s.pos

end BodyScan
end Llmbridge
