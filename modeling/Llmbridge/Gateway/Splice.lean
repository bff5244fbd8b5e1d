import Llmbridge.Provider.BodyScan
import Llmbridge.Provider.Overrides

/-!
# What a streamed body carries spliced in

`gateway/src/splice.cpp` and `ModelSplice` of `gateway/src/request.cpp`: a model
substitution and the members of the policy, written over the spans that the scan
of the body tells, one range of the body at a time.
-/

namespace Llmbridge
namespace Gateway

open Rfc8259 (Byte Bytes ascii substr)

/-- Spaces. -/
def spaces (n : Nat) : Bytes :=
  List.replicate n 0x20

/-- `body.substr(i, j - i)`. -/
def range (body : Bytes) (i j : Nat) : Bytes :=
  substr body i (j - i)

/-! ## The model -/

/-- `ModelSplice`: a conditional model substitution. -/
structure ModelSplice where
  sentinel : Bytes := []
  replacement : Bytes := []
  deriving DecidableEq, Repr

namespace ModelSplice

/-- `grow`. -/
def grow (s : ModelSplice) : Nat :=
  if s.replacement.length > s.sentinel.length then
    s.replacement.length - s.sentinel.length
  else 0

/-- `shrink`. -/
def shrink (s : ModelSplice) : Nat :=
  if s.sentinel.length > s.replacement.length then
    s.sentinel.length - s.replacement.length
  else 0

/-- `matches`: the value from `«at»` up to `stop` is the sentinel between
quotes. -/
def «matches» (s : ModelSplice) (body : Bytes) («at» stop : Nat) : Bool :=
  stop ≠ BodyScan.sizeMax && stop - «at» == s.sentinel.length + 2 &&
    stop ≤ body.length && body[«at»]? == some 0x22 &&
    substr body («at» + 1) s.sentinel.length == s.sentinel &&
    body[stop - 1]? == some 0x22

/-- What goes for the sentinel. -/
def substituted (s : ModelSplice) : Bytes :=
  0x22 :: (s.replacement ++ 0x22 :: spaces s.shrink)

/-- `append`: what is written for the bytes from `i` up to `j` of a body
`bodyLen` long whose model value is from `«at»` up to `stop`. -/
def append (s : ModelSplice) (body : Bytes) (i j bodyLen «at» stop : Nat) : Bytes :=
  let hit := s.matches body «at» stop
  (if hit ∧ i ≤ «at» ∧ «at» < j then
    range body i «at» ++ s.substituted ++ (if stop < j then range body stop j else [])
  else if i < j then range body i j else []) ++
    (if j = bodyLen ∧ ¬ hit then spaces s.grow else [])

end ModelSplice

/-! ## The members -/

/-- `MemberSplice`: the members that go in behind the root's brace; empty: not
set. -/
structure MemberSplice where
  serviceTier : Bytes := []
  speed : Bytes := []
  inferenceGeo : Bytes := []
  deriving DecidableEq, Repr

namespace MemberSplice

/-- `kMemberKeys` with their values. -/
def values (s : MemberSplice) : List (Bytes × Bytes) :=
  [(ascii "service_tier", s.serviceTier), (ascii "speed", s.speed),
    (ascii "inference_geo", s.inferenceGeo)]

/-- The members that are set. -/
def set (s : MemberSplice) : List (Bytes × Bytes) :=
  s.values.filter fun member => !member.2.isEmpty

/-- `mask`: `BodyScan`'s bits for the members set. -/
def mask (s : MemberSplice) : UInt8 :=
  (if s.serviceTier.isEmpty then 0 else 1) ||| (if s.speed.isEmpty then 0 else 2) |||
    (if s.inferenceGeo.isEmpty then 0 else 4)

/-- `grow`: the members and their separator. -/
def grow (s : MemberSplice) : Nat :=
  (s.set.map fun member => member.1.length + member.2.length + 6).sum

/-- A member as it is written. -/
def member (m : Bytes × Bytes) : Bytes :=
  0x22 :: (m.1 ++ (ascii "\":\"" ++ (m.2 ++ [0x22])))

/-- The loop of `append_members`. -/
def appendSet : Bool → List (Bytes × Bytes) → Bytes
  | _, [] => []
  | first, m :: rest =>
      (if first then [] else [0x2c]) ++ (member m ++ appendSet false rest)

/-- `append_members`. -/
def appendMembers (s : MemberSplice) : Bytes :=
  appendSet true s.set

/-- `plain`: every value goes between quotes as it is. -/
def plain (s : MemberSplice) : Bool :=
  [s.serviceTier, s.speed, s.inferenceGeo].all Translate.quotable

end MemberSplice

/-! ## Both -/

/-- `Splice`. -/
structure Splice where
  model : ModelSplice := {}
  members : MemberSplice := {}
  deriving DecidableEq, Repr

/-- A span that goes replaced: the model's value, or a member of the client's
that ours replace. -/
structure Cut where
  «at» : Nat
  «end» : Nat
  model : Bool
  deriving DecidableEq, Repr

namespace Splice

/-- `grow`. -/
def grow (s : Splice) : Nat :=
  s.model.grow + s.members.grow

/-- `substitutes`: the body's model was the sentinel and goes replaced. -/
def substitutes (s : Splice) (body : Bytes) (scan : BodyScan) : Bool :=
  !s.model.sentinel.isEmpty &&
    s.model.matches body scan.marks.modelAt scan.marks.modelEnd

/-- The client's members that ours replace.  One tracked for another attempt goes
as it was sent. -/
def memberCuts (s : Splice) (scan : BodyScan) : List Cut :=
  (scan.marks.found.filter fun m => m.bit &&& s.members.mask ≠ 0).map
    fun m => (⟨m.at, m.end, false⟩ : Cut)

/-- The cuts in ascending order. -/
def cuts (s : Splice) (body : Bytes) (scan : BodyScan) : List Cut :=
  let model := if s.substitutes body scan then
    [(⟨scan.marks.modelAt, scan.marks.modelEnd, true⟩ : Cut)] else []
  (s.memberCuts scan ++ model).insertionSort fun c d => c.at ≤ d.at

/-- What goes for a cut. -/
def replaced (s : Splice) (c : Cut) : Bytes :=
  if c.model then s.model.substituted else spaces (c.end - c.at)

/-- The loop of `append` over the cuts, `pos` being how far the body went. -/
def appendCuts (s : Splice) (body : Bytes) (j : Nat) : List Cut → Nat → Bytes
  | [], pos => if pos < j then range body pos j else []
  | c :: rest, pos =>
      if c.at < pos ∨ j ≤ c.at then s.appendCuts body j rest pos
      else range body pos c.at ++ (s.replaced c ++ s.appendCuts body j rest c.end)

/-- `append`: what is written for the bytes from `i` up to `j` of a body
`bodyLen` long, with the spans that `scan` tells. -/
def append (s : Splice) (body : Bytes) (i j bodyLen : Nat) (scan : BodyScan) :
    Bytes :=
  if s.members.mask = 0 then
    if s.model.sentinel.isEmpty then range body i j
    else s.model.append body i j bodyLen scan.marks.modelAt scan.marks.modelEnd
  else
    let openAt := scan.marks.openAt
    -- The root's first member is one of those that go.
    let firstCut := (s.memberCuts scan).any fun c => c.at = openAt
    let cuts := s.cuts body scan
    (if openAt ≥ i ∧ openAt < j then
      range body i openAt ++ (s.members.appendMembers ++
        ((if scan.marks.hasMember && !firstCut then [0x2c] else [0x20]) ++
          s.appendCuts body j cuts openAt))
    else s.appendCuts body j cuts i) ++
    (if j = bodyLen ∧ ¬ s.model.sentinel.isEmpty ∧ ¬ s.substitutes body scan then
      spaces s.model.grow else [])

/-- A body that arrives in prefixes of these lengths and then whole: what each
feed makes safe is written, the first `sent` bytes being out. -/
def stream (s : Splice) (body : Bytes) : BodyScan → Nat → List Nat → Bytes
  | scan, sent, [] =>
      let scan := scan.feed body true
      s.append body sent scan.safe body.length scan
  | scan, sent, n :: cuts =>
      let scan := scan.feed (body.take n) false
      s.append (body.take n) sent scan.safe body.length scan ++
        s.stream body scan scan.safe cuts

end Splice

end Gateway
end Llmbridge
