import Llmbridge.Provider.ScanUsage

/-!
# A stream's usage

`StreamUsage` of `provider/include/provider/openai.hpp` and `provider/src/openai.cpp`: the
usage of a stream that is forwarded as it is, fed each read once.  A name, a key or an
object may be cut anywhere, so bytes of earlier reads are kept.
-/

namespace Llmbridge
namespace OpenAi

open Rfc8259
open JsonScan

/-! ## Search calls -/

/-- `kItem`. -/
def kItem : Bytes := ascii "_search_call\""

/-- `kEvent`. -/
def kEvent : Bytes := ascii "_search_call.completed\""

/-- A call named in some bytes: where its name begins and ends, and whether it is a web
search. -/
structure SearchCall where
  start : Nat
  stop : Nat
  web : Bool
  deriving DecidableEq, Repr

/-- The call whose name ends in the `lit` found at `found`. -/
def searchCallAt (bytes lit web file : Bytes) (found : Nat) : Option SearchCall :=
  let head := bytes.take found
  if web.isSuffixOf head then some ⟨found - web.length, found + lit.length, true⟩
  else if file.isSuffixOf head then some ⟨found - file.length, found + lit.length, false⟩
  else none

/-- The loop of `each_search_call`. -/
def searchCallLoop (bytes lit web file : Bytes) : (fuel start : Nat) → List SearchCall
  | 0, _ => []
  | fuel + 1, start =>
      match memmem bytes lit start with
      | none => []
      | some found =>
          (searchCallAt bytes lit web file found).toList ++
            searchCallLoop bytes lit web file fuel (found + 1)

/-- `each_search_call`: the calls named in `bytes`, one search for both tools. -/
def eachSearchCall (bytes : Bytes) (events : Bool) : List SearchCall :=
  if events then
    searchCallLoop bytes kEvent (ascii "\"response.web") (ascii "\"response.file")
      (bytes.length + 1) 0
  else searchCallLoop bytes kItem (ascii "\"web") (ascii "\"file") (bytes.length + 1) 0

/-- `add_call`. -/
def addCall (u : Usage) (web : Bool) : Usage :=
  if web then { u with webSearch := atLeastZero u.webSearch + 1 }
  else { u with fileSearch := atLeastZero u.fileSearch + 1 }

/-- `count_search_calls`. -/
def countSearchCalls (bytes : Bytes) (events : Bool) (u : Usage) : Usage :=
  (eachSearchCall bytes events).foldl (fun u call => addCall u call.web) u

/-! ## Refusal triggers -/

/-- `RefusalTriggers::kMax`. -/
def kMaxTriggers : Nat := 8

/-- `RefusalTriggers`: how many were noted, and which of the first are billed. -/
structure RefusalTriggers where
  n : Nat := 0
  billed : List Bool := List.replicate 8 false
  n_le : n ≤ 255 := by decide
  size : billed.length = 8 := by decide
  deriving DecidableEq, Repr

/-- `refusal_billed`. -/
def refusalBilled (category : Bytes) : Bool :=
  category = ascii "bio" ∨ category = ascii "frontier_llm" ∨
    category = ascii "reasoning_extraction"

/-- `kTrigger`. -/
def kTrigger : Bytes := ascii "\"trigger\""

/-- What a trigger object states. -/
structure TriggerMembers where
  type : Bytes := []
  category : Bytes := []
  hasCategory : Bool := false
  deriving DecidableEq, Repr

/-- One member of a trigger object; a null category reads empty, as not billed. -/
def TriggerMembers.member (t : TriggerMembers) (k raw : Bytes) : TriggerMembers :=
  if k = ascii "type" then { t with type := plainString raw }
  else if k = ascii "category" then
    { t with hasCategory := true, category := plainString raw }
  else t

/-- A trigger: where its key begins, where its object ends and whether it is billed. -/
structure Trigger where
  start : Nat
  stop : Nat
  billed : Bool
  deriving DecidableEq, Repr

/-- The trigger an object under the key is, when it is a refusal's. -/
def triggerOf (start stop : Nat) (object : Bytes) : Option Trigger :=
  let t := (forEachMember (fun (t : TriggerMembers) k raw => (t.member k raw, true)) object {}).2
  if t.type = ascii "refusal" ∧ t.hasCategory then
    some ⟨start, stop, refusalBilled t.category⟩
  else none

/-- The loop of `each_trigger`. -/
def triggerLoop (s : Bytes) : (fuel start : Nat) → List Trigger
  | 0, _ => []
  | fuel + 1, start =>
      match memmem s kTrigger start with
      | none => []
      | some found =>
          match objectAt s found kTrigger.length with
          | none => triggerLoop s fuel (found + 1)
          | some (v, e) => (triggerOf found e (substr s v (e - v))).toList ++ triggerLoop s fuel e

/-- `each_trigger`: each whole trigger object of a refusal in `s`. -/
def eachTrigger (s : Bytes) : List Trigger :=
  triggerLoop s (s.length + 1) 0

/-- `add_trigger`. -/
def addTrigger (t : RefusalTriggers) (billed : Bool) : RefusalTriggers where
  n := if t.n < 255 then t.n + 1 else t.n
  billed := if t.n < kMaxTriggers then t.billed.set t.n billed else t.billed
  n_le := by
    have := t.n_le
    split <;> omega
  size := by
    split
    · rw [List.length_set, t.size]
    · exact t.size

/-- `scan_refusal_triggers`. -/
def scanRefusalTriggers (bytes : Bytes) (t : RefusalTriggers) : RefusalTriggers :=
  (eachTrigger bytes).foldl (fun t found => addTrigger t found.billed) t

/-- The category `t` names for the `index`-th declined attempt, as billed or not. -/
def RefusalTriggers.named (t : RefusalTriggers) (index : Nat) : Option Bool :=
  if index < t.n ∧ index < kMaxTriggers then t.billed[index]? else none

/-- One held attempt of `bill_declined`. -/
def billHeld (t : RefusalTriggers) (u : Usage) (h : HeldAttempt) : Usage :=
  match t.named h.index with
  | some true =>
      { u with
        priorIn := atLeastZero u.priorIn + h.input
        priorCached := atLeastZero u.priorCached + h.cached
        priorCacheWrite := atLeastZero u.priorCacheWrite + h.cacheWrite
        priorBilled := atLeastZero u.priorBilled + 1 }
  | some false => u
  | none => { u with priorUnverified := atLeastZero u.priorUnverified + 1 }

/-- `bill_declined`. -/
def billDeclined (u : Usage) (t : RefusalTriggers) : Usage :=
  { u.priorHeld.foldl (billHeld t) u with priorHeld := [] }

/-! ## The stream -/

/-- `StreamUsage`; `tail` and `trigTail` are the bytes kept in the source's arrays. -/
structure StreamUsage where
  carry : Bytes := []
  seen : Nat := 0
  u : Usage := {}
  calls : Bool := false
  tail : Bytes := []
  triggers : RefusalTriggers := {}
  trigTail : Bytes := []
  deriving DecidableEq, Repr

namespace StreamUsage

/-- `kTail`. -/
def kTail : Nat := 40

/-- `kTrigTail`. -/
def kTrigTail : Nat := 256

/-- `kLead`. -/
def kLead : Nat := 64

/-- `kMaxObject`. -/
def kMaxObject : Nat := 64 * 1024

/-- `reset`. -/
def reset (searchCalls : Bool := false) : StreamUsage :=
  { calls := searchCalls }

/-- The last bytes, at most `limit`, of those kept and a read. -/
def keepTail (limit : Nat) (tail bytes : Bytes) : Bytes :=
  if limit ≤ bytes.length then bytes.drop (bytes.length - limit)
  else
    let keep :=
      if limit < tail.length + bytes.length then limit - bytes.length else tail.length
    tail.drop (tail.length - keep) ++ bytes

/-- `count_calls`: the calls named in this read, and one whose name began before it. -/
def countCalls (s : StreamUsage) (bytes : Bytes) : StreamUsage :=
  let u := countSearchCalls bytes true s.u
  let u :=
    if s.tail.isEmpty then u
    else
      (eachSearchCall (s.tail ++ bytes.take kTail) true).foldl
        (fun u call =>
          if call.start < s.tail.length ∧ s.tail.length < call.stop then addCall u call.web
          else u) u
  { s with u := u, tail := keepTail kTail s.tail bytes }

/-- `may_start` of `note_triggers`: the kept bytes hold a trigger's key, or end inside
one. -/
def mayStart (t : Bytes) : Bool :=
  (memmem t kTrigger 0).isSome ||
    (List.range' 1 (kTrigger.length - 1)).any fun k =>
      k ≤ t.length && t.drop (t.length - k) == kTrigger.take k

/-- `note_triggers`: a trigger split across reads is read from the kept bytes and this
read's start, one wholly in this read from it. -/
def noteTriggers (s : StreamUsage) (bytes : Bytes) : StreamUsage :=
  let triggers :=
    if !s.trigTail.isEmpty && mayStart s.trigTail then
      (eachTrigger (s.trigTail ++ bytes.take kTrigTail)).foldl
        (fun t found =>
          if found.start < s.trigTail.length ∧ s.trigTail.length < found.stop then
            addTrigger t found.billed
          else t) s.triggers
    else s.triggers
  { s with
    triggers := scanRefusalTriggers bytes triggers
    trigTail := keepTail kTrigTail s.trigTail bytes }

/-- The rest of the bytes is the start of one of the two keys. -/
def keyCut (rest : Bytes) : Bool :=
  rest.length < kMetadata.length &&
    (kMetadata.take rest.length == rest || kUsage.take rest.length == rest)

/-- The loop of `feed`: the record, where the next search starts, and where what is
unfinished begins. -/
def feedLoop (s : Bytes) : (fuel start : Nat) → Usage → (next : Nat) →
    Usage × Nat × Option Nat
  | 0, _, u, next => (u, next, none)
  | fuel + 1, start, u, next =>
      match nextUsage s start with
      | none => (u, next, none)
      | some found =>
          let rest := s.drop found
          let gemini := kMetadata.isPrefixOf rest
          let len := if gemini then kMetadata.length else kUsage.length
          if keyCut rest then (u, found, some found)
          else if gemini = false ∧ rest.take len ≠ kUsage then
            feedLoop s fuel (found + 1) u next
          else
            let v := skipWs s (found + len)
            let v := if s[v]? = some 0x3a then skipWs s (v + 1) else v
            if s.length ≤ v then (u, found, some found)
            else if s[v]? ≠ some 0x7b ∨ keyValueAt s found len ≠ some v then
              feedLoop s fuel (found + 1) u next
            else
              match skipValue s v with
              | none =>
                  if kMaxObject < s.length - found then feedLoop s fuel (found + 1) u next
                  else (u, found, some found)
              | some e =>
                  feedLoop s fuel e (mergeStated u (readUsage (substr s v (e - v)) gemini))
                    (if next < e then e else next)

/-- `feed`. -/
def feed (s : StreamUsage) (bytes : Bytes) : StreamUsage :=
  let s := s.noteTriggers bytes
  let s := if s.calls then s.countCalls bytes else s
  let carry := s.carry ++ bytes
  let next := if kUsage.length ≤ carry.length then carry.length - (kUsage.length - 1) else 0
  let (u, next, keep) := feedLoop carry (carry.length + 1) s.seen s.u next
  let keep := keep.getD next
  let keep := if kLead < keep then keep - kLead else 0
  { s with carry := carry.drop keep, seen := next - keep, u := u }

/-- The stream after some reads. -/
def feedAll (s : StreamUsage) (cuts : List Bytes) : StreamUsage :=
  cuts.foldl feed s

end StreamUsage

end OpenAi
end Llmbridge
