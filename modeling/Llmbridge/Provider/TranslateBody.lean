import Llmbridge.Provider.Json
import Llmbridge.Provider.JsonScan

/-!
# Reads and edits of a request body that no venue decides

`provider/src/translate_body.cpp`: the walk of the top level behind the
gateway's facts about a body.
-/

namespace Llmbridge
namespace Translate

open Rfc8259 (Byte Bytes ascii)
open JsonScan (forEachMember firstMember plainString)

/-- `KeyCheck`. -/
inductive KeyCheck
  | ok
  | duplicateKey
  | escapedKey
  | tooManyKeys
  deriving DecidableEq, Repr

/-- `KeyTally`: the keys of one object, none escaped, none repeated, at most
`kMaxKeys` of them. -/
structure KeyTally where
  keys : List Bytes := []
  verdict : KeyCheck := .ok
  deriving DecidableEq, Repr

namespace KeyTally

/-- `KeyTally::kMaxKeys`. -/
def kMaxKeys : Nat := 256

/-- `add`. -/
def add (t : KeyTally) (k : Bytes) : KeyTally :=
  if t.verdict ≠ .ok then t
  else if k.contains 0x5c then { t with verdict := .escapedKey }
  else if t.keys.length = kMaxKeys then { t with verdict := .tooManyKeys }
  else { t with keys := t.keys ++ [k] }

/-- `settled`. -/
def settled (t : KeyTally) : Bool :=
  t.verdict ≠ .ok

/-- `result`: sorted, equal keys are neighbours. -/
def result (t : KeyTally) : KeyCheck :=
  if t.verdict ≠ .ok then t.verdict
  else if Json.sortedFresh t.keys then .ok
  else .duplicateKey

end KeyTally

/-- `check_keys`. -/
def checkKeys (obj : Bytes) : KeyCheck :=
  (forEachMember (fun (t : KeyTally) k _ => (t.add k, !(t.add k).settled)) obj
    {}).2.result

/-- `TopLevelFacts`. -/
structure TopLevelFacts where
  model : Bytes := []
  stream : Bool := false
  includeUsage : Bool := false
  cacheTtl : Bytes := []
  keys : KeyCheck := .ok
  deriving DecidableEq, Repr

/-- What the walk of `top_level_facts` collects: the first value of each key it
reads, and the tally. -/
structure Walk where
  model : Option Bytes := none
  stream : Option Bytes := none
  options : Option Bytes := none
  cache : Option Bytes := none
  tally : KeyTally := {}
  deriving DecidableEq, Repr

/-- The walk at one member. -/
def Walk.member (w : Walk) (k v : Bytes) : Walk :=
  let w := { w with tally := w.tally.add k }
  if k = ascii "model" ∧ w.model = none then { w with model := some v }
  else if k = ascii "stream" ∧ w.stream = none then { w with stream := some v }
  else if k = ascii "stream_options" ∧ w.options = none then
    { w with options := some v }
  else if k = ascii "prompt_cache_options" ∧ w.cache = none then
    { w with cache := some v }
  else w

/-- `top_level_facts`. -/
def topLevelFacts (body : Bytes) : TopLevelFacts :=
  let w := (forEachMember (fun (w : Walk) k v => (w.member k v, true)) body {}).2
  let options := w.options.getD []
  let cache := w.cache.getD []
  let keys := w.tally.result
  let keys := if keys = .ok then checkKeys options else keys
  let keys := if keys = .ok then checkKeys cache else keys
  { model := plainString (w.model.getD [])
    stream := w.stream.getD [] = ascii "true"
    includeUsage := firstMember options (ascii "include_usage") = ascii "true"
    cacheTtl := plainString (firstMember cache (ascii "ttl"))
    keys := keys }

/-- `top_level_member_count`. -/
def topLevelMemberCount (body : Bytes) : Nat :=
  (forEachMember (fun (n : Nat) _ _ => (n + 1, true)) body 0).2

/-- `model_of`. -/
def modelOf (body : Bytes) : Bytes :=
  plainString (firstMember body (ascii "model"))

end Translate
end Llmbridge
