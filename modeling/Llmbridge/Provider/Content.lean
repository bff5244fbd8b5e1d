import Llmbridge.Provider.Json

/-!
# Message content

`provider/src/content.hpp` and `provider/src/messages.hpp`: an OpenAI `content`
field carried into a provider's body, and the walk over `messages` that every
request translator shares.  What the source appends to its output is what a
definition returns here, `none` standing for false.
-/

namespace Llmbridge
namespace Translate

open Rfc8259 (Byte Bytes ascii quoted)
open Json (Value View)

/-- `part_cache_control`: the part's breakpoint, empty when it has none. -/
def partCacheControl (part : Value) : Option Bytes :=
  match part.find (ascii "cache_control") with
  | none => some []
  | some cc => if cc.type = .object then some cc.sv.bytes else none

/-- The text of a part. -/
def partText (part : Value) : Bytes :=
  (part.strOr (ascii "text")).bytes

/-- The loop of `content_cache_state`. -/
def cacheStateLoop : List Value → (any : Bool) → Option Bool
  | [], any => some any
  | part :: rest, any =>
      match partCacheControl part with
      | none => none
      | some cc =>
          cacheStateLoop rest (any || (!cc.isEmpty && !(partText part).isEmpty))

/-- `content_cache_state`: whether a part with text carries a breakpoint. -/
def contentCacheState : Option Value → Option Bool
  | none => some false
  | some c => if c.type = .array then cacheStateLoop c.arr false else some false

/-- The loop of `append_text` over the parts of an array. -/
def appendParts : List Value → Option Bytes
  | [] => some []
  | part :: rest =>
      if (part.strOr (ascii "type")).bytes = ascii "text" then
        (appendParts rest).map fun text => partText part ++ text
      else none

/-- `append_text`. -/
def appendText : Option Value → Option Bytes
  | none => some []
  | some c =>
      if c.type = .string then some c.sv.bytes
      else if c.type = .array then appendParts c.arr
      else some []

/-- One block of the form `append_content` gives a cached content. -/
def textBlock (part : Value) : Bytes :=
  ascii "\x7b\"type\":\"text\",\"text\":" ++ quoted (partText part) ++
    (match partCacheControl part with
      | none => []
      | some cc => if cc.isEmpty then [] else ascii ",\"cache_control\":" ++ cc) ++
    ascii "\x7d"

/-- The loop of `append_content` over the parts of a cached content. -/
def contentBlocks : List Value → (first : Bool) → Option Bytes
  | [], _ => some []
  | part :: rest, first =>
      if (part.strOr (ascii "type")).bytes ≠ ascii "text" then none
      else if (partText part).isEmpty then contentBlocks rest first
      else
        (contentBlocks rest false).map fun blocks =>
          (if first then [] else ascii ",") ++ textBlock part ++ blocks

/-- `append_content`. -/
def appendContent (c : Option Value) : Option Bytes :=
  match contentCacheState c with
  | none => none
  | some false => (appendText c).map quoted
  | some true =>
      (contentBlocks (c.elim [] Value.arr) true).map fun blocks =>
        ascii "[" ++ blocks ++ ascii "]"

/-! ## The walk over the messages -/

/-- `is_system_role`. -/
def isSystemRole (role : Bytes) : Bool :=
  role = ascii "system" ∨ role = ascii "developer"

/-- The calls of `walk_messages` on a dialect's turns; a dialect may have none for
tool calls and for tool results. -/
structure Hooks (σ : Type) where
  system : σ → Option Value → Option σ
  turn : σ → (assistant : Bool) → Option Value → Option σ
  toolCalls : Option (σ → Option Value → Value → Option σ) := none
  toolResult : Option (σ → Value → Option Value → Option σ) := none

section Walk

variable {σ : Type} (h : Hooks σ)

/-- The call for one message. -/
def walkMessage (s : σ) (m : Value) : Option σ :=
  let role := (m.strOr (ascii "role")).bytes
  let content := m.find (ascii "content")
  if isSystemRole role then h.system s content
  else if role = ascii "user" then h.turn s false content
  else if role = ascii "assistant" then
    match m.find (ascii "tool_calls") with
    | some calls =>
        if calls.type = .array ∧ calls.arr ≠ [] then
          h.toolCalls.bind fun call => call s content calls
        else h.turn s true content
    | none => h.turn s true content
  else if role = ascii "tool" then h.toolResult.bind fun call => call s m content
  else none

/-- `walk_messages`. -/
def walkMessages : σ → List Value → Option σ
  | s, [] => some s
  | s, m :: rest =>
      match walkMessage h s m with
      | none => none
      | some s => walkMessages s rest

end Walk

/-- `declares_tools`. -/
def declaresTools (body : Value) : Bool :=
  match body.find (ascii "tools") with
  | none => false
  | some t => t.type ≠ .null ∧ ¬ (t.type = .array ∧ t.arr = [])

/-- `max_tokens_of`. -/
def maxTokensOf (body : Value) (default : Bytes := []) : Bytes :=
  let n := (body.numOr (ascii "max_completion_tokens")).bytes
  if n.isEmpty then (body.numOr (ascii "max_tokens") ⟨0, default⟩).bytes else n

end Translate
end Llmbridge
