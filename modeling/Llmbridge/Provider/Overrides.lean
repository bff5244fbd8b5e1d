import Llmbridge.Provider.Json
import Llmbridge.Rfc8259.Places

/-!
# The route's body overrides

`apply_overrides` of `provider/src/translate_body.cpp`: the model and three
members of a held body set from its parse, with one pass over the body.
-/

namespace Llmbridge
namespace Translate

open Rfc8259 (Byte Bytes ascii substr isWs)

/-- Text that goes between quotes as it is: no control byte, DEL, quote or
backslash. -/
def quotable (v : Bytes) : Bool :=
  v.all fun c => ¬ (c < 0x20 ∨ c = 0x7f ∨ c = 0x22 ∨ c = 0x5c)

/-- `Overrides`; an empty one leaves its key alone. -/
structure Overrides where
  model : Bytes := []
  serviceTier : Bytes := []
  speed : Bytes := []
  inferenceGeo : Bytes := []
  deriving DecidableEq, Repr

namespace Overrides

/-- `empty`. -/
def empty (o : Overrides) : Bool :=
  o.model.isEmpty && o.serviceTier.isEmpty && o.speed.isEmpty &&
    o.inferenceGeo.isEmpty

/-- `upserts`. -/
def upserts (o : Overrides) : List (Bytes × Bytes) :=
  [(ascii "service_tier", o.serviceTier), (ascii "speed", o.speed),
    (ascii "inference_geo", o.inferenceGeo)]

end Overrides

/-- `in_body`. -/
def inBody (body : Bytes) (v : Json.View) : Bool :=
  v.at + v.bytes.length ≤ body.length

/-- An `Edit` of `apply_overrides`. -/
structure BodyEdit where
  «at» : Nat
  drop : Nat
  text : Bytes
  deriving DecidableEq, Repr

/-- What the upserts collect: the edits, the insertion that absent keys share,
and the client's own tier. -/
structure Upserts where
  edits : List BodyEdit := []
  ins : Bytes := []
  hadTier : Bytes := []
  deriving DecidableEq, Repr

/-- One key of `upserts`. -/
def upsert (body : Bytes) (v : Json.Value) (u : Upserts) (key value : Bytes) :
    Bool × Upserts :=
  if value.isEmpty then (true, u)
  else
    match v.find key with
    | some t =>
        if t.type ≠ .string ∨ inBody body t.sv = false then (false, u)
        else
          let u :=
            if key = ascii "service_tier" then { u with hadTier := t.sv.bytes }
            else u
          (true, { u with
            edits := u.edits ++ [⟨t.sv.at, t.sv.bytes.length, value⟩] })
    | none =>
        (true, { u with
          ins := u.ins ++ ((if u.ins.isEmpty then ascii "\"" else ascii ",\"") ++
            (key ++ (ascii "\":\"" ++ (value ++ ascii "\"")))) })

/-- The loop over `upserts`. -/
def upsertAll (body : Bytes) (v : Json.Value) :
    List (Bytes × Bytes) → Upserts → Bool × Upserts
  | [], u => (true, u)
  | (key, value) :: rest, u =>
      match upsert body v u key value with
      | (false, u) => (false, u)
      | (true, u) => upsertAll body v rest u

/-- `open` and the insertion with its comma; none when nothing may go in. -/
def insertion (body : Bytes) (v : Json.Value) (ins : Bytes) :
    Option (Nat × Bytes) :=
  if inBody body v.sv = false ∨ v.sv.bytes.isEmpty ∨
      v.sv.bytes.head? ≠ some 0x7b then none
  else if v.obj.any fun m => m.1.bytes.contains 0x5c then none
  else
    let «open» := v.sv.at + 1
    let probe := (body.drop «open»).dropWhile isWs
    some («open», if probe.head? ≠ some 0x7d then ins ++ [0x2c] else ins)

/-- The last loop: the edits in ascending order, `cursor` being how far the body
went. -/
def applyEdits (body : Bytes) : List BodyEdit → Nat → Bytes
  | [], cursor => body.drop cursor
  | e :: rest, cursor =>
      substr body cursor (e.at - cursor) ++
        (e.text ++ applyEdits body rest (e.at + e.drop))

/-- `apply_overrides`: whether it accepts, `*had_tier` and `out`. -/
def applyOverrides (body : Bytes) (o : Overrides) : Bool × Bytes × Bytes :=
  if o.empty then (true, [], body)
  else if ¬ [o.model, o.serviceTier, o.speed, o.inferenceGeo].all quotable then
    (false, [], [])
  else
    let (v, ok) := Json.parse body
    if ok = false ∨ v.type ≠ .object then (false, [], [])
    else
      let model : Option (List BodyEdit) :=
        if o.model.isEmpty then some []
        else
          match v.find (ascii "model") with
          | none => none
          | some m =>
              if m.type ≠ .string ∨ inBody body m.sv = false then none
              else some [⟨m.sv.at, m.sv.bytes.length, o.model⟩]
      match model with
      | none => (false, [], [])
      | some edits =>
          match upsertAll body v o.upserts { edits := edits } with
          | (false, u) => (false, u.hadTier, [])
          | (true, u) =>
              let sorted := u.edits.insertionSort fun e f => e.at ≤ f.at
              if u.ins.isEmpty then (true, u.hadTier, applyEdits body sorted 0)
              else
                match insertion body v u.ins with
                | none => (false, u.hadTier, [])
                | some («open», ins) =>
                    (true, u.hadTier,
                      body.take «open» ++ (ins ++ applyEdits body sorted «open»))

example :
    applyOverrides (ascii "\x7b\"model\":\"a\",\"speed\":\"x\"\x7d")
        { model := ascii "b", serviceTier := ascii "flex" } =
      (true, [], ascii "\x7b\"service_tier\":\"flex\",\"model\":\"b\",\"speed\":\"x\"\x7d") := by
  decide +kernel

end Translate
end Llmbridge
