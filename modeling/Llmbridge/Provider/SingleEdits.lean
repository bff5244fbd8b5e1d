import Llmbridge.Provider.OverridesCorrect

/-!
# The single edits

`rewrite_model` and `upsert_string` of `provider/src/translate_body.cpp`, each one key of
a body with a parse of its own, against the batched edit with only that override set.
-/

namespace Llmbridge
namespace Translate

open Rfc8259

/-- A body with the contents of the view replaced. -/
def spliced (body : Bytes) (v : Json.View) (value : Bytes) : Bytes :=
  body.take v.at ++ (value ++ body.drop (v.at + v.bytes.length))

/-- `rewrite_model`. -/
def rewriteModel (body model : Bytes) : Bytes :=
  if model.isEmpty then []
  else if quotable model = false then []
  else
    let (v, ok) := Json.parse body
    if ok = false ∨ v.type ≠ .object then []
    else
      match v.find (ascii "model") with
      | none => []
      | some m =>
          if m.type ≠ .string then []
          else if inBody body m.sv = false then []
          else spliced body m.sv model

/-- `upsert_string`: `*had` and the body. -/
def upsertString (body key value : Bytes) : Bytes × Bytes :=
  if key.isEmpty ∨ value.isEmpty then ([], [])
  else if ¬ [key, value].all quotable then ([], [])
  else
    let (v, ok) := Json.parse body
    if ok = false ∨ v.type ≠ .object then ([], [])
    else
      match v.find key with
      | some cur =>
          if cur.type ≠ .string ∨ inBody body cur.sv = false then ([], [])
          else (cur.sv.bytes, spliced body cur.sv value)
      | none =>
          if inBody body v.sv = false ∨ v.sv.bytes.isEmpty ∨
              v.sv.bytes.head? ≠ some 0x7b then ([], [])
          else
            let «open» := v.sv.at + 1
            let probe := (body.drop «open»).dropWhile isWs
            let emptyObject : Bool := probe.head? = some 0x7d
            ([], body.take «open» ++ (ascii "\"" ++ (key ++ (ascii "\":\"" ++ (value ++
              (ascii "\"" ++ ((if emptyObject then [] else [0x2c]) ++
                body.drop «open»)))))))

/-- The keys that a route sets and inserts where they are absent. -/
inductive RouteKey
  | serviceTier
  | speed
  | inferenceGeo
  deriving DecidableEq, Repr

/-- The text of a key. -/
def RouteKey.text : RouteKey → Bytes
  | .serviceTier => ascii "service_tier"
  | .speed => ascii "speed"
  | .inferenceGeo => ascii "inference_geo"

/-- Only this override. -/
def RouteKey.only (key : RouteKey) (value : Bytes) : Overrides :=
  match key with
  | .serviceTier => { serviceTier := value }
  | .speed => { speed := value }
  | .inferenceGeo => { inferenceGeo := value }

/-! ## The model -/

theorem applyEdits_one (body : Bytes) (v : Json.View) (value : Bytes) :
    applyEdits body ([⟨v.at, v.bytes.length, value⟩].insertionSort fun e f => e.at ≤ f.at) 0 =
      spliced body v value := by
  rw [List.insertionSort_cons, List.insertionSort_nil, List.orderedInsert_nil, applyEdits,
    applyEdits, spliced]
  rfl

theorem upsert_unset (body : Bytes) (v : Json.Value) (u : Upserts) (key : Bytes) :
    upsert body v u key [] = (true, u) := by
  rw [upsert, if_pos List.isEmpty_nil]

theorem upserts_unset (body : Bytes) (v : Json.Value) (u : Upserts) (model : Bytes) :
    upsertAll body v ({ model := model } : Overrides).upserts u = (true, u) := by
  simp only [Overrides.upserts, upsertAll, upsert_unset]

/-- `rewrite_model` writes what the batched edit does with only the model set. -/
theorem rewriteModel_eq (body : Bytes) {model : Bytes} (some : model ≠ []) :
    rewriteModel body model = (applyOverrides body { model := model }).2.2 := by
  have given : model.isEmpty = false := by simpa using some
  have safe : [model, [], [], []].all quotable = quotable model := by
    simp [quotable]
  unfold rewriteModel applyOverrides
  simp only [Overrides.empty, given, Bool.false_and, Bool.false_eq_true, if_false, safe]
  cases quotes : quotable model with
  | false => rfl
  | true =>
      simp only [Bool.true_eq_false, if_false, not_true]
      cases parsed : Json.parse body with
      | mk v ok =>
          dsimp only
          by_cases bad : ok = false ∨ v.type ≠ .object
          · rw [if_pos bad, if_pos bad]
          rw [if_neg bad, if_neg bad]
          cases found : v.find (ascii "model") with
          | none => rfl
          | some m =>
              dsimp only
              by_cases string : m.type ≠ .string
              · rw [if_pos string, if_pos (Or.inl string)]
              · by_cases inside : inBody body m.sv = false
                · rw [if_neg string, if_pos inside, if_pos (Or.inr inside)]
                · rw [if_neg string, if_neg inside, if_neg (not_or.mpr ⟨string, inside⟩)]
                  dsimp only
                  rw [upserts_unset]
                  dsimp only
                  rw [if_pos List.isEmpty_nil]
                  exact (applyEdits_one body m.sv model).symm

/-! ## The other keys -/

theorem upserts_only (body : Bytes) (v : Json.Value) (u : Upserts) (key : RouteKey)
    (value : Bytes) :
    upsertAll body v (key.only value).upserts u = upsert body v u key.text value := by
  have last : ∀ key : Bytes,
      upsertAll body v [(key, value)] u = upsert body v u key value := by
    intro key
    unfold upsertAll
    rcases upsert body v u key value with ⟨ok, u⟩
    cases ok <;> rfl
  cases key with
  | serviceTier =>
      simp only [RouteKey.only, Overrides.upserts, upsertAll, upsert_unset]
      exact last _
  | speed =>
      simp only [RouteKey.only, Overrides.upserts, upsertAll, upsert_unset]
      exact last _
  | inferenceGeo =>
      simp only [RouteKey.only, Overrides.upserts, upsertAll, upsert_unset]
      exact last _

theorem RouteKey.only_empty (key : RouteKey) {value : Bytes} (some : value ≠ []) :
    (key.only value).empty = false := by
  have given : value.isEmpty = false := by simpa using some
  cases key <;> simp [RouteKey.only, Overrides.empty, given]

theorem RouteKey.only_model (key : RouteKey) (value : Bytes) :
    (key.only value).model.isEmpty = true := by
  cases key <;> rfl

theorem RouteKey.only_quotable (key : RouteKey) (value : Bytes) :
    [(key.only value).model, (key.only value).serviceTier, (key.only value).speed,
      (key.only value).inferenceGeo].all quotable = quotable value := by
  cases key <;> simp [RouteKey.only, quotable]

theorem RouteKey.text_quotable (key : RouteKey) (value : Bytes) :
    [key.text, value].all quotable = quotable value := by
  have own : quotable key.text = true := by cases key <;> decide
  simp [own]

theorem RouteKey.text_isEmpty (key : RouteKey) : key.text.isEmpty = false := by
  cases key <;> decide

/-- The key is absent from an object that has a key with an escape: `upsert_string` inserts
it, and the batched edit refuses. -/
def EscapedBeside (body : Bytes) (key : RouteKey) : Prop :=
  (Json.parse body).2 = true ∧ (Json.parse body).1.type = .object ∧
    (Json.parse body).1.find key.text = none ∧
    ((Json.parse body).1.obj.any fun m => m.1.bytes.contains 0x5c) = true

/-- What a parsed object's view is. -/
theorem object_view {body : Bytes} (ok : (Json.parse body).2 = true)
    (isObject : (Json.parse body).1.type = .object) :
    ¬ (inBody body (Json.parse body).1.sv = false ∨ (Json.parse body).1.sv.bytes.isEmpty ∨
      (Json.parse body).1.sv.bytes.head? ≠ some 0x7b) := by
  obtain ⟨text, rfl, -⟩ := (Json.parse_ok_iff _ .unique).mp ok
  rw [Json.parse_value rfl ok] at isObject ⊢
  have object := (Json.valueAt_type_object _ _).mp isObject
  obtain ⟨pre, value, post⟩ := text
  have view : (Json.valueAt pre.bytes.length value).sv = ⟨pre.bytes.length, value.render⟩ := by
    obtain ⟨inside, rfl⟩ | ⟨items, rfl⟩ := Json.isObject_cases object
    · rw [Json.valueAt]
    · rw [Json.valueAt]
  have brace : value.render.head? = some 0x7b := by
    obtain ⟨inside, rfl⟩ | ⟨items, rfl⟩ := Json.isObject_cases object
    · rfl
    · rw [Json.render]
      rfl
  rw [view]
  rintro (outside | none | other)
  · rw [inBody, decide_eq_false_iff_not] at outside
    apply outside
    simp only [Text.render, List.length_append]
    omega
  · have empty : value.render = [] := List.isEmpty_iff.mp none
    rw [empty] at brace
    cases brace
  · exact other brace

/-- `upsert_string` writes what the batched edit does with only that override set, but
beside an escaped key. -/
theorem upsertString_iff (body : Bytes) (key : RouteKey) {value : Bytes} (some : value ≠ []) :
    (upsertString body key.text value).2 = (applyOverrides body (key.only value)).2.2 ↔
      ¬ (quotable value = true ∧ EscapedBeside body key) := by
  have given : ¬ value.isEmpty = true := by simpa using some
  have start : ¬ (key.text.isEmpty = true ∨ value.isEmpty = true) := by
    rw [key.text_isEmpty]
    simp [given]
  unfold upsertString applyOverrides
  rw [if_neg start, key.only_empty some, if_neg Bool.false_ne_true, key.only_quotable,
    key.text_quotable]
  cases quotes : quotable value with
  | false =>
      rw [if_pos Bool.false_ne_true, if_pos Bool.false_ne_true]
      simp
  | true =>
      rw [if_neg (not_not.mpr rfl), if_neg (not_not.mpr rfl)]
      have view := @object_view body
      unfold EscapedBeside
      cases parsed : Json.parse body with
      | mk v ok =>
          rw [parsed] at view
          dsimp only at view ⊢
          by_cases bad : ok = false ∨ v.type ≠ .object
          · rw [if_pos bad, if_pos bad]
            simp only [true_iff, not_and]
            rintro - rfl isObject
            exact absurd isObject (bad.resolve_left Bool.noConfusion)
          obtain ⟨isOk, isObject⟩ := not_or.mp bad
          rw [if_neg bad, if_neg bad, if_pos (key.only_model value)]
          dsimp only
          rw [upserts_only, upsert, if_neg given]
          cases found : v.find key.text with
          | some cur =>
              dsimp only
              simp only [reduceCtorEq, false_and, and_false, not_false_eq_true, iff_true]
              by_cases wrong : cur.type ≠ .string ∨ inBody body cur.sv = false
              · rw [if_pos wrong, if_pos wrong]
              · rw [if_neg wrong, if_neg wrong]
                by_cases tier : key.text = ascii "service_tier"
                · rw [if_pos tier]
                  exact (applyEdits_one body cur.sv value).symm
                · rw [if_neg tier]
                  exact (applyEdits_one body cur.sv value).symm
          | none =>
              have shape := view (by simpa using isOk) (not_not.mp isObject)
              dsimp only
              rw [if_neg shape, insertion, if_neg shape]
              simp only [List.nil_append, List.isEmpty_nil, if_true]
              have some' : ¬ (ascii "\"" ++ (key.text ++ (ascii "\":\"" ++
                  (value ++ ascii "\"")))).isEmpty = true := by
                rw [show ascii "\"" = [0x22] from rfl]
                simp
              rw [if_neg some']
              cases escaped : v.obj.any fun m => m.1.bytes.contains 0x5c with
              | true =>
                  rw [if_pos rfl]
                  dsimp only
                  have nonempty : ∀ front back : Bytes,
                      front ++ (ascii "\"" ++ back) ≠ [] := by
                    intro front back
                    rw [show ascii "\"" = [0x22] from rfl]
                    simp
                  refine ⟨fun same => absurd same (nonempty _ _), fun not => ?_⟩
                  exact absurd ⟨trivial, by simpa using isOk, not_not.mp isObject, trivial,
                    rfl⟩ not
              | false =>
                  rw [if_neg Bool.false_ne_true]
                  dsimp only
                  simp only [Bool.false_eq_true, and_false, not_false_eq_true, iff_true]
                  by_cases closes : ((body.drop (v.sv.at + 1)).dropWhile isWs).head? = .some 0x7d
                  · rw [if_pos (by simpa using closes), if_neg (not_not.mpr closes),
                      List.insertionSort_nil, applyEdits]
                    simp only [List.nil_append, List.append_assoc]
                  · rw [if_neg (by simpa using closes), if_pos closes,
                      List.insertionSort_nil, applyEdits]
                    simp only [List.append_assoc]

/-- The body whose tier is spelled with an escape. -/
def escapedTier : Bytes :=
  ascii "\x7b\"service\\u005ftier\":\"auto\"\x7d"

/-- Beside an escaped spelling of its key `upsert_string` inserts the key again. -/
theorem upsertString_escaped :
    (upsertString escapedTier (ascii "service_tier") (ascii "flex")).2 ≠
      (applyOverrides escapedTier { serviceTier := ascii "flex" }).2.2 := by
  decide +kernel

/-- The single edits write what the batched one does with only their override set, exactly
when no key is to be inserted beside one that is spelled with an escape. -/
theorem singleEdits_iff (body : Bytes) {model value : Bytes} (modelGiven : model ≠ [])
    (valueGiven : value ≠ []) :
    (rewriteModel body model = (applyOverrides body { model := model }).2.2 ∧
        ∀ key : RouteKey, (upsertString body key.text value).2 =
          (applyOverrides body (key.only value)).2.2) ↔
      ¬ (quotable value = true ∧ ∃ key, EscapedBeside body key) := by
  constructor
  · rintro ⟨-, same⟩ ⟨quotes, key, beside⟩
    exact (upsertString_iff body key valueGiven).mp (same key) ⟨quotes, beside⟩
  · intro none
    refine ⟨rewriteModel_eq body modelGiven, fun key => ?_⟩
    apply (upsertString_iff body key valueGiven).mpr
    rintro ⟨quotes, beside⟩
    exact none ⟨quotes, key, beside⟩

/-- The same of that body. -/
theorem singleEdits_iff_escaped :
    (rewriteModel escapedTier (ascii "m") =
          (applyOverrides escapedTier { model := ascii "m" }).2.2 ∧
        ∀ key : RouteKey, (upsertString escapedTier key.text (ascii "flex")).2 =
          (applyOverrides escapedTier (key.only (ascii "flex"))).2.2) ↔
      ¬ (quotable (ascii "flex") = true ∧ ∃ key, EscapedBeside escapedTier key) :=
  singleEdits_iff escapedTier (by decide) (by decide)

end Translate
end Llmbridge
