import Llmbridge.Provider.JsonParse

/-!
# The facts of a Gemini reply

`gemini_facts` of `provider/src/translate_gemini.cpp`: what one reply object states
beside its usage.  A fact is read from a member, so the member's key stands quoted in
the text.
-/

namespace Llmbridge
namespace Gemini

open Rfc8259 (Byte Bytes ascii quoted Items Kind Head)
open Json (Value)

/-- `GeminiFacts`. -/
structure GeminiFacts where
  token : Bool := false
  thinking : Bool := false
  toolInput : Bool := false
  error : Bool := false
  errorStatus : Bytes := []
  modelVersion : Bytes := []
  responseId : Bytes := []
  tier : Bytes := []
  searchQueries : Int := -1
  deriving DecidableEq, Repr

/-- A member the object has. -/
def has (v : Value) (key : String) : Bool :=
  (v.find (ascii key)).isSome

/-- A string member's span, empty for anything else. -/
def text (v : Value) (key : String) : Bytes :=
  (v.strOr (ascii key)).bytes

/-- `"thought": true`. -/
def isThought (part : Value) : Bool :=
  match part.find (ascii "thought") with
  | some thought => thought.type == .bool && thought.boolean
  | none => false

/-- One part of a candidate's content. -/
def readPart (f : GeminiFacts) (part : Value) : GeminiFacts :=
  let f :=
    if isThought part then { f with thinking := true }
    else if text part "text" ≠ [] ∨ has part "functionCall" ∨ has part "inlineData" ∨
        has part "executableCode" then
      { f with token := true }
    else f
  if has part "executableCode" || has part "codeExecutionResult" then
    { f with toolInput := true }
  else f

/-- The elements of a member that is an array. -/
def elements (v : Value) (key : String) : Option (List Value) :=
  (v.find (ascii key)).bind fun w => if w.type = .array then some w.arr else none

/-- One candidate, with the grounding queries counted so far. -/
def readCandidate (s : GeminiFacts × Int) (c : Value) : GeminiFacts × Int :=
  let f := if has c "urlContextMetadata" then { s.1 with toolInput := true } else s.1
  let queries :=
    match (c.find (ascii "groundingMetadata")).bind (elements · "webSearchQueries") with
    | some q => (if s.2 > 0 then s.2 else 0) + (q.length : Int)
    | none => s.2
  let parts := (c.find (ascii "content")).bind (elements · "parts")
  ((parts.getD []).foldl readPart f, queries)

/-- The tier that one object names: `trafficType` is looked at last. -/
def readTier (f : GeminiFacts) (o : Value) : GeminiFacts :=
  ["serviceTier", "trafficType"].foldl
    (fun f k => if text o k ≠ [] then { f with tier := text o k } else f) f

/-- The model and the id of the reply. -/
def readNames (f : GeminiFacts) (v : Value) : GeminiFacts :=
  let f := if text v "modelVersion" ≠ [] then { f with modelVersion := text v "modelVersion" }
    else f
  if text v "responseId" ≠ [] then { f with responseId := text v "responseId" } else f

/-- The tier sits at the top level or in `usageMetadata`. -/
def readTiers (f : GeminiFacts) (v : Value) : GeminiFacts :=
  let f := readTier f v
  ((v.find (ascii "usageMetadata")).map (readTier f)).getD f

/-- `gemini_facts`: none when `body` is not one JSON object. -/
def geminiFacts (body : Bytes) (f : GeminiFacts) : Option GeminiFacts :=
  let (v, ok) := Json.parse body .any
  if ¬ (ok = true ∧ v.type = .object) then none
  else
    match (v.find (ascii "error")).filter (·.type = .object) with
    | some e => some { f with error := true, errorStatus := text e "status" }
    | none =>
        let f := readTiers (readNames f v) v
        match elements v "candidates" with
        | none => some f
        | some candidates =>
            let (f, queries) := candidates.foldl readCandidate (f, -1)
            some (if queries ≥ 0 then { f with searchQueries := queries } else f)

/-! ## Keys that stand in the text -/

/-- The value of a tree that stands in the text. -/
def Within (body : Bytes) (v : Value) : Prop :=
  ∃ «at» tree, v = Json.valueAt «at» tree ∧ tree.render <:+: body

/-- A container's items stand in its text. -/
theorem items_inside {kind : Kind} (items : Items kind) :
    items.render <:+: (Rfc8259.Json.full kind items).render :=
  ⟨[kind.opens], [kind.closes], by rw [Rfc8259.Json.render]; simp⟩

/-- Every value among the items stands in their text, and so does its key. -/
theorem entriesAt_within :
    ∀ {kind : Kind} (items : Items kind) («at» : Nat), ∀ entry ∈ Json.entriesAt «at» items,
      Within items.render entry.2 ∧ (kind = .object → quoted entry.1.bytes <:+: items.render)
  | .array, .last head pre value post, «at» => by
      intro entry member
      rw [Json.entriesAt, List.mem_singleton] at member
      subst member
      refine ⟨⟨_, value, rfl, ?_⟩, fun other => absurd other (by decide)⟩
      exact ⟨pre.bytes, post.bytes, by rw [Items.render, Head.render]; simp⟩
  | .object, .last head pre value post, «at» => by
      intro entry member
      rw [Json.entriesAt, List.mem_singleton] at member
      subst member
      refine ⟨⟨_, value, rfl, ?_⟩, fun _ => ?_⟩
      · exact ⟨Head.render head ++ pre.bytes, post.bytes, by rw [Items.render]; simp⟩
      · exact ⟨(Rfc8259.Key.pre head).bytes, (Rfc8259.Key.post head).bytes ++
          (0x3a :: (pre.bytes ++ (value.render ++ post.bytes))), by
            simp [Items.render, Head.render, Rfc8259.Key.render, Json.headView]⟩
  | .array, .cons head pre value post rest, «at» => by
      intro entry member
      rw [Json.entriesAt] at member
      have later : rest.render <:+: (Items.cons head pre value post rest).render :=
        ⟨pre.bytes ++ (value.render ++ (post.bytes ++ [0x2c])), [], by
          rw [Items.render, Head.render]; simp⟩
      rcases List.mem_cons.mp member with rfl | member
      · refine ⟨⟨_, value, rfl, ?_⟩, fun other => absurd other (by decide)⟩
        exact ⟨pre.bytes, post.bytes ++ (0x2c :: rest.render), by
          rw [Items.render, Head.render]; simp⟩
      · obtain ⟨⟨place, tree, same, inside⟩, key⟩ := entriesAt_within rest _ entry member
        exact ⟨⟨place, tree, same, inside.trans later⟩, fun object => (key object).trans later⟩
  | .object, .cons head pre value post rest, «at» => by
      intro entry member
      rw [Json.entriesAt] at member
      have later : rest.render <:+: (Items.cons head pre value post rest).render :=
        ⟨Head.render head ++ (pre.bytes ++ (value.render ++ (post.bytes ++ [0x2c]))), [], by
          rw [Items.render]; simp⟩
      rcases List.mem_cons.mp member with rfl | member
      · refine ⟨⟨_, value, rfl, ?_⟩, fun _ => ?_⟩
        · exact ⟨Head.render head ++ pre.bytes, post.bytes ++ (0x2c :: rest.render), by
            rw [Items.render]; simp⟩
        · exact ⟨(Rfc8259.Key.pre head).bytes, (Rfc8259.Key.post head).bytes ++
            (0x3a :: (pre.bytes ++ (value.render ++ (post.bytes ++ (0x2c :: rest.render))))), by
              simp [Items.render, Head.render, Rfc8259.Key.render, Json.headView]⟩
      · obtain ⟨⟨place, tree, same, inside⟩, key⟩ := entriesAt_within rest _ entry member
        exact ⟨⟨place, tree, same, inside.trans later⟩, fun object => (key object).trans later⟩

/-- A text names a key when the key stands quoted in it. -/
def Names (body : Bytes) (key : String) : Prop :=
  quoted (ascii key) <:+: body

namespace Within

variable {body : Bytes} {v w : Value}

/-- A member lies within the body, and so does its name. -/
theorem obj (within : Within body v) {entry : Json.View × Value} (member : entry ∈ v.obj) :
    Within body entry.2 ∧ quoted entry.1.bytes <:+: body := by
  obtain ⟨«at», tree, rfl, inside⟩ := within
  cases tree with
  | full kind items =>
      cases kind with
      | object =>
          rw [Json.valueAt] at member
          obtain ⟨⟨place, tree, same, part⟩, key⟩ := entriesAt_within items _ entry member
          have whole := (items_inside items).trans inside
          exact ⟨⟨place, tree, same, part.trans whole⟩, (key rfl).trans whole⟩
      | array => exact absurd member (by simp [Json.valueAt])
  | empty kind inside => exact absurd member (by simp [Json.valueAt])
  | lit l => cases l <;> exact absurd member (by simp [Json.valueAt])
  | number n => exact absurd member (by simp [Json.valueAt])
  | string t => exact absurd member (by simp [Json.valueAt])

/-- An element lies within the body. -/
theorem arr (within : Within body v) (member : w ∈ v.arr) : Within body w := by
  obtain ⟨«at», tree, rfl, inside⟩ := within
  cases tree with
  | full kind items =>
      cases kind with
      | array =>
          rw [Json.valueAt] at member
          obtain ⟨entry, listed, rfl⟩ := List.mem_map.mp member
          obtain ⟨⟨place, tree, same, part⟩, -⟩ := entriesAt_within items _ entry listed
          exact ⟨place, tree, same, part.trans ((items_inside items).trans inside)⟩
      | object => exact absurd member (by simp [Json.valueAt])
  | empty kind inside => exact absurd member (by simp [Json.valueAt])
  | lit l => cases l <;> exact absurd member (by simp [Json.valueAt])
  | number n => exact absurd member (by simp [Json.valueAt])
  | string t => exact absurd member (by simp [Json.valueAt])

/-- A member that is found is named. -/
theorem find {key : String} (within : Within body v) (found : v.find (ascii key) = some w) :
    Within body w ∧ Names body key := by
  unfold Value.find at found
  split at found
  · obtain ⟨entry, first, rfl⟩ := Option.map_eq_some_iff.mp found
    have name := List.find?_some first
    obtain ⟨inside, quoted⟩ := within.obj (List.mem_of_find?_eq_some first)
    rw [decide_eq_true_eq.mp name] at quoted
    exact ⟨inside, quoted⟩
  · exact absurd found (by simp)

/-- A name that the body does not hold is not found. -/
theorem unnamed {key : String} (within : Within body v) (unnamed : ¬ Names body key) :
    v.find (ascii key) = none := by
  cases found : v.find (ascii key) with
  | none => rfl
  | some w => exact absurd (within.find found).2 unnamed

/-- Nor is it there. -/
theorem has {key : String} (within : Within body v) (unnamed : ¬ Names body key) :
    has v key = false := by
  rw [Gemini.has, within.unnamed unnamed]
  rfl

/-- Nor has it a text. -/
theorem text {key : String} (within : Within body v) (unnamed : ¬ Names body key) :
    text v key = [] := by
  rw [Gemini.text, Value.strOr, within.unnamed unnamed]

/-- The elements that are found lie within the body. -/
theorem elements {key : String} {list : List Value} (within : Within body v)
    (found : elements v key = some list) : ∀ w ∈ list, Within body w := by
  obtain ⟨found, member, array⟩ := Option.bind_eq_some_iff.mp found
  split at array
  · rw [← Option.some.inj array]
    exact fun w listed => (within.find member).1.arr listed
  · exact absurd array (by simp)

end Within

/-- The values of a document stand in it. -/
theorem within_parse {body : Bytes} {v : Value} (parsed : Json.parse body .any = (v, true)) :
    Within body v := by
  have ok : (Json.parse body .any).2 = true := by rw [parsed]
  obtain ⟨text, split, -⟩ := (Json.parse_ok_iff body .any).mp ok
  have value := Json.parse_value split ok
  rw [parsed] at value
  refine ⟨_, text.value, value, ?_⟩
  exact ⟨text.pre.bytes, text.post.bytes, by rw [split, Rfc8259.Text.render]; simp⟩

/-! ## What is not named is not read -/

/-- None of the keys of a tool-use prompt. -/
def NoTool (body : Bytes) : Prop :=
  ¬ Names body "executableCode" ∧ ¬ Names body "codeExecutionResult" ∧
    ¬ Names body "urlContextMetadata"

/-- What reading a candidate leaves as it was. -/
structure Keeps (body : Bytes) (f f' : GeminiFacts) : Prop where
  error : f'.error = f.error
  modelVersion : f'.modelVersion = f.modelVersion
  responseId : f'.responseId = f.responseId
  tier : f'.tier = f.tier
  searchQueries : f'.searchQueries = f.searchQueries
  toolInput : NoTool body → f'.toolInput = f.toolInput

/-- Facts are kept. -/
theorem Keeps.refl (body : Bytes) (f : GeminiFacts) : Keeps body f f :=
  ⟨rfl, rfl, rfl, rfl, rfl, fun _ => rfl⟩

/-- Kept twice. -/
theorem Keeps.trans {body : Bytes} {f g h : GeminiFacts} (first : Keeps body f g)
    (second : Keeps body g h) : Keeps body f h :=
  ⟨second.error.trans first.error, second.modelVersion.trans first.modelVersion,
    second.responseId.trans first.responseId, second.tier.trans first.tier,
    second.searchQueries.trans first.searchQueries,
    fun none => (second.toolInput none).trans (first.toolInput none)⟩

/-- A part keeps the facts that it does not name. -/
theorem readPart_keeps {body : Bytes} {part : Value} (within : Within body part)
    (f : GeminiFacts) : Keeps body f (readPart f part) := by
  have tool : ∀ g : GeminiFacts, Keeps body f g → Keeps body f
      (if has part "executableCode" || has part "codeExecutionResult" then
        { g with toolInput := true } else g) := by
    intro g keeps
    split
    · next named =>
      refine ⟨keeps.error, keeps.modelVersion, keeps.responseId, keeps.tier,
        keeps.searchQueries, fun none => ?_⟩
      rw [within.has none.1, within.has none.2.1] at named
      exact absurd named (by decide)
    · exact keeps
  unfold readPart
  apply tool
  split
  · exact ⟨rfl, rfl, rfl, rfl, rfl, fun _ => rfl⟩
  · split
    · exact ⟨rfl, rfl, rfl, rfl, rfl, fun _ => rfl⟩
    · exact Keeps.refl body f

/-- So do parts in turn. -/
theorem readParts_keeps {body : Bytes} : ∀ {parts : List Value},
    (∀ w ∈ parts, Within body w) → ∀ f, Keeps body f (parts.foldl readPart f) := by
  intro parts
  induction parts with
  | nil => exact fun _ f => Keeps.refl body f
  | cons part parts inductionHypothesis =>
      intro within f
      rw [List.foldl_cons]
      exact (readPart_keeps (within part List.mem_cons_self) f).trans
        (inductionHypothesis (fun w member => within w (List.mem_cons_of_mem part member)) _)

/-- So does a candidate. -/
theorem readCandidate_keeps {body : Bytes} {c : Value} (within : Within body c)
    (s : GeminiFacts × Int) :
    Keeps body s.1 (readCandidate s c).1 ∧
      (¬ Names body "groundingMetadata" → (readCandidate s c).2 = s.2) := by
  unfold readCandidate
  constructor
  · have tool : Keeps body s.1
        (if has c "urlContextMetadata" then { s.1 with toolInput := true } else s.1) := by
      split
      · next named =>
        refine ⟨rfl, rfl, rfl, rfl, rfl, fun none => ?_⟩
        rw [within.has none.2.2] at named
        exact absurd named (by decide)
      · exact Keeps.refl body s.1
    apply tool.trans
    apply readParts_keeps
    intro w member
    cases content : (c.find (ascii "content")).bind (elements · "parts") with
    | none =>
        rw [content] at member
        exact absurd member (by simp)
    | some parts =>
        rw [content] at member
        obtain ⟨found, member', listed⟩ := Option.bind_eq_some_iff.mp content
        exact (within.find member').1.elements listed w member
  · intro unnamed
    rw [within.unnamed unnamed]
    rfl

/-- So do candidates in turn. -/
theorem readCandidates_keeps {body : Bytes} : ∀ {candidates : List Value},
    (∀ w ∈ candidates, Within body w) → ∀ s : GeminiFacts × Int,
      Keeps body s.1 (candidates.foldl readCandidate s).1 ∧
        (¬ Names body "groundingMetadata" → (candidates.foldl readCandidate s).2 = s.2) := by
  intro candidates
  induction candidates with
  | nil => exact fun _ s => ⟨Keeps.refl body s.1, fun _ => rfl⟩
  | cons c candidates inductionHypothesis =>
      intro within s
      obtain ⟨here, queries⟩ := readCandidate_keeps (within c List.mem_cons_self) s
      obtain ⟨later, more⟩ := inductionHypothesis
        (fun w member => within w (List.mem_cons_of_mem c member)) (readCandidate s c)
      rw [List.foldl_cons]
      exact ⟨here.trans later, fun unnamed => (more unnamed).trans (queries unnamed)⟩

/-- A tier changes the tier only. -/
theorem readTier_keeps {body : Bytes} {o : Value} (within : Within body o) (f : GeminiFacts) :
    ∃ tier, readTier f o = { f with tier := tier } ∧
      (¬ Names body "serviceTier" → ¬ Names body "trafficType" → tier = f.tier) := by
  unfold readTier
  simp only [List.foldl_cons, List.foldl_nil]
  by_cases service : text o "serviceTier" ≠ []
  · by_cases traffic : text o "trafficType" ≠ []
    · rw [if_pos service, if_pos traffic]
      exact ⟨_, rfl, fun unnamed => absurd (within.text unnamed) service⟩
    · rw [if_pos service, if_neg traffic]
      exact ⟨_, rfl, fun unnamed => absurd (within.text unnamed) service⟩
  · by_cases traffic : text o "trafficType" ≠ []
    · rw [if_neg service, if_pos traffic]
      exact ⟨_, rfl, fun _ unnamed => absurd (within.text unnamed) traffic⟩
    · rw [if_neg service, if_neg traffic]
      exact ⟨f.tier, rfl, fun _ _ => rfl⟩

/-- What a text does not name is not among its facts. -/
structure Silent (body : Bytes) (g : GeminiFacts) : Prop where
  error : ¬ Names body "error" → g.error = false
  modelVersion : ¬ Names body "modelVersion" → g.modelVersion = []
  responseId : ¬ Names body "responseId" → g.responseId = []
  tier : ¬ Names body "serviceTier" → ¬ Names body "trafficType" → g.tier = []
  searchQueries : ¬ Names body "groundingMetadata" → g.searchQueries = -1
  toolInput : NoTool body → g.toolInput = false

/-- Facts that say nothing unnamed still do not. -/
theorem Silent.keeps {body : Bytes} {f g : GeminiFacts} (silent : Silent body f)
    (keeps : Keeps body f g) : Silent body g :=
  ⟨fun u => keeps.error.trans (silent.error u),
    fun u => keeps.modelVersion.trans (silent.modelVersion u),
    fun u => keeps.responseId.trans (silent.responseId u),
    fun u w => keeps.tier.trans (silent.tier u w),
    fun u => keeps.searchQueries.trans (silent.searchQueries u),
    fun u => (keeps.toolInput u).trans (silent.toolInput u)⟩

/-- Nor behind a tier. -/
theorem Silent.readTier {body : Bytes} {o : Value} {f : GeminiFacts} (silent : Silent body f)
    (within : Within body o) : Silent body (readTier f o) := by
  obtain ⟨tier, same, kept⟩ := readTier_keeps within f
  rw [same]
  exact ⟨silent.error, silent.modelVersion, silent.responseId,
    fun u w => (kept u w).trans (silent.tier u w), silent.searchQueries, silent.toolInput⟩

/-- Nor do the names. -/
theorem silent_names {body : Bytes} {v : Value} (within : Within body v) :
    Silent body (readNames {} v) := by
  have model : Silent body (if text v "modelVersion" ≠ [] then
      { ({} : GeminiFacts) with modelVersion := text v "modelVersion" } else {}) := by
    split
    · next named =>
      exact ⟨fun _ => rfl, fun u => absurd (within.text u) named, fun _ => rfl, fun _ _ => rfl,
        fun _ => rfl, fun _ => rfl⟩
    · exact ⟨fun _ => rfl, fun _ => rfl, fun _ => rfl, fun _ _ => rfl, fun _ => rfl, fun _ => rfl⟩
  unfold readNames
  dsimp only
  split
  · next named =>
    exact ⟨model.error, model.modelVersion, fun u => absurd (within.text u) named, model.tier,
      model.searchQueries, model.toolInput⟩
  · exact model

/-- Nor behind the tiers. -/
theorem Silent.readTiers {body : Bytes} {v : Value} {f : GeminiFacts} (silent : Silent body f)
    (within : Within body v) : Silent body (readTiers f v) := by
  have top := silent.readTier within
  unfold Gemini.readTiers
  dsimp only
  generalize Gemini.readTier f v = f at top ⊢
  cases found : v.find (ascii "usageMetadata") with
  | none =>
      rw [Option.map_none, Option.getD_none]
      exact top
  | some o =>
      rw [Option.map_some, Option.getD_some]
      exact top.readTier (within.find found).1

/-- No fact is read that the body does not name. -/
theorem geminiFacts_silent {body : Bytes} {g : GeminiFacts}
    (read : geminiFacts body {} = some g) : Silent body g := by
  unfold geminiFacts at read
  cases parsed : Json.parse body .any with
  | mk v ok =>
  rw [parsed] at read
  dsimp only at read
  split at read
  · exact absurd read (by simp)
  next good =>
  rw [(not_not.mp good).1] at parsed
  have within := within_parse parsed
  split at read
  · next e found =>
    rw [← Option.some.inj read]
    refine ⟨fun unnamed => ?_, fun _ => rfl, fun _ => rfl, fun _ _ => rfl, fun _ => rfl,
      fun _ => rfl⟩
    rw [within.unnamed unnamed] at found
    exact absurd found (by simp)
  · have named := (silent_names within).readTiers within
    generalize readTiers (readNames {} v) v = f at read named
    split at read
    · rw [← Option.some.inj read]
      exact named
    · next candidates found =>
      obtain ⟨keeps, queries⟩ := readCandidates_keeps (within.elements found) (f, -1)
      have kept := named.keeps keeps
      rw [← Option.some.inj read]
      split
      · next counted =>
        refine ⟨kept.error, kept.modelVersion, kept.responseId, kept.tier, fun u => ?_,
          kept.toolInput⟩
        rw [queries u] at counted
        exact absurd counted (by simp)
      · exact kept

end Gemini
end Llmbridge
