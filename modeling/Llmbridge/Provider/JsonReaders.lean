import Llmbridge.Provider.Admission
import Llmbridge.Provider.OverridesHeld

/-!
# The readers without a tree

`for_each_member` and the readers on it look at the bytes of a body alone.  On
every body that `json::parse` accepts they report what its tree has: the root's
members in order, and of each name the first, as `Value::find` does.
-/

namespace Llmbridge
namespace Translate

open Rfc8259
open JsonScan
open BodyScan (Placed keyNames)

/-! ## What the tree says -/

/-- The text of a value, from the tree. -/
def rawOf (v : Json.Value) : Bytes :=
  match v.type with
  | .null => ascii "null"
  | .bool => if v.boolean then ascii "true" else ascii "false"
  | .string => quoted v.sv.bytes
  | .number | .array | .object => v.sv.bytes

/-- The contents of a string without a backslash; nothing for another value. -/
def plainOf : Option Json.Value → Bytes
  | some v => if v.type = .string ∧ ¬ v.sv.bytes.contains 0x5c then v.sv.bytes else []
  | none => []

/-- The literal `true`. -/
def isTrue : Option Json.Value → Bool
  | some v => v.type = .bool && v.boolean
  | none => false

theorem rawOf_valueAt («at» : Nat) (value : Json) :
    rawOf (Json.valueAt «at» value) = value.render := by
  cases value with
  | lit l => cases l <;> rfl
  | number n =>
      rw [Json.valueAt]
      rfl
  | string s =>
      rw [Json.valueAt]
      rfl
  | empty kind | full kind =>
      cases kind <;>
        · rw [Json.valueAt]
          rfl

/-- The members of the tree are those of the text. -/
theorem valueAt_rawMembers («at» : Nat) (value : Json) :
    ((Json.valueAt «at» value).obj.map fun m => (m.1.bytes, rawOf m.2)) =
      rawMembers value := by
  have both := congrArg (List.map fun m => (m.1, m.2.render))
    (BodyScan.inside_members «at» value)
  simp only [List.map_map] at both
  rw [valueAt_obj, List.map_map, rawMembers]
  refine Eq.trans (List.map_congr_left fun p _ => ?_) both
  exact congrArg (Prod.mk p.name) (rawOf_valueAt p.valueAt p.value)

theorem obj_of_not_object
    {«at» : Nat} {value : Json} (bare : (Json.valueAt «at» value).type ≠ .object) :
    value.isObject = false ∧ (Json.valueAt «at» value).obj = [] := by
  have kind : value.isObject = false := by
    rw [Bool.eq_false_iff]
    exact mt (Json.valueAt_type_object «at» value).mpr bare
  refine ⟨kind, ?_⟩
  rw [valueAt_obj, BodyScan.inside_of_not_object _ kind]
  rfl

/-- The first member of a name, in the tree and in the text. -/
theorem firstNamed_eq_find («at» : Nat) (value : Json) (key : Bytes) :
    firstNamed key (rawMembers value) =
      ((Json.valueAt «at» value).find key).map rawOf := by
  have named : firstNamed key (rawMembers value) =
      (((Json.valueAt «at» value).obj.find? fun m => m.1.bytes = key).map
        Prod.snd).map rawOf := by
    rw [← valueAt_rawMembers «at», firstNamed, List.find?_map, Option.map_map,
      Option.map_map]
    rfl
  rw [named, Json.Value.find]
  by_cases object : (Json.valueAt «at» value).type = .object
  · rw [if_pos object]
  · rw [if_neg object, (obj_of_not_object object).2]
    rfl

/-- What is found in a tree of a text is the tree of a text. -/
theorem find_valueAt
    {«at» : Nat} {value : Json} {key : Bytes} {v : Json.Value}
    (found : (Json.valueAt «at» value).find key = some v) :
    ∃ place inner, v = Json.valueAt place inner := by
  rw [Json.Value.find] at found
  split at found
  · rw [Option.map_eq_some_iff] at found
    obtain ⟨m, here, rfl⟩ := found
    have member := List.mem_of_find?_eq_some here
    rw [valueAt_obj] at member
    obtain ⟨p, -, rfl⟩ := List.mem_map.mp member
    exact ⟨p.valueAt, p.value, rfl⟩
  · simp at found

/-! ## Raw values -/

theorem plainString_render («at» : Nat) (value : Json) :
    plainString value.render = plainOf (some (Json.valueAt «at» value)) := by
  cases kind : value.isString with
  | true =>
      match value, kind with
      | .string s, _ =>
          have size : (quoted s.bytes).length = s.bytes.length + 2 := by simp [quoted]
          have inside : substr (quoted s.bytes) 1 s.bytes.length = s.bytes := by
            rw [substr, quoted, List.drop_succ_cons, List.drop_zero, List.take_left]
          have closed : ¬ ((quoted s.bytes).length < 2 ∨
              (quoted s.bytes).head? ≠ some 0x22 ∨
                (quoted s.bytes).getLast? ≠ some 0x22) := by
            rw [size]
            simp [quoted, List.getLast?_cons_of_ne_nil]
          rw [Json.render, plainString, if_neg closed, size, Nat.add_sub_cancel, inside,
            Json.valueAt, plainOf]
          by_cases escaped : s.bytes.contains 0x5c = true
          · rw [if_pos escaped, if_neg (by simp only [escaped]; simp)]
          · rw [if_neg escaped, if_pos ⟨rfl, escaped⟩]
  | false =>
      obtain ⟨first, others, shape, -⟩ := value.head
      have noQuote : value.render.head? ≠ some 0x22 := by
        intro quote
        have isString := value.firstByte_eq_quote.mp (by
          rw [shape, List.head?_cons, Option.some.injEq] at quote
          rw [Json.firstByte, shape, quote]
          rfl)
        rw [kind] at isString
        exact Bool.noConfusion isString
      have notString : (Json.valueAt «at» value).type ≠ .string := by
        rw [Ne, Json.valueAt_type_string]
        rintro ⟨s, rfl⟩
        exact Bool.noConfusion kind
      rw [plainString, if_pos (Or.inr (Or.inl noQuote)), plainOf,
        if_neg fun both => notString both.1]

theorem isTrue_render («at» : Nat) (value : Json) :
    decide (value.render = ascii "true") = isTrue (some (Json.valueAt «at» value)) := by
  have only : value.render = ascii "true" ↔ value = .lit .true := by
    constructor
    · intro same
      have texts : Text.render ⟨⟨[], by simp⟩, value, ⟨[], by simp⟩⟩ =
          Text.render ⟨⟨[], by simp⟩, .lit .true, ⟨[], by simp⟩⟩ := by
        simp [Text.render, same, Json.render, Lit.text]
      exact congrArg Text.value (Text.render_injective texts)
    · rintro rfl
      rfl
  refine Bool.eq_iff_iff.mpr ?_
  rw [decide_eq_true_iff, only]
  cases value with
  | lit l => cases l <;> simp [isTrue, Json.valueAt]
  | number | string => simp [isTrue, Json.valueAt]
  | empty kind | full kind =>
      cases kind <;> simp [isTrue, Json.valueAt, Json.containerType]

/-- What a reader makes of a found value's text. -/
theorem found_reads {v : Option Json.Value}
    (stands : ∀ x, v = some x → ∃ «at» value, x = Json.valueAt «at» value) :
    plainString ((v.map rawOf).getD []) = plainOf v ∧
      decide ((v.map rawOf).getD [] = ascii "true") = isTrue v := by
  cases v with
  | none => exact ⟨rfl, by decide⟩
  | some x =>
      obtain ⟨«at», value, rfl⟩ := stands x rfl
      rw [Option.map_some, Option.getD_some, rawOf_valueAt]
      exact ⟨plainString_render «at» value, isTrue_render «at» value⟩

/-! ## The readers -/

/-- `first_member` on a text. -/
theorem firstMember_eq
    {obj : Bytes} (pre : Ws) (value : Json)
    (located : Located obj 0 (pre.bytes ++ value.render)) (key : Bytes) :
    firstMember obj key = (firstNamed key (rawMembers value)).getD [] := by
  rw [firstMember, forEachMember_located _ pre value located]
  dsimp only
  induction rawMembers value with
  | nil => rfl
  | cons m members inductionHypothesis =>
      obtain ⟨k, v⟩ := m
      rw [eachMember, firstNamed_cons]
      by_cases same : k = key
      · simp [same]
      · rw [if_neg same, ← inductionHypothesis]
        simp [same]

theorem firstMember_nil (key : Bytes) : firstMember [] key = [] := by
  simp [firstMember, forEachMember, skipWs]

/-- `first_member` one level down. -/
theorem firstMember_below («at» : Nat) (value : Json) (outer key : Bytes) :
    firstMember ((((Json.valueAt «at» value).find outer).map rawOf).getD []) key =
      (((((Json.valueAt «at» value).find outer).bind fun v => v.find key).map
        rawOf).getD []) := by
  cases found : (Json.valueAt «at» value).find outer with
  | none => exact firstMember_nil key
  | some v =>
      obtain ⟨place, inner, rfl⟩ := find_valueAt found
      rw [Option.map_some, Option.getD_some, rawOf_valueAt, Option.bind_some,
        ← firstNamed_eq_find]
      exact firstMember_eq ⟨[], by simp⟩ inner ⟨[], by simp⟩ key

/-- The readers report what the tree of a body has. -/
structure ReadersAgree (body : Bytes) (v : Json.Value) : Prop where
  visits : v.type = .object → ∀ {σ : Type} (f : σ → Bytes → Bytes → σ × Bool) (s : σ),
    forEachMember f body s =
      (true, eachMember f s (v.obj.map fun m => (m.1.bytes, rawOf m.2)))
  bare : v.type ≠ .object →
    (∀ {σ : Type} (f : σ → Bytes → Bytes → σ × Bool) (s : σ),
      forEachMember f body s = (false, s)) ∧
    topLevelFacts body = {} ∧ modelOf body = [] ∧ topLevelMemberCount body = 0
  modelOf : modelOf body = plainOf (v.find (ascii "model"))
  model : (topLevelFacts body).model = plainOf (v.find (ascii "model"))
  stream : (topLevelFacts body).stream = isTrue (v.find (ascii "stream"))
  includeUsage : (topLevelFacts body).includeUsage =
    isTrue ((v.find (ascii "stream_options")).bind fun o => o.find (ascii "include_usage"))
  cacheTtl : (topLevelFacts body).cacheTtl =
    plainOf ((v.find (ascii "prompt_cache_options")).bind fun o => o.find (ascii "ttl"))
  count : topLevelMemberCount body = v.obj.length

theorem eachMember_count (members : List (Bytes × Bytes)) (n : Nat) :
    eachMember (fun (n : Nat) _ _ => (n + 1, true)) n members = n + members.length := by
  induction members generalizing n with
  | nil => rfl
  | cons m members inductionHypothesis =>
      obtain ⟨k, v⟩ := m
      rw [eachMember]
      dsimp only
      rw [inductionHypothesis, List.length_cons]
      omega

theorem readersAgree_text (text : Text) :
    ReadersAgree text.render (Json.valueAt text.pre.bytes.length text.value) := by
  have located : Located text.render 0 (text.pre.bytes ++ text.value.render) :=
    ⟨text.post.bytes, by simp [Text.render]⟩
  have visited : ∀ {σ : Type} (f : σ → Bytes → Bytes → σ × Bool) (s : σ),
      forEachMember f text.render s =
        (text.value.isObject, eachMember f s (rawMembers text.value)) :=
    fun f s => forEachMember_located f text.pre text.value located s
  have root := fun key => firstNamed_eq_find text.pre.bytes.length text.value key
  have reads := fun key => found_reads
    (v := (Json.valueAt text.pre.bytes.length text.value).find key)
    fun x found => find_valueAt found
  have below : ∀ outer key, (∀ x, ((Json.valueAt text.pre.bytes.length
      text.value).find outer).bind (fun v => v.find key) = some x →
        ∃ «at» value, x = Json.valueAt «at» value) := by
    intro outer key x found
    obtain ⟨v, outerFound, innerFound⟩ := Option.bind_eq_some_iff.mp found
    obtain ⟨place, inner, rfl⟩ := find_valueAt outerFound
    exact find_valueAt innerFound
  obtain ⟨tally, options, cache, model, stream⟩ :=
    eachMember_walk (rawMembers text.value) {}
  have modelIs : modelOf text.render = plainOf
      ((Json.valueAt text.pre.bytes.length text.value).find (ascii "model")) := by
    rw [modelOf, firstMember_eq text.pre text.value located, root]
    exact (reads _).1
  have counted : topLevelMemberCount text.render = (rawMembers text.value).length := by
    rw [topLevelMemberCount, visited]
    dsimp only
    rw [eachMember_count, Nat.zero_add]
  refine ⟨?_, ?_, modelIs, ?_, ?_, ?_, ?_, ?_⟩
  · intro object _ f s
    rw [visited, valueAt_rawMembers, (Json.valueAt_type_object _ _).mp object]
  · intro object
    obtain ⟨notObject, nothing⟩ := obj_of_not_object object
    have none : rawMembers text.value = [] := by
      rw [← valueAt_rawMembers text.pre.bytes.length, nothing]
      rfl
    have quiet : ∀ {σ : Type} (f : σ → Bytes → Bytes → σ × Bool) (s : σ),
        forEachMember f text.render s = (false, s) := by
      intro _ f s
      rw [visited, notObject, none, eachMember]
    refine ⟨quiet, ?_, ?_, ?_⟩
    · rw [topLevelFacts, quiet]
      decide
    · rw [modelOf, firstMember, quiet]
      rfl
    · rw [topLevelMemberCount, quiet]
  · simp only [topLevelFacts, visited, model, Option.none_or, root]
    exact (reads _).1
  · simp only [topLevelFacts, visited, stream, Option.none_or, root]
    exact (reads _).2
  · simp only [topLevelFacts, visited, options, Option.none_or, root, firstMember_below]
    exact (found_reads (below _ _)).2
  · simp only [topLevelFacts, visited, cache, Option.none_or, root, firstMember_below]
    exact (found_reads (below _ _)).1
  · rw [counted, ← valueAt_rawMembers text.pre.bytes.length, List.length_map]

/-! ## Repeated keys -/

/-- A tally of distinct names never reports a repeated one. -/
theorem foldl_add_distinct {names : List Bytes} (distinct : names.Nodup) :
    (names.foldl KeyTally.add {}).result ≠ .duplicateKey := by
  obtain ⟨passes, fails⟩ := foldl_add names
  have verdict : ∀ (names : List Bytes) (t : KeyTally), t.verdict ≠ .duplicateKey →
      (names.foldl KeyTally.add t).verdict ≠ .duplicateKey := by
    intro names
    induction names with
    | nil => exact fun _ other => other
    | cons name names inductionHypothesis =>
        intro t other
        refine inductionHypothesis _ ?_
        rw [KeyTally.add]
        repeat' split
        all_goals simp [other]
  by_cases ok : (∀ name ∈ names, 0x5c ∉ name) ∧ names.length ≤ KeyTally.kMaxKeys
  · rw [passes ok, KeyTally.result]
    simp only [ne_eq, not_true_eq_false, if_false]
    rw [if_pos ((Json.sortedFresh_iff names).mpr distinct)]
    exact KeyCheck.noConfusion
  · rw [KeyTally.result, if_pos (fails ok)]
    exact verdict names {} KeyCheck.noConfusion

/-- `check_keys` of a value without repeated keys. -/
theorem checkKeys_unique {value : Json} (unique : Json.UniqueKeys value) :
    checkKeys value.render ≠ .duplicateKey := by
  rw [checkKeys, forEachMember_located _ ⟨[], by simp⟩ value ⟨[], by simp⟩]
  rw [eachMember_add, rawMembers_keys, ← BodyScan.inside_names 0]
  exact foldl_add_distinct (names_nodup unique 0)

theorem uniqueKeysIn_members :
    ∀ items : Items .object, Json.UniqueKeysIn items →
      ∀ member ∈ items.members, Json.UniqueKeys member.2
  | .last key pre value post, unique, member, inside => by
      rw [Items.members, List.mem_singleton] at inside
      subst inside
      exact unique
  | .cons key pre value post rest, unique, member, inside => by
      rw [Items.members, List.mem_cons] at inside
      rcases inside with rfl | inside
      · exact unique.1
      · exact uniqueKeysIn_members rest unique.2 member inside

/-- The members of a value without repeated keys have none below. -/
theorem uniqueKeys_below {value : Json} (unique : Json.UniqueKeys value) :
    ∀ member ∈ value.members, Json.UniqueKeys member.2 := by
  match value, unique with
  | .full .object items, unique => exact uniqueKeysIn_members items unique.2
  | .full .array _, _ | .empty _ _, _ | .lit _, _ | .number _, _ | .string _, _ =>
      simp [Json.members]

/-- The keys checked one level down are not repeated. -/
theorem checkKeys_below {value : Json} (unique : Json.UniqueKeys value) (key : Bytes) :
    checkKeys ((firstNamed key (rawMembers value)).getD []) ≠ .duplicateKey := by
  cases found : firstNamed key (rawMembers value) with
  | none =>
      rw [Option.getD_none, show checkKeys [] = .ok by
        simp [checkKeys, forEachMember, skipWs, KeyTally.result, Json.sortedFresh,
          Json.noAdjacentEqual]]
      exact KeyCheck.noConfusion
  | some raw =>
      rw [firstNamed, Option.map_eq_some_iff] at found
      obtain ⟨m, here, rfl⟩ := found
      have inside := List.mem_of_find?_eq_some here
      rw [rawMembers] at inside
      obtain ⟨member, there, rfl⟩ := List.mem_map.mp inside
      exact checkKeys_unique (uniqueKeys_below unique member there)

/-- A body without repeated keys is not reported to have one. -/
theorem topLevelFacts_unique {text : Text} (unique : Json.UniqueKeys text.value) :
    (topLevelFacts text.render).keys ≠ .duplicateKey := by
  have located : Located text.render 0 (text.pre.bytes ++ text.value.render) :=
    ⟨text.post.bytes, by simp [Text.render]⟩
  obtain ⟨tally, options, cache, -⟩ := eachMember_walk (rawMembers text.value) {}
  have root : ((keyNames text.value).foldl KeyTally.add {}).result ≠ .duplicateKey := by
    rw [← BodyScan.inside_names 0]
    exact foldl_add_distinct (names_nodup unique 0)
  have inOptions := checkKeys_below unique (ascii "stream_options")
  have inCache := checkKeys_below unique (ascii "prompt_cache_options")
  simp only [topLevelFacts, forEachMember_located _ text.pre text.value located, tally,
    options, cache, Option.none_or, rawMembers_keys]
  generalize checkKeys _ = optionKeys at inOptions ⊢
  generalize checkKeys _ = cacheKeys at inCache ⊢
  generalize KeyTally.result _ = rootKeys at root ⊢
  repeat' split
  · exact inCache
  · exact inOptions
  · exact root

/-- The readers agree with the parser on every body it accepts, and where it takes
no repeated key they report none. -/
theorem readers_agree
    {body : Bytes} {mode : Json.Keys} (ok : (Json.parse body mode).2 = true) :
    ReadersAgree body (Json.parse body mode).1 ∧
      (mode = .unique → (topLevelFacts body).keys ≠ .duplicateKey) := by
  obtain ⟨text, rfl, document⟩ := (Json.parse_ok_iff body mode).mp ok
  rw [Json.parse_value rfl ok]
  exact ⟨readersAgree_text text, fun isUnique =>
    topLevelFacts_unique (document.keys isUnique)⟩

/-- A streamed request for the usage of its model. -/
def streamedBody : Bytes :=
  ascii "\x7b\"model\":\"m\"," ++
    ascii "\"stream_options\":\x7b\"include_usage\":true\x7d\x7d"

theorem readers_agree_stream :
    ReadersAgree streamedBody (Json.parse streamedBody .unique).1 ∧
      (topLevelFacts streamedBody).keys ≠ .duplicateKey := by
  have agrees := @readers_agree streamedBody .unique (by decide +kernel)
  exact ⟨agrees.1, agrees.2 rfl⟩

end Translate
end Llmbridge
