import Llmbridge.Provider.BodyScanCorrect
import Llmbridge.Provider.JsonParse
import Llmbridge.Provider.JsonScanTree
import Llmbridge.Provider.TranslateBody

/-!
# Streamed and held admission

A body is admitted as it streams, by the scan, or held whole, by `json::parse`
and the key check of `top_level_facts`.  Both look at the root's keys and at
those of `stream_options`; the held check looks into `prompt_cache_options`
too, and the scan stores the places of keys in 32 bits.
-/

namespace Llmbridge
namespace Translate

open Rfc8259
open JsonScan
open BodyScan (KeysOk keyNames Config Scanned Accepts feedCuts rootMembers scanned_iff
  feedCuts_scanned)

/-! ## The tally -/

/-- The tally of these keys: what it holds while they pass, and a verdict that
stays once they do not. -/
theorem foldl_add (names : List Bytes) :
    let t := names.foldl KeyTally.add {}
    ((∀ name ∈ names, 0x5c ∉ name) ∧ names.length ≤ KeyTally.kMaxKeys →
      t = { keys := names }) ∧
    (¬ ((∀ name ∈ names, 0x5c ∉ name) ∧ names.length ≤ KeyTally.kMaxKeys) →
      t.verdict ≠ .ok) := by
  induction names using List.reverseRecOn with
  | nil => simp [KeyTally.kMaxKeys]
  | append_singleton names name inductionHypothesis =>
      obtain ⟨passes, fails⟩ := inductionHypothesis
      simp only [List.foldl_append, List.foldl_cons, List.foldl_nil]
      by_cases ok : (∀ name ∈ names, 0x5c ∉ name) ∧ names.length ≤ KeyTally.kMaxKeys
      · rw [passes ok]
        by_cases escaped : 0x5c ∈ name
        · have stays : KeyTally.add { keys := names } name =
              { keys := names, verdict := .escapedKey } := by
            simp [KeyTally.add, escaped]
          rw [stays]
          refine ⟨fun all => absurd escaped (all.1 name (by simp)), fun _ => ?_⟩
          exact KeyCheck.noConfusion
        · by_cases full : names.length = KeyTally.kMaxKeys
          · have stays : KeyTally.add { keys := names } name =
                { keys := names, verdict := .tooManyKeys } := by
              simp [KeyTally.add, escaped, full]
            rw [stays]
            refine ⟨fun all => ?_, fun _ => KeyCheck.noConfusion⟩
            have few := all.2
            rw [List.length_append, List.length_singleton] at few
            omega
          · have added : KeyTally.add { keys := names } name =
                { keys := names ++ [name] } := by
              simp [KeyTally.add, escaped, full]
            rw [added]
            refine ⟨fun _ => rfl, fun not => absurd ⟨?_, ?_⟩ not⟩
            · intro other member
              rw [List.mem_append, List.mem_singleton] at member
              rcases member with member | rfl
              · exact ok.1 other member
              · exact escaped
            · have few := ok.2
              rw [List.length_append, List.length_singleton]
              omega
      · have settled := fails ok
        have stays : KeyTally.add (names.foldl KeyTally.add {}) name =
            names.foldl KeyTally.add {} := by
          rw [KeyTally.add, if_pos settled]
        rw [stays]
        refine ⟨fun all => absurd ⟨fun other member => all.1 other (by simp [member]), ?_⟩ ok,
          fun _ => settled⟩
        have few := all.2
        rw [List.length_append] at few
        omega

/-- A tally passes the keys that the scan's check passes. -/
theorem foldl_add_result (names : List Bytes) :
    (names.foldl KeyTally.add {}).result = .ok ↔ KeysOk names := by
  obtain ⟨passes, fails⟩ := foldl_add names
  by_cases ok : (∀ name ∈ names, 0x5c ∉ name) ∧ names.length ≤ KeyTally.kMaxKeys
  · rw [passes ok, KeyTally.result]
    simp only [ne_eq, not_true_eq_false, if_false]
    constructor
    · intro fresh
      split at fresh
      · next sorted => exact ⟨ok.1, (Json.sortedFresh_iff names).mp sorted, ok.2⟩
      · exact KeyCheck.noConfusion fresh
    · rintro ⟨-, distinct, -⟩
      rw [if_pos ((Json.sortedFresh_iff names).mpr distinct)]
  · have settled := fails ok
    rw [KeyTally.result, if_pos settled]
    constructor
    · intro isOk
      exact absurd isOk settled
    · rintro ⟨plain, -, few⟩
      exact absurd ⟨plain, few⟩ ok

/-- A walk that stops once the verdict is settled leaves the same tally. -/
theorem eachMember_add (members : List (Bytes × Bytes)) (t : KeyTally) :
    eachMember (fun (t : KeyTally) k _ => (t.add k, !(t.add k).settled)) t members =
      (members.map Prod.fst).foldl KeyTally.add t := by
  induction members generalizing t with
  | nil => rfl
  | cons member members inductionHypothesis =>
      obtain ⟨k, v⟩ := member
      rw [eachMember, List.map_cons, List.foldl_cons]
      cases settled : (t.add k).settled with
      | false => exact inductionHypothesis (t.add k)
      | true =>
          have stays : ∀ names : List Bytes,
              names.foldl KeyTally.add (t.add k) = t.add k := by
            intro names
            induction names with
            | nil => rfl
            | cons name names inner =>
                rw [List.foldl_cons]
                have same : (t.add k).add name = t.add k := by
                  rw [KeyTally.add, if_pos (by simpa [KeyTally.settled] using settled)]
                rw [same]
                exact inner
          exact (stays _).symm

theorem rawMembers_keys (value : Json) :
    (rawMembers value).map Prod.fst = keyNames value := by
  simp [rawMembers, keyNames, Function.comp_def]

/-- `check_keys` of a value's text. -/
theorem checkKeys_render (value : Json) :
    checkKeys value.render = .ok ↔ KeysOk (keyNames value) := by
  have located : Located value.render 0 (([] : Bytes) ++ value.render) :=
    ⟨[], by simp⟩
  rw [checkKeys, forEachMember_located _ ⟨[], by simp⟩ value located]
  rw [eachMember_add, rawMembers_keys, foldl_add_result]

/-! ## The walk -/

/-- The value of the first member of that name. -/
def firstNamed (key : Bytes) (members : List (Bytes × Bytes)) : Option Bytes :=
  (members.find? fun member => decide (member.1 = key)).map Prod.snd

theorem firstNamed_cons
    (key k v : Bytes) (members : List (Bytes × Bytes)) :
    firstNamed key ((k, v) :: members) =
      if k = key then some v else firstNamed key members := by
  by_cases same : k = key
  · simp [firstNamed, same]
  · simp [firstNamed, same]

/-- What one member adds. -/
theorem Walk.member_fields (w : Walk) (k v : Bytes) :
    (w.member k v).tally = w.tally.add k ∧
      (w.member k v).options =
        (if k = ascii "stream_options" then w.options.or (some v) else w.options) ∧
      (w.member k v).cache =
        (if k = ascii "prompt_cache_options" then w.cache.or (some v)
          else w.cache) ∧
      (w.member k v).model =
        (if k = ascii "model" then w.model.or (some v) else w.model) ∧
      (w.member k v).stream =
        (if k = ascii "stream" then w.stream.or (some v) else w.stream) := by
  have model : ascii "model" ≠ ascii "stream" ∧ ascii "model" ≠ ascii "stream_options" ∧
      ascii "model" ≠ ascii "prompt_cache_options" := by decide
  have stream : ascii "stream" ≠ ascii "model" ∧
      ascii "stream" ≠ ascii "stream_options" ∧
      ascii "stream" ≠ ascii "prompt_cache_options" := by decide
  have options : ascii "stream_options" ≠ ascii "model" ∧
      ascii "stream_options" ≠ ascii "stream" ∧
      ascii "stream_options" ≠ ascii "prompt_cache_options" := by decide
  have cache : ascii "prompt_cache_options" ≠ ascii "model" ∧
      ascii "prompt_cache_options" ≠ ascii "stream" ∧
      ascii "prompt_cache_options" ≠ ascii "stream_options" := by decide
  simp only [Walk.member]
  by_cases isModel : k = ascii "model"
  · subst isModel
    cases w.model <;> simp [model]
  by_cases isStream : k = ascii "stream"
  · subst isStream
    cases w.stream <;> simp [stream]
  by_cases isOptions : k = ascii "stream_options"
  · subst isOptions
    cases w.options <;> simp [options]
  by_cases isCache : k = ascii "prompt_cache_options"
  · subst isCache
    cases w.cache <;> simp [cache]
  simp [isModel, isStream, isOptions, isCache]

/-- The walk collects the tally of the keys and the first value of each key it
reads. -/
theorem eachMember_walk (members : List (Bytes × Bytes)) (w : Walk) :
    let walked := eachMember (fun (w : Walk) k v => (w.member k v, true)) w members
    walked.tally = (members.map Prod.fst).foldl KeyTally.add w.tally ∧
      walked.options = w.options.or (firstNamed (ascii "stream_options") members) ∧
      walked.cache = w.cache.or (firstNamed (ascii "prompt_cache_options") members) ∧
      walked.model = w.model.or (firstNamed (ascii "model") members) ∧
      walked.stream = w.stream.or (firstNamed (ascii "stream") members) := by
  induction members generalizing w with
  | nil => simp [eachMember, firstNamed]
  | cons member members inductionHypothesis =>
      obtain ⟨k, v⟩ := member
      obtain ⟨tally, options, cache, model, stream⟩ := inductionHypothesis (w.member k v)
      simp only [eachMember, List.map_cons, List.foldl_cons, firstNamed_cons]
      obtain ⟨nextTally, nextOptions, nextCache, nextModel, nextStream⟩ := w.member_fields k v
      rw [tally, options, cache, model, stream, nextTally, nextOptions, nextCache, nextModel,
        nextStream]
      refine ⟨rfl, ?_, ?_, ?_, ?_⟩
      all_goals split <;> simp

/-- The first member of that name, if any, is checked. -/
theorem checkKeys_firstNamed
    (key : Bytes) (value : Json) (distinct : (keyNames value).Nodup) :
    checkKeys ((firstNamed key (rawMembers value)).getD []) = .ok ↔
      ∀ member ∈ value.members, member.1.bytes = key → KeysOk (keyNames member.2) := by
  rw [firstNamed, rawMembers, keyNames] at *
  generalize value.members = members at distinct ⊢
  induction members with
  | nil =>
      have empty : checkKeys [] = .ok := by
        simp [checkKeys, forEachMember, skipWs, KeyTally.result, Json.sortedFresh,
          Json.noAdjacentEqual]
      simpa using empty
  | cons member members inductionHypothesis =>
      rw [List.map_cons, List.nodup_cons] at distinct
      rw [List.map_cons, List.find?_cons]
      by_cases same : member.1.bytes = key
      · have others : ∀ other ∈ members, other.1.bytes ≠ key := by
          intro other inside isKey
          refine distinct.1 (List.mem_map.mpr ⟨other, inside, ?_⟩)
          rw [isKey, same]
        simp only [same, decide_true, Option.map_some, Option.getD_some,
          checkKeys_render]
        constructor
        · intro ok other inside isKey
          rcases List.mem_cons.mp inside with rfl | inside
          · exact ok
          · exact absurd isKey (others other inside)
        · intro all
          exact all member (by simp) same
      · simp only [same, decide_false]
        rw [inductionHypothesis distinct.2]
        constructor
        · intro all other inside isKey
          rcases List.mem_cons.mp inside with rfl | inside
          · exact absurd isKey same
          · exact all other inside isKey
        · exact fun all other inside => all other (List.mem_cons_of_mem member inside)

/-! ## Both admissions on a text -/

/-- The members of that name, their keys checked one level down. -/
def CheckedBelow (key : Bytes) (value : Json) : Prop :=
  ∀ member ∈ value.members, member.1.bytes = key → KeysOk (keyNames member.2)

/-- The held key check of a text. -/
theorem topLevelFacts_keys (text : Text) :
    (topLevelFacts text.render).keys = .ok ↔
      KeysOk (keyNames text.value) ∧
      CheckedBelow (ascii "stream_options") text.value ∧
      CheckedBelow (ascii "prompt_cache_options") text.value := by
  have located : Located text.render 0 (text.pre.bytes ++ text.value.render) :=
    ⟨text.post.bytes, by simp [Text.render]⟩
  obtain ⟨tally, options, cache, -⟩ := eachMember_walk (rawMembers text.value) {}
  simp only [topLevelFacts, forEachMember_located _ text.pre text.value located, tally,
    options, cache, Option.none_or, rawMembers_keys]
  have root := foldl_add_result (keyNames text.value)
  by_cases rootOk : KeysOk (keyNames text.value)
  · rw [root.mpr rootOk]
    simp only [if_true, rootOk, true_and]
    have inOptions := checkKeys_firstNamed (ascii "stream_options") text.value
      rootOk.distinct
    have inCache := checkKeys_firstNamed (ascii "prompt_cache_options") text.value
      rootOk.distinct
    by_cases optionsOk : CheckedBelow (ascii "stream_options") text.value
    · rw [inOptions.mpr optionsOk]
      simp only [if_true, optionsOk, true_and]
      exact inCache
    · have refused := mt inOptions.mp optionsOk
      simp [refused, optionsOk]
  · have refused := mt root.mp rootOk
    simp [refused, rootOk]

/-- Held admission: `json::parse` takes the body and its keys are checked. -/
def Held (body : Bytes) : Prop :=
  (Json.parse body .any).2 = true ∧ (topLevelFacts body).keys = .ok

instance (body : Bytes) : Decidable (Held body) :=
  inferInstanceAs (Decidable (_ ∧ _))

/-- Held admission of a text. -/
theorem held_render
    {text : Text} (few : text.value.count ≤ Json.kMaxNodes) :
    Held text.render ↔ text.value.depth ≤ Json.kMaxDepth ∧
      KeysOk (keyNames text.value) ∧
      CheckedBelow (ascii "stream_options") text.value ∧
      CheckedBelow (ascii "prompt_cache_options") text.value := by
  rw [Held, topLevelFacts_keys, Json.parse_ok_iff]
  refine and_congr_left fun _ => ?_
  constructor
  · rintro ⟨other, same, document⟩
    rw [Text.render_injective same]
    exact document.depth
  · intro depth
    exact ⟨text, rfl, depth, few, fun unique => by simp at unique⟩

/-- Held admission takes texts only. -/
theorem text_of_held {body : Bytes} (held : Held body) :
    ∃ text : Text, body = text.render := by
  obtain ⟨text, whole, -⟩ := (Json.parse_ok_iff body .any).mp held.1
  exact ⟨text, whole⟩

/-! ## When both agree -/

/-- `reset()`. -/
def streamed : Config := ⟨true, false, 0⟩

/-- Streamed admission agrees with held admission, whatever the cuts. -/
def Agrees (body : Bytes) : Prop :=
  ∀ cuts : List Nat,
    ((feedCuts streamed.start body cuts).verdict = .done ↔ Held body) ∧
      (¬ Held body → (feedCuts streamed.start body cuts).verdict = .refused)

/-- The keys both checks look at: those of the root and of `stream_options`. -/
def NamesOk (text : Text) : Prop :=
  KeysOk (keyNames text.value) ∧ CheckedBelow (ascii "stream_options") text.value

/-- The same keys by the places the scan stores for them, in 32 bits. -/
def PlacesOk (body : Bytes) (text : Text) : Prop :=
  BodyScan.Admits body streamed (rootMembers text)

/-- What the two admissions need to agree on a text: the keys of
`prompt_cache_options` pass when those of the root and of `stream_options` do,
and the stored places tell these apart as their names do; or else a stored
place is taken for a fresh key while `prompt_cache_options` is refused. -/
def AgreesOn (body : Bytes) (text : Text) : Prop :=
  ((PlacesOk body text ↔ NamesOk text) ∧
    (NamesOk text → CheckedBelow (ascii "prompt_cache_options") text.value)) ∨
  (NamesOk text ∧ ¬ PlacesOk body text ∧
    ¬ CheckedBelow (ascii "prompt_cache_options") text.value)

theorem scanned_streamed {body : Bytes} {text : Text} (whole : body = text.render) :
    Scanned body streamed text ↔
      text.value.depth ≤ Json.kMaxDepth ∧ PlacesOk body text := by
  constructor
  · rintro ⟨-, depth, -, members⟩
    exact ⟨depth, members⟩
  · rintro ⟨depth, places⟩
    exact ⟨whole, depth, fun mask => absurd rfl mask, places⟩

/-- In a body whose places fit 32 bits they tell keys apart as the names do. -/
theorem placesOk_iff
    {body : Bytes} {text : Text} (small : body.length < 2 ^ 32)
    (whole : body = text.render) (depth : text.value.depth ≤ Json.kMaxDepth) :
    PlacesOk body text ↔ NamesOk text := by
  have scanned := scanned_iff small streamed text
  rw [scanned_streamed whole] at scanned
  constructor
  · intro places
    obtain ⟨-, accepts⟩ := scanned.mp ⟨depth, places⟩
    exact ⟨accepts.keys rfl, accepts.options rfl⟩
  · rintro ⟨keys, options⟩
    have once := List.nodup_iff_count_le_one.mp keys.distinct
    exact (scanned.mpr ⟨whole, depth, keys.plain, once _, fun _ => keys,
      fun _ => options, fun mask => absurd rfl mask, fun name _ => once name,
      fun member _ masked => absurd (UInt8.and_zero ..) masked⟩).2

theorem agree_cases (places names cache : Prop) :
    (places ↔ names ∧ cache) ↔
      ((places ↔ names) ∧ (names → cache)) ∨ (names ∧ ¬ places ∧ ¬ cache) := by
  by_cases isPlaces : places <;> by_cases isNames : names <;>
    by_cases isCache : cache <;> simp [isPlaces, isNames, isCache]

/-- Streamed and held admission agree on a body exactly when they do on its
text. -/
theorem agrees_iff
    (body : Bytes)
    (few : ∀ text : Text, body = text.render → text.value.count ≤ Json.kMaxNodes) :
    Agrees body ↔ ∀ text : Text, body = text.render →
      text.value.depth ≤ Json.kMaxDepth → AgreesOn body text := by
  have ends : ∀ cuts, ((feedCuts streamed.start body cuts).verdict = .done ∧
      ∃ text, Scanned body streamed text) ∨
      ((feedCuts streamed.start body cuts).verdict = .refused ∧
        ∀ text, ¬ Scanned body streamed text) := by
    intro cuts
    rcases feedCuts_scanned streamed body cuts with ⟨done, text, scanned, -⟩ | refused
    · exact Or.inl ⟨done, text, scanned⟩
    · exact Or.inr refused
  have meets : Agrees body ↔ ((∃ text, Scanned body streamed text) ↔ Held body) := by
    constructor
    · intro agrees
      rcases ends [] with ⟨done, scanned⟩ | ⟨refused, none⟩
      · exact ⟨fun _ => (agrees []).1.mp done, fun _ => scanned⟩
      · refine ⟨fun ⟨text, scanned⟩ => absurd scanned (none text), fun held => ?_⟩
        have done := (agrees []).1.mpr held
        rw [refused] at done
        exact BodyScan.Verdict.noConfusion done
    · intro same cuts
      rcases ends cuts with ⟨done, scanned⟩ | ⟨refused, none⟩
      · exact ⟨⟨fun _ => same.mp scanned, fun _ => done⟩,
          fun notHeld => absurd (same.mp scanned) notHeld⟩
      · have notHeld : ¬ Held body := fun held => by
          obtain ⟨text, scanned⟩ := same.mpr held
          exact none text scanned
        refine ⟨⟨fun done => ?_, fun held => absurd held notHeld⟩, fun _ => refused⟩
        rw [refused] at done
        exact BodyScan.Verdict.noConfusion done
  rw [meets]
  by_cases isText : ∃ text : Text, body = text.render
  · obtain ⟨text, rfl⟩ := isText
    have scanned : (∃ other, Scanned text.render streamed other) ↔
        text.value.depth ≤ Json.kMaxDepth ∧ PlacesOk text.render text := by
      rw [← scanned_streamed rfl]
      constructor
      · rintro ⟨other, scanned⟩
        exact Text.render_injective scanned.whole ▸ scanned
      · exact fun scanned => ⟨text, scanned⟩
    have only : (∀ other : Text, text.render = other.render →
        other.value.depth ≤ Json.kMaxDepth → AgreesOn text.render other) ↔
        (text.value.depth ≤ Json.kMaxDepth → AgreesOn text.render text) := by
      constructor
      · exact fun all => all text rfl
      · intro one other same
        exact Text.render_injective same ▸ one
    have held : Held text.render ↔ text.value.depth ≤ Json.kMaxDepth ∧ NamesOk text ∧
        CheckedBelow (ascii "prompt_cache_options") text.value := by
      rw [held_render (few text rfl), NamesOk, and_assoc (a := KeysOk _)]
    rw [scanned, held, only]
    by_cases depth : text.value.depth ≤ Json.kMaxDepth
    · simp only [depth, true_and, forall_const]
      exact agree_cases ..
    · simp [depth]
  · have notHeld : ¬ Held body := fun held => isText (text_of_held held)
    constructor
    · intro _ text whole
      exact absurd ⟨text, whole⟩ isText
    · intro _
      refine ⟨fun ⟨text, scanned⟩ => absurd ⟨text, scanned.whole⟩ isText,
        fun held => absurd held notHeld⟩

mutual

theorem count_le_render : ∀ value : Json, value.count ≤ value.render.length
  | .lit l => by cases l <;> decide
  | .number n => by
      obtain ⟨c, rest, shape, -⟩ := n.head
      simp [Json.count, Json.render, shape]
  | .string s => by simp [Json.count, Json.render, quoted]
  | .empty kind ws => by simp [Json.count, Json.render]
  | .full kind items => by
      have inside := count_le_render_items items
      simp only [Json.count, Json.render, List.length_cons, List.length_append]
      omega

theorem count_le_render_items :
    ∀ {kind : Kind} (items : Items kind), items.count ≤ items.render.length
  | _, .last head pre value post => by
      have inside := count_le_render value
      simp only [Items.count, Items.render, List.length_append]
      omega
  | _, .cons head pre value post rest => by
      have inside := count_le_render value
      have others := count_le_render_items rest
      simp only [Items.count, Items.render, List.length_append, List.length_cons]
      omega

end

/-- A body has no more values than bytes. -/
theorem count_le_length {body : Bytes} {text : Text} (whole : body = text.render) :
    text.value.count ≤ body.length := by
  have inside := count_le_render text.value
  rw [whole, Text.render, List.length_append, List.length_append]
  omega

/-- A repeated key of `prompt_cache_options` streams and is refused when
held. -/
theorem streams_repeated_cache_key :
    (∀ text : Text,
        ascii "\x7b\"prompt_cache_options\":\x7b\"ttl\":\"a\",\"ttl\":\"b\"\x7d\x7d" = text.render →
        text.value.count ≤ Json.kMaxNodes) ∧
      ¬ Agrees (ascii "\x7b\"prompt_cache_options\":\x7b\"ttl\":\"a\",\"ttl\":\"b\"\x7d\x7d") := by
  refine ⟨fun text whole => Nat.le_trans (count_le_length whole) (by decide), ?_⟩
  intro agrees
  have notHeld :
      ¬ Held (ascii "\x7b\"prompt_cache_options\":\x7b\"ttl\":\"a\",\"ttl\":\"b\"\x7d\x7d") := by
    decide +kernel
  exact notHeld ((agrees []).1.mp (by decide +kernel))

/-- With one `ttl` both take the body. -/
theorem agrees_single_cache_key :
    Held (ascii "\x7b\"prompt_cache_options\":\x7b\"ttl\":\"a\"\x7d\x7d") ∧
      Agrees (ascii "\x7b\"prompt_cache_options\":\x7b\"ttl\":\"a\"\x7d\x7d") := by
  have held : Held (ascii "\x7b\"prompt_cache_options\":\x7b\"ttl\":\"a\"\x7d\x7d") := by
    decide +kernel
  have few : ∀ text : Text,
      ascii "\x7b\"prompt_cache_options\":\x7b\"ttl\":\"a\"\x7d\x7d" = text.render →
      text.value.count ≤ Json.kMaxNodes :=
    fun text whole => Nat.le_trans (count_le_length whole) (by decide)
  refine ⟨held, (agrees_iff _ few).mpr fun text whole depth => Or.inl ⟨?_, fun _ => ?_⟩⟩
  · exact placesOk_iff (by decide) whole depth
  · rw [whole] at held
    exact ((held_render (few text whole)).mp held).2.2.2

end Translate
end Llmbridge
