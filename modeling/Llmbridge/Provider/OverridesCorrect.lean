import Llmbridge.Provider.OverridesHeld
import Llmbridge.Rfc8259.Build

/-!
# Overrides are exact

An accepted body goes with the members that the overrides name set, with those it
lacks in front, and with nothing else touched: swapping the new texts for the old ones
gives the body back.
-/

namespace Llmbridge

/-! ## An object and its members -/

namespace Rfc8259

theorem Items.count_members (items : Items .object) :
    items.count = (items.members.map fun member => member.2.count).sum := by
  match items with
  | .last _ _ value _ => simp [Items.count, Items.members]
  | .cons _ _ value _ rest =>
      rw [Items.count, Items.members, List.map_cons, List.sum_cons, rest.count_members]

theorem Json.count_members {value : Json} (isObject : value.isObject = true) :
    value.count = (value.members.map fun member => member.2.count).sum + 1 := by
  obtain ⟨inside, rfl⟩ | ⟨items, rfl⟩ := Json.isObject_cases isObject
  · rfl
  · rw [Json.count, Json.members, items.count_members]

theorem Items.depth_le_iff (items : Items .object) (n : Nat) :
    items.depth ≤ n ↔ ∀ member ∈ items.members, member.2.depth ≤ n := by
  match items with
  | .last _ _ value _ => simp [Items.depth, Items.members]
  | .cons _ _ value _ rest =>
      rw [Items.depth, Items.members, Nat.max_le, rest.depth_le_iff]
      simp

theorem Json.depth_le_iff {value : Json} (isObject : value.isObject = true) (n : Nat) :
    value.depth ≤ n + 1 ↔ ∀ member ∈ value.members, member.2.depth ≤ n := by
  obtain ⟨inside, rfl⟩ | ⟨items, rfl⟩ := Json.isObject_cases isObject
  · simp [Json.depth, Json.members]
  · rw [Json.depth, Json.members, Nat.add_le_add_iff_right, items.depth_le_iff]

/-- A value with members is an object. -/
theorem Json.isObject_of_members {value : Json} (some : value.members ≠ []) :
    value.isObject = true := by
  by_contra other
  exact some (Json.members_of_not_object (by simpa using other))

end Rfc8259

namespace Json

open Rfc8259 (Items Bytes)

theorem itemNames_members (items : Items .object) :
    itemNames items = items.members.map fun member => unescapeString member.1.bytes := by
  match items with
  | .last key _ _ _ =>
      rw [itemNames, Items.members]
      rfl
  | .cons key _ _ _ rest =>
      rw [itemNames, Items.members, List.map_cons, itemNames_members rest]
      rfl

theorem uniqueKeysIn_members (items : Items .object) :
    UniqueKeysIn items ↔ ∀ member ∈ items.members, UniqueKeys member.2 := by
  match items with
  | .last _ _ _ _ =>
      rw [UniqueKeysIn, Items.members]
      simp
  | .cons _ _ _ _ rest =>
      rw [UniqueKeysIn, Items.members, uniqueKeysIn_members rest]
      simp

theorem uniqueKeys_members {value : Rfc8259.Json} (isObject : value.isObject = true) :
    UniqueKeys value ↔
      (value.members.map fun member => unescapeString member.1.bytes).Nodup ∧
        ∀ member ∈ value.members, UniqueKeys member.2 := by
  obtain ⟨inside, rfl⟩ | ⟨items, rfl⟩ := Rfc8259.Json.isObject_cases isObject
  · simp [UniqueKeys, Rfc8259.Json.members]
  · rw [UniqueKeys, Rfc8259.Json.members, itemNames_members, uniqueKeysIn_members]

end Json

namespace Translate

open Rfc8259
open BodyScan (Placed placed rootMembers)
open JsonScan (rawMembers)
open MemberEdits
open Edit (Swapped)

/-! ## What the overrides name -/

/-- The override of a name. -/
def Overrides.named (o : Overrides) (name : Bytes) : Option Bytes :=
  (o.set.find? fun m => m.1 = name).map Prod.snd

/-- A root member, with its override. -/
def Overrides.replaced (o : Overrides) (member : Bytes × Bytes) : Bytes × Bytes :=
  (member.1, ((o.named member.1).map quoted).getD member.2)

/-- The overrides of names that no root member has. -/
def Overrides.lacking (o : Overrides) (members : List (Bytes × Bytes)) : List (Bytes × Bytes) :=
  o.set.filter fun m => !members.any fun member => member.1 = m.1

/-- The text put in behind the brace. -/
def Overrides.insertedText (o : Overrides) (members : List (Bytes × Bytes)) : Bytes :=
  commaJoin ((o.lacking members).map fun m => quoted m.1 ++ 0x3a :: quoted m.2) ++
    if members.isEmpty then [] else [0x2c]

/-- What is swapped: nothing for the text put in, and the contents of each overridden
member for its override. -/
def Overrides.swaps (o : Overrides) (members : List (Bytes × Bytes)) :
    List (Bytes × Bytes) :=
  (if (o.lacking members).isEmpty then [] else [([], o.insertedText members)]) ++
    members.filterMap fun member =>
      (o.named member.1).map fun value => ((member.2.drop 1).dropLast, value)

/-- The contents of the root member `service_tier`; none when there is none. -/
def formerTier (members : List (Bytes × Bytes)) : Bytes :=
  match members.find? fun member => member.1 = ascii "service_tier" with
  | some member => (member.2.drop 1).dropLast
  | none => []

/-! ## The members of an accepted body -/

theorem rootMembers_raw (text : Text) :
    ((rootMembers text).map fun p => (p.name, p.value.render)) = rawMembers text.value := by
  have both := congrArg (List.map fun m => (m.1, m.2.render))
    (BodyScan.inside_members text.pre.bytes.length text.value)
  simp only [List.map_map] at both
  exact both

theorem lacking_eq (o : Overrides) (text : Text) :
    o.lacking (rawMembers text.value) = o.absent (rootMembers text) := by
  rw [Overrides.lacking, Overrides.absent, ← rootMembers_raw]
  simp only [List.any_map]
  rfl

theorem change_named (o : Overrides) (p : Placed) :
    o.change p = match o.named p.name with
      | some value => .contents (plainChars value)
      | none => .keep := by
  rw [Overrides.change, Overrides.named]
  cases o.set.find? fun m => m.1 = p.name <;> rfl

theorem named_mem {o : Overrides} {name value : Bytes} (named : o.named name = some value) :
    (name, value) ∈ o.set := by
  rw [Overrides.named, Option.map_eq_some_iff] at named
  obtain ⟨m, found, rfl⟩ := named
  have same : m.1 = name := by simpa using List.find?_some found
  rw [← same]
  exact List.mem_of_find?_eq_some found

section Made

variable {body : Bytes} {o : Overrides} {text : Text}

theorem Overridden.raws (made : Overridden body o text) :
    rawsOf o.change (rootMembers text) = (rawMembers text.value).map o.replaced := by
  rw [rawsOf, ← rootMembers_raw, List.map_map]
  rw [← List.filterMap_eq_map]
  apply List.filterMap_congr
  intro p _
  rw [change_named]
  simp only [Function.comp_apply, Overrides.replaced]
  cases named : o.named p.name with
  | none => rfl
  | some value =>
      have plain := (made.plain _ (named_mem named)).2
      simp only [Change.raw, plainChars_bytes plain, Option.map_some, Option.getD_some]

/-- An overridden member's value is a string. -/
theorem Overridden.isString (made : Overridden body o text) :
    ∀ member ∈ text.value.members, o.named member.1.bytes ≠ none →
      member.2.isString = true := by
  apply (BodyScan.forall_inside text.pre.bytes.length text.value fun name value =>
    o.named name ≠ none → value.isString = true).mp
  intro p member overridden
  obtain ⟨value, named⟩ := Option.ne_none_iff_exists'.mp overridden
  exact made.strings _ (named_mem named) p member rfl

/-- A member as it goes. -/
def Overrides.tree (o : Overrides) (member : Chars × Json) : Json :=
  match o.named member.1.bytes with
  | some value => .string (plainChars value)
  | none => member.2

/-- The members of the tree that is written. -/
theorem Overridden.trees (made : Overridden body o text) {text' : Text}
    (members : rawMembers text'.value =
      ((o.lacking (rawMembers text.value)).map fun m => (m.1, quoted m.2)) ++
        (rawMembers text.value).map o.replaced) :
    text'.value.members.map (fun member => (member.1.bytes, member.2)) =
      ((o.lacking (rawMembers text.value)).map fun m => (m.1, .string (plainChars m.2))) ++
        text.value.members.map fun member => (member.1.bytes, o.tree member) := by
  have injective : Function.Injective fun m : Bytes × Json => (m.1, m.2.render) := by
    rintro ⟨name, tree⟩ ⟨name', tree'⟩ same
    simp only [Prod.mk.injEq] at same
    rw [same.1, Json.render_injective same.2]
  apply List.map_injective_iff.mpr injective
  rw [List.map_map, List.map_append, List.map_map, List.map_map]
  refine members.trans ?_
  congr 1
  · apply List.map_congr_left
    intro m member
    have plain := (made.plain m (List.mem_of_mem_filter member)).2
    simp only [Function.comp_apply, Json.render, plainChars_bytes plain]
  · rw [rawMembers, List.map_map]
    apply List.map_congr_left
    intro member _
    simp only [Function.comp_apply, Overrides.replaced, Overrides.tree]
    cases named : o.named member.1.bytes with
    | none => rfl
    | some value =>
        have plain := (made.plain _ (named_mem named)).2
        simp only [Option.map_some, Option.getD_some, Json.render, plainChars_bytes plain]

/-- A member as it goes is of the size it was. -/
theorem Overridden.tree_same (made : Overridden body o text) {member : Chars × Json}
    (inside : member ∈ text.value.members) :
    (o.tree member).count = member.2.count ∧ (o.tree member).depth = member.2.depth ∧
      (Json.UniqueKeys member.2 → Json.UniqueKeys (o.tree member)) := by
  rw [Overrides.tree]
  cases named : o.named member.1.bytes with
  | none => exact ⟨rfl, rfl, id⟩
  | some value =>
      obtain ⟨s, string⟩ := Json.exists_string (made.isString member inside (by simp [named]))
      rw [string]
      exact ⟨rfl, rfl, fun _ => trivial⟩

/-- The names of the root members that are written differ after unescaping. -/
theorem Overridden.distinct (made : Overridden body o text) {text' : Text}
    (members : rawMembers text'.value =
      ((o.lacking (rawMembers text.value)).map fun m => (m.1, quoted m.2)) ++
        (rawMembers text.value).map o.replaced) :
    ((rawMembers text'.value).map fun m => Json.unescapeString m.1).Nodup := by
  have own : ((rawMembers text.value).map fun m => Json.unescapeString m.1).Nodup := by
    have unique := ((Json.uniqueKeys_members made.isObject).mp (made.document.keys rfl)).1
    rwa [rawMembers, List.map_map]
  have lacking := lacking_eq o text
  have plainName : ∀ m ∈ o.lacking (rawMembers text.value), Json.unescapeString m.1 = m.1 := by
    intro m member
    apply Json.unescapeString_of_unescaped
    rintro c inside rfl
    exact absurd ((made.plain m (List.mem_of_mem_filter member)).1 _ inside) (by decide)
  rw [members, List.map_append, List.map_map, List.map_map, List.nodup_append]
  refine ⟨?_, own, ?_⟩
  · have names : (o.lacking (rawMembers text.value)).map
        ((fun m => Json.unescapeString m.1) ∘ fun m : Bytes × Bytes => (m.1, quoted m.2)) =
        (o.lacking (rawMembers text.value)).map Prod.fst :=
      List.map_congr_left fun m member => plainName m member
    rw [names]
    exact (set_nodup o).sublist (List.filter_sublist.map Prod.fst)
  · intro name inFront other inBack same
    obtain ⟨m, member, rfl⟩ := List.mem_map.mp inFront
    obtain ⟨n, there, rfl⟩ := List.mem_map.mp inBack
    simp only [Function.comp_apply, Overrides.replaced] at same
    have absent : o.absent (rootMembers text) ≠ [] := by
      rw [← lacking]
      exact List.ne_nil_of_mem member
    have written : Json.unescapeString n.1 = n.1 := by
      rw [← rootMembers_raw, List.mem_map] at there
      obtain ⟨p, inside, rfl⟩ := there
      apply Json.unescapeString_of_unescaped
      rintro c slash rfl
      exact made.unescaped absent p inside slash
    rw [plainName m member, written] at same
    have missing := List.of_mem_filter member
    rw [Bool.not_eq_true', List.any_eq_false] at missing
    exact missing n there (by simp [same])

theorem set_ne_nil {o : Overrides} (some : o.empty = false) : o.set ≠ [] := by
  intro none
  rw [Overrides.set, List.filter_eq_nil_iff] at none
  simp only [Overrides.upserts, List.mem_cons, List.not_mem_nil, or_false, forall_eq_or_imp,
    forall_eq, Bool.not_eq_true', Bool.not_eq_false] at none
  obtain ⟨model, tier, speed, geo⟩ := none
  rw [Overrides.empty, model, tier, speed, geo] at some
  exact Bool.noConfusion some

/-- What is written parses while there is room for the members put in. -/
theorem Overridden.accepted (made : Overridden body o text) (some : o.empty = false)
    {text' : Text} (members : rawMembers text'.value =
      ((o.lacking (rawMembers text.value)).map fun m => (m.1, quoted m.2)) ++
        (rawMembers text.value).map o.replaced)
    (room : text.value.count + (o.lacking (rawMembers text.value)).length ≤ Json.kMaxNodes) :
    (Json.parse text'.render).2 = true := by
  have trees := made.trees members
  have distinct := made.distinct members
  have isObject : text'.value.isObject = true := by
    apply Json.isObject_of_members
    intro none
    rw [rawMembers, none, List.map_nil, eq_comm, List.append_eq_nil_iff, List.map_eq_nil_iff,
      List.map_eq_nil_iff] at members
    obtain ⟨nothing, empty⟩ := members
    rw [Overrides.lacking, empty, List.filter_eq_self.mpr (by simp)] at nothing
    exact set_ne_nil some nothing
  have each : ∀ member ∈ text'.value.members, member.2.depth ≤ 63 ∧ Json.UniqueKeys member.2 := by
    intro member inside
    have there : (member.1.bytes, member.2) ∈
        text'.value.members.map fun member => (member.1.bytes, member.2) :=
      List.mem_map_of_mem inside
    rw [trees, List.mem_append] at there
    rcases there with put | kept
    · obtain ⟨m, -, same⟩ := List.mem_map.mp put
      rw [← (Prod.mk.inj same).2]
      exact ⟨Nat.zero_le _, trivial⟩
    · obtain ⟨own, inside', same⟩ := List.mem_map.mp kept
      obtain ⟨-, depth, unique⟩ := made.tree_same inside'
      rw [← (Prod.mk.inj same).2, depth]
      exact ⟨(Json.depth_le_iff made.isObject 63).mp made.document.depth own inside',
        unique (((Json.uniqueKeys_members made.isObject).mp
          (made.document.keys rfl)).2 own inside')⟩
  apply (Json.parse_ok_iff _ .unique).mpr
  refine ⟨text', rfl, ?_, ?_, fun _ => ?_⟩
  · exact (Json.depth_le_iff isObject 63).mpr fun member inside => (each member inside).1
  · have counts := congrArg (List.map fun m => m.2.count) trees
    simp only [List.map_map, List.map_append, Function.comp_def] at counts
    have same : text.value.members.map (fun member => (o.tree member).count) =
        text.value.members.map fun member => member.2.count :=
      List.map_congr_left fun member inside => (made.tree_same inside).1
    have total := congrArg List.sum counts
    rw [same, List.sum_append] at total
    simp only [Json.count, List.map_const', List.sum_replicate, smul_eq_mul, mul_one] at total
    rw [Json.count_members made.isObject] at room
    rw [Json.count_members isObject, total]
    omega
  · apply (Json.uniqueKeys_members isObject).mpr
    refine ⟨?_, fun member inside => (each member inside).2⟩
    rwa [rawMembers, List.map_map] at distinct

/-- The edit of a member swaps the contents of its value. -/
theorem Overridden.member_swap (made : Overridden body o text) {p : Placed}
    (inside : p ∈ rootMembers text) :
    ((o.change p).edits p).map (fun e => (slice body e.at e.stop, e.text)) =
        ((o.named p.name).map fun value => ((p.value.render.drop 1).dropLast, value)).toList ∧
      ∀ e ∈ (o.change p).edits p, p.valueAt < e.at ∧ e.stop < p.stop ∧ e.at ≤ e.stop := by
  rw [change_named]
  cases named : o.named p.name with
  | none => simp [Change.edits]
  | some value =>
      have plain := (made.plain _ (named_mem named)).2
      obtain ⟨s, string⟩ := Json.exists_string (made.strings _ (named_mem named) p inside rfl)
      have root : Located body text.pre.bytes.length text.value.render := by
        rw [made.split]
        exact BodyScan.text_located text
      have stands := BodyScan.inside_stands root p inside
      have located := stands.value
      rw [string, Json.render, quoted] at located
      have contents := slice_located located.tail.split.1
      have stop : p.stop = p.valueAt + (s.bytes.length + 2) := by
        rw [Placed.stop, string]
        simp [Json.render, quoted]
      simp only [Change.edits, List.map_singleton, Option.map_some, Option.toList_some,
        List.mem_singleton, forall_eq, plainChars_bytes plain]
      refine ⟨?_, by omega, by omega, by omega⟩
      rw [string, show p.stop - 1 = p.valueAt + 1 + s.bytes.length by omega, contents]
      simp [Json.render, quoted]

/-- What is put in, as text. -/
theorem Overridden.insertedText (made : Overridden body o text) :
    o.inserted (rootMembers text) = o.insertedText (rawMembers text.value) := by
  rw [Overrides.inserted, Overrides.insertedText, lacking_eq]
  congr 1
  · have entries : ∀ ms : List Entry, membersText ms = commaJoin (ms.map Entry.render) := by
      intro ms
      cases ms with
      | nil => rfl
      | cons m ms => rw [membersText, List.map_cons, commaJoin_cons, List.flatMap_map]
    rw [entries, List.map_map]
    congr 1
    apply List.map_congr_left
    intro m member
    have colon : ascii "\":\"" = [0x22, 0x3a, 0x22] := by decide
    rw [Function.comp_apply, Entry.plain_render (made.plain m (List.mem_of_mem_filter member)),
      colon]
    simp [quoted]
  · rw [← rootMembers_raw, List.isEmpty_map]

/-- What is swapped for what. -/
theorem Overridden.swapped (made : Overridden body o text) :
    Swapped body (applyOverrides body o).2.2 (o.swaps (rawMembers text.value)) := by
  obtain ⟨within, ordered⟩ := rootMembers_ordered text
  have order := editsOf_ordered within ordered (change_fits made.strings)
  have size : text.pre.bytes.length + 1 < body.length := by
    rw [made.split]
    obtain ⟨pre, value, post⟩ := text
    obtain ⟨inside, rfl⟩ | ⟨e, rest, rfl⟩ := object_cases made.isObject
    · simp [Text.render, Json.render]
    · rw [object_render]
      simp
  have inner : ∀ e ∈ editsOf o.change (rootMembers text),
      text.pre.bytes.length + 1 ≤ e.at ∧ e.at < body.length ∧ e.stop ≤ body.length := by
    intro e member
    obtain ⟨p, inside, edit⟩ := List.mem_flatMap.mp member
    have span := within p inside
    have start := span.start
    have sep := span.sep
    have stop := span.stop
    obtain ⟨after, before, forward⟩ := (made.member_swap inside).2 e edit
    rw [← made.split] at stop
    omega
  have outer : ∀ e ∈ o.insertEdits text,
      e.at = text.pre.bytes.length + 1 ∧ e.stop = text.pre.bytes.length + 1 ∧
        e.text = o.inserted (rootMembers text) := by
    intro e member
    rw [Overrides.insertEdits] at member
    split_ifs at member with none
    · cases member
    · rw [List.mem_singleton] at member
      rw [member]
      exact ⟨rfl, rfl, rfl⟩
  have insertOrder : Edit.Ordered (o.insertEdits text) := by
    refine ⟨fun e member => ?_, ?_⟩
    · obtain ⟨start, stop, -⟩ := outer e member
      omega
    · rw [Overrides.insertEdits]
      split_ifs
      · exact List.Pairwise.nil
      · exact List.pairwise_singleton _ _
  have all := insertOrder.append order (text.pre.bytes.length + 1)
    (fun e member => (outer e member).2.1.le) fun e member => (inner e member).1
  have bounds : ∀ e ∈ o.insertEdits text ++ editsOf o.change (rootMembers text),
      e.at < body.length ∧ e.stop ≤ body.length := by
    intro e member
    rw [List.mem_append] at member
    rcases member with put | replaced
    · obtain ⟨start, stop, -⟩ := outer e put
      omega
    · exact (inner e replaced).2
  have swapped : Swapped (slice body 0 body.length) (Edit.rewrite body
      (o.insertEdits text ++ editsOf o.change (rootMembers text)) 0 body.length) _ :=
    Edit.rewrite_swapped all (fun e _ => Nat.zero_le _) bounds (Nat.zero_le _)
  rw [← made.out, slice, List.drop_zero, Nat.sub_zero, List.take_length, List.map_append]
    at swapped
  have inserts : (o.insertEdits text).map (fun e => (slice body e.at e.stop, e.text)) =
      if (o.lacking (rawMembers text.value)).isEmpty then []
      else [([], o.insertedText (rawMembers text.value))] := by
    rw [Overrides.insertEdits, lacking_eq, ← made.insertedText]
    split_ifs
    · rfl
    · rw [List.map_singleton, slice_self]
  have replaces : (editsOf o.change (rootMembers text)).map
      (fun e => (slice body e.at e.stop, e.text)) =
      (rawMembers text.value).filterMap fun member =>
        (o.named member.1).map fun value => ((member.2.drop 1).dropLast, value) := by
    rw [← rootMembers_raw, List.filterMap_map, editsOf, List.map_flatMap]
    rw [List.filterMap_eq_flatMap_toList]
    apply List.flatMap_congr
    intro p member
    exact (made.member_swap member).1
  rwa [inserts, replaces] at swapped

end Made

/-! ## The client's own tier -/

/-- One key changes the tier only when it is the tier's, and its member a string. -/
theorem upsert_hadTier (body : Bytes) (v : Json.Value) (u : Upserts) (key value : Bytes) :
    (upsert body v u key value).2.hadTier = u.hadTier ∨
      key = ascii "service_tier" ∧ value ≠ [] ∧
        ∃ t, v.find key = some t ∧ t.type = .string ∧
          (upsert body v u key value).2.hadTier = t.sv.bytes := by
  unfold upsert
  by_cases none : value.isEmpty = true
  · rw [if_pos none]
    exact Or.inl rfl
  · rw [if_neg none]
    cases found : v.find key with
    | none => exact Or.inl rfl
    | some t =>
        dsimp only
        by_cases bad : t.type ≠ .string ∨ inBody body t.sv = false
        · rw [if_pos bad]
          exact Or.inl rfl
        · rw [if_neg bad]
          by_cases tier : key = ascii "service_tier"
          · rw [if_pos tier]
            refine Or.inr ⟨tier, by simpa using none, t, rfl, ?_, rfl⟩
            by_contra other
            exact bad (Or.inl other)
          · rw [if_neg tier]
            exact Or.inl rfl

/-- The tier that was there is reported where its key is taken. -/
theorem upsert_tier {body : Bytes} {v : Json.Value} {u : Upserts} {value : Bytes}
    (accepted : (upsert body v u (ascii "service_tier") value).1 = true) :
    (upsert body v u (ascii "service_tier") value).2.hadTier =
      if value.isEmpty then u.hadTier
      else match v.find (ascii "service_tier") with
        | some t => t.sv.bytes
        | none => u.hadTier := by
  unfold upsert at accepted ⊢
  by_cases none : value.isEmpty = true
  · rw [if_pos none, if_pos none]
  · rw [if_neg none] at accepted ⊢
    rw [if_neg none]
    cases found : v.find (ascii "service_tier") with
    | none => rfl
    | some t =>
        rw [found] at accepted
        dsimp only at accepted ⊢
        by_cases bad : t.type ≠ .string ∨ inBody body t.sv = false
        · rw [if_pos bad] at accepted
          exact Bool.noConfusion accepted
        · rw [if_neg bad, if_pos rfl]

theorem upsertAll_hadTier (body : Bytes) (v : Json.Value) :
    ∀ (ms : List (Bytes × Bytes)) (u : Upserts), (∀ m ∈ ms, m.1 ≠ ascii "service_tier") →
      (upsertAll body v ms u).2.hadTier = u.hadTier := by
  intro ms
  induction ms with
  | nil =>
      intro u _
      rfl
  | cons m ms inductionHypothesis =>
      intro u others
      have kept := (upsert_hadTier body v u m.1 m.2).resolve_right fun tier =>
        others m List.mem_cons_self tier.1
      rw [upsertAll]
      cases taken : upsert body v u m.1 m.2 with
      | mk ok next =>
          rw [taken] at kept
          cases ok with
          | false => exact kept
          | true =>
              exact (inductionHypothesis next fun n member =>
                others n (List.mem_cons_of_mem m member)).trans kept

/-- Of the keys in turn only the first is the tier's. -/
theorem upserts_hadTier (body : Bytes) (v : Json.Value) (o : Overrides) (u : Upserts) :
    (upsertAll body v o.upserts u).2.hadTier =
      (upsert body v u (ascii "service_tier") o.serviceTier).2.hadTier := by
  rw [Overrides.upserts, upsertAll]
  cases taken : upsert body v u (ascii "service_tier") o.serviceTier with
  | mk ok next =>
      cases ok with
      | false => rfl
      | true =>
          apply upsertAll_hadTier
          intro m member
          simp only [List.mem_cons, List.not_mem_nil, or_false] at member
          rcases member with rfl | rfl
          · exact (by decide : ascii "speed" ≠ ascii "service_tier")
          · exact (by decide : ascii "inference_geo" ≠ ascii "service_tier")

/-- The tier reported is none, or what the upserts of a parsed object found. -/
theorem applyOverrides_hadTier (body : Bytes) (o : Overrides) :
    (applyOverrides body o).2.1 = [] ∧
        ((applyOverrides body o).1 = false ∨ o.empty = true) ∨
      (Json.parse body).2 = true ∧ (Json.parse body).1.type = .object ∧
        ∃ edits, (applyOverrides body o).2.1 =
            (upsertAll body (Json.parse body).1 o.upserts { edits := edits }).2.hadTier ∧
          ((applyOverrides body o).1 = true →
            (upsertAll body (Json.parse body).1 o.upserts { edits := edits }).1 = true) := by
  rw [applyOverrides]
  by_cases none : o.empty = true
  · rw [if_pos none]
    exact Or.inl ⟨rfl, Or.inr none⟩
  rw [if_neg none]
  by_cases unsafeValue :
      ¬ [o.model, o.serviceTier, o.speed, o.inferenceGeo].all quotable = true
  · rw [if_pos unsafeValue]
    exact Or.inl ⟨rfl, Or.inl rfl⟩
  rw [if_neg unsafeValue]
  cases parsed : Json.parse body with
  | mk v ok =>
      dsimp only
      by_cases bad : ok = false ∨ v.type ≠ .object
      · rw [if_pos bad]
        exact Or.inl ⟨rfl, Or.inl rfl⟩
      rw [if_neg bad]
      obtain ⟨isOk, isObject⟩ := not_or.mp bad
      split
      · exact Or.inl ⟨rfl, Or.inl rfl⟩
      · next edits _ =>
          refine Or.inr ⟨by simpa using isOk, not_not.mp isObject, edits, ?_⟩
          cases looped : upsertAll body v o.upserts { edits := edits } with
          | mk ok u =>
              cases ok with
              | false => exact ⟨rfl, fun accepted => Bool.noConfusion accepted⟩
              | true =>
                  dsimp only
                  by_cases nothing : u.ins.isEmpty = true
                  · rw [if_pos nothing]
                    exact ⟨rfl, fun _ => rfl⟩
                  · rw [if_neg nothing]
                    cases insertion body v u.ins with
                    | none => exact ⟨rfl, fun _ => rfl⟩
                    | some place => exact ⟨rfl, fun _ => rfl⟩

theorem find_tier {text : Text} (ok : (Json.parse text.render).2 = true)
    (isObject : (Json.parse text.render).1.type = .object) :
    (Json.parse text.render).1.find (ascii "service_tier") =
      ((rootMembers text).find? fun p => p.name = ascii "service_tier").map fun p =>
        Json.valueAt p.valueAt p.value := by
  obtain ⟨other, whole, document⟩ := (Json.parse_ok_iff _ .unique).mp ok
  obtain rfl : text = other := Text.render_injective whole
  have value := Json.parse_value rfl ok
  have root : HasMembers (Json.parse text.render).1 (rootMembers text) := by
    refine ⟨isObject, ?_, names_nodup (document.keys rfl) _⟩
    rw [value]
    exact valueAt_obj _ _
  exact root.find _

/-- The tier reported is the contents of the root's own. -/
theorem hadTier_mem (body : Bytes) (o : Overrides) :
    (applyOverrides body o).2.1 = [] ∨ o.serviceTier ≠ [] ∧
      ∃ text : Text, body = text.render ∧
        (ascii "service_tier", quoted (applyOverrides body o).2.1) ∈ rawMembers text.value := by
  obtain ⟨none, -⟩ | ⟨ok, isObject, edits, had, -⟩ := applyOverrides_hadTier body o
  · exact Or.inl none
  obtain ⟨text, rfl, -⟩ := (Json.parse_ok_iff _ .unique).mp ok
  rw [upserts_hadTier] at had
  obtain none | ⟨-, isSet, t, found, string, tier⟩ := upsert_hadTier text.render
    (Json.parse text.render).1 { edits := edits } (ascii "service_tier") o.serviceTier
  · exact Or.inl (had.trans none)
  · refine Or.inr ⟨isSet, text, rfl, ?_⟩
    rw [find_tier ok isObject, Option.map_eq_some_iff] at found
    obtain ⟨p, first, rfl⟩ := found
    have named : p.name = ascii "service_tier" := by simpa using List.find?_some first
    obtain ⟨s, shape⟩ := (Json.valueAt_type_string _ _).mp string
    rw [had, tier, ← rootMembers_raw, List.mem_map]
    refine ⟨p, List.mem_of_find?_eq_some first, ?_⟩
    rw [named, shape, Json.valueAt, Json.render]

/-- Where the overrides are accepted, the tier reported is the root's own, when it is
replaced. -/
theorem hadTier_accepted {o : Overrides} (given : o.empty = false) {text : Text}
    (accepted : (applyOverrides text.render o).1 = true) :
    (applyOverrides text.render o).2.1 =
      if o.serviceTier.isEmpty then [] else formerTier (rawMembers text.value) := by
  obtain ⟨-, refused | none⟩ | ⟨ok, isObject, edits, had, took⟩ :=
    applyOverrides_hadTier text.render o
  · rw [refused] at accepted
    exact Bool.noConfusion accepted
  · rw [given] at none
    exact Bool.noConfusion none
  have first : (upsert text.render (Json.parse text.render).1 { edits := edits }
      (ascii "service_tier") o.serviceTier).1 = true := by
    have all := took accepted
    rw [Overrides.upserts, upsertAll] at all
    cases taken : upsert text.render (Json.parse text.render).1 { edits := edits }
        (ascii "service_tier") o.serviceTier with
    | mk ok next =>
        rw [taken] at all
        cases ok with
        | false => exact Bool.noConfusion all
        | true => rfl
  rw [had, upserts_hadTier, upsert_tier first]
  cases unset : o.serviceTier.isEmpty with
  | true => rfl
  | false =>
      have found := find_tier ok isObject
      rw [if_neg Bool.false_ne_true, if_neg Bool.false_ne_true, formerTier,
        ← rootMembers_raw, List.find?_map, found]
      change _ = match ((rootMembers text).find? fun p =>
        p.name = ascii "service_tier").map fun p => (p.name, p.value.render) with
        | some member => (member.2.drop 1).dropLast
        | none => []
      cases member : (rootMembers text).find? fun p => p.name = ascii "service_tier" with
      | none => rfl
      | some p =>
          rw [member, Option.map_some] at found
          have string : (Json.valueAt p.valueAt p.value).type = .string := by
            by_contra other
            rw [upsert, unset, if_neg Bool.false_ne_true, found] at first
            dsimp only at first
            rw [if_pos (Or.inl other)] at first
            exact Bool.noConfusion first
          obtain ⟨s, shape⟩ := (Json.valueAt_type_string _ _).mp string
          simp only [Option.map_some, shape, Json.valueAt, Json.render, quoted,
            List.drop_succ_cons, List.drop_zero, List.dropLast_concat]

/-! ## The batched edit -/

/-- A refusal writes nothing. -/
theorem applyOverrides_refused {body : Bytes} {o : Overrides} (some : o.empty = false)
    (refused : (applyOverrides body o).1 = false) : (applyOverrides body o).2.2 = [] := by
  rw [applyOverrides] at refused ⊢
  rw [if_neg (by simp [some])] at refused ⊢
  by_cases unsafeValue :
      ¬ [o.model, o.serviceTier, o.speed, o.inferenceGeo].all quotable = true
  · rw [if_pos unsafeValue]
  rw [if_neg unsafeValue] at refused ⊢
  cases parsed : Json.parse body with
  | mk v ok =>
      rw [parsed] at refused
      dsimp only at refused ⊢
      by_cases bad : ok = false ∨ v.type ≠ .object
      · rw [if_pos bad]
      rw [if_neg bad] at refused ⊢
      split
      · rfl
      · next edits model =>
          rw [model] at refused
          dsimp only at refused
          cases looped : upsertAll body v o.upserts { edits := edits } with
          | mk ok u =>
              rw [looped] at refused
              cases ok with
              | false => rfl
              | true =>
                  dsimp only at refused ⊢
                  by_cases nothing : u.ins.isEmpty = true
                  · rw [if_pos nothing] at refused
                    exact Bool.noConfusion refused
                  · rw [if_neg nothing] at refused ⊢
                    cases placed : insertion body v u.ins with
                    | none => rfl
                    | some place =>
                        rw [placed] at refused
                        exact Bool.noConfusion refused

/-- What the overrides make of an accepted body. -/
structure Overrides.Makes (o : Overrides) (text text' : Text) : Prop where
  members : rawMembers text'.value =
    ((o.lacking (rawMembers text.value)).map fun m => (m.1, quoted m.2)) ++
      (rawMembers text.value).map o.replaced
  distinct : ((rawMembers text'.value).map fun m => Json.unescapeString m.1).Nodup
  parses : text.value.count + (o.lacking (rawMembers text.value)).length ≤ Json.kMaxNodes →
    (Json.parse text'.render .unique).2 = true
  swapped : Swapped text.render text'.render (o.swaps (rawMembers text.value))

/-- `apply_overrides` edits exactly what it names: refused it writes nothing, and accepted
it writes the body with the root members it lacks in front, the overridden ones replaced
and every other byte as it was. -/
theorem applyOverrides_exact (body : Bytes) (o : Overrides) (some : o.empty = false) :
    ((applyOverrides body o).1 = false → (applyOverrides body o).2.2 = [] ∧
      ((applyOverrides body o).2.1 = [] ∨ ∃ text : Text, body = text.render ∧
        (ascii "service_tier", quoted (applyOverrides body o).2.1) ∈ rawMembers text.value)) ∧
    ((applyOverrides body o).1 = true → ∃ text text' : Text, body = text.render ∧
      (applyOverrides body o).2.2 = text'.render ∧ o.Makes text text' ∧
        (applyOverrides body o).2.1 =
          if o.serviceTier.isEmpty then [] else formerTier (rawMembers text.value)) := by
  constructor
  · intro refused
    refine ⟨applyOverrides_refused some refused, ?_⟩
    exact (hadTier_mem body o).imp_right And.right
  · intro accepted
    obtain ⟨text, made⟩ := applyOverrides_overridden some accepted
    obtain ⟨text', written, members⟩ := made.text
    rw [← lacking_eq, made.raws] at members
    have swapped := made.swapped
    rw [written, made.split] at swapped
    refine ⟨text, text', made.split, written, ⟨members, made.distinct members,
      made.accepted some members, swapped⟩, ?_⟩
    rw [made.split] at accepted ⊢
    exact hadTier_accepted some accepted

/-- The same of a body with a model and a tier. -/
theorem applyOverrides_exact_tier :
    let body := ascii "\x7b\"model\":\"a\",\"service_tier\":\"auto\"\x7d"
    let o : Overrides := { serviceTier := ascii "flex", speed := ascii "fast" }
    o.empty = false ∧ ∃ text text' : Text, body = text.render ∧
      (applyOverrides body o).2.2 = text'.render ∧ o.Makes text text' ∧
        (applyOverrides body o).2.1 =
          if o.serviceTier.isEmpty then [] else formerTier (rawMembers text.value) := by
  intro body o
  refine ⟨by decide, ?_⟩
  exact (applyOverrides_exact body o (by decide)).2 (by decide +kernel)

end Translate
end Llmbridge
