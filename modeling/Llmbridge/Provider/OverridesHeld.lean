import Llmbridge.Provider.JsonParse
import Llmbridge.Provider.MemberEdits
import Llmbridge.Provider.Overrides

/-!
# What the overrides make of a held body

`apply_overrides` writes its body in one pass over edits taken from the parse:
the contents of the overridden members, and one insertion behind the root's brace
for those the client left out.  Where it accepts, what it writes is the text of
the root so edited.
-/

namespace Llmbridge
namespace Translate

open Rfc8259
open BodyScan (Placed placed rootMembers)
open JsonScan (rawMembers)
open MemberEdits

/-! ## The members of a parse -/

/-- The parser's members of an object are those of its text, with their places. -/
theorem entriesAt_eq_placed :
    ∀ (items : Items .object) (sep «at» : Nat),
      Json.entriesAt «at» items = (placed sep «at» items).map fun p =>
        ((⟨p.nameAt, p.name⟩ : Json.View), Json.valueAt p.valueAt p.value)
  | .last key pre value post, sep, «at» => by
      rw [Json.entriesAt, placed, List.map_singleton]
      rfl
  | .cons key pre value post rest, sep, «at» => by
      rw [Json.entriesAt, placed, List.map_cons,
        entriesAt_eq_placed rest ((Placed.of sep «at» key pre value).stop +
          post.bytes.length)]
      rfl

theorem valueAt_obj («at» : Nat) (value : Json) :
    (Json.valueAt «at» value).obj = (Placed.inside «at» value).map fun p =>
      ((⟨p.nameAt, p.name⟩ : Json.View), Json.valueAt p.valueAt p.value) := by
  match value with
  | .full .object items =>
      rw [Json.valueAt, Placed.inside, ← entriesAt_eq_placed items («at» + 1) («at» + 1)]
  | .full .array _ | .empty _ _ | .number _ | .string _ =>
      rw [Json.valueAt]
      rfl
  | .lit l => cases l <;> rw [Json.valueAt] <;> rfl

theorem itemNames_eq_placed :
    ∀ (items : Items .object) (sep «at» : Nat),
      Json.itemNames items =
        ((placed sep «at» items).map Placed.name).map Json.unescapeString
  | .last key pre value post, sep, «at» => by
      rw [Json.itemNames, placed]
      rfl
  | .cons key pre value post rest, sep, «at» => by
      rw [Json.itemNames, placed, List.map_cons, List.map_cons,
        itemNames_eq_placed rest ((Placed.of sep «at» key pre value).stop +
          post.bytes.length)]
      rfl

/-- Names that decode to different names differ. -/
theorem names_nodup {value : Json} (unique : Json.UniqueKeys value) («at» : Nat) :
    ((Placed.inside «at» value).map Placed.name).Nodup := by
  match value, unique with
  | .full .object items, unique =>
      rw [Json.UniqueKeys, itemNames_eq_placed items («at» + 1) («at» + 1)] at unique
      exact unique.1.of_map
  | .full .array _, _ | .empty _ _, _ | .lit _, _ | .number _, _ | .string _, _ =>
      exact List.nodup_nil

/-! ## The edits of a body -/

/-- An edit by its end. -/
def BodyEdit.edit (e : BodyEdit) : Edit Byte :=
  ⟨e.at, e.at + e.drop, e.text⟩

theorem applyEdits_eq
    {body : Bytes} {edits : List BodyEdit} {cursor : Nat}
    (ordered : Edit.Ordered (edits.map BodyEdit.edit))
    (start : ∀ e ∈ edits, cursor ≤ e.at) (inside : ∀ e ∈ edits, e.at < body.length) :
    applyEdits body edits cursor =
      Edit.rewrite body (edits.map BodyEdit.edit) cursor body.length := by
  induction edits generalizing cursor with
  | nil =>
      rw [applyEdits, List.map_nil, Edit.rewrite, slice, List.take_of_length_le]
      rw [List.length_drop]
  | cons e edits inductionHypothesis =>
      have after := start e List.mem_cons_self
      have before := inside e List.mem_cons_self
      obtain ⟨-, behind⟩ := ordered.head_le
      have rest := @inductionHypothesis (e.at + e.drop) ordered.tail
        (fun f member => behind f.edit (List.mem_map_of_mem member))
        fun f member => inside f (List.mem_cons_of_mem e member)
      have here : ¬ (e.edit.at < cursor ∨ body.length ≤ e.edit.at) := by
        simp only [BodyEdit.edit]
        omega
      rw [applyEdits, List.map_cons, Edit.rewrite, if_neg here, rest]
      rfl

/-! ## The overrides -/

/-- The overrides that are set, by name. -/
def Overrides.set (o : Overrides) : List (Bytes × Bytes) :=
  ((ascii "model", o.model) :: o.upserts).filter fun m => !m.2.isEmpty

theorem Overrides.set_eq (o : Overrides) :
    o.set = ([(ascii "model", o.model)].filter fun m => !m.2.isEmpty) ++
      o.upserts.filter fun m => !m.2.isEmpty :=
  List.filter_append [(ascii "model", o.model)] o.upserts

/-- What goes for a member of the root. -/
def Overrides.change (o : Overrides) (p : Placed) : Change :=
  match o.set.find? fun m => m.1 = p.name with
  | some m => .contents (plainChars m.2)
  | none => .keep

/-- The overrides of members that the root does not have. -/
def Overrides.absent (o : Overrides) (ps : List Placed) : List (Bytes × Bytes) :=
  o.set.filter fun m => !ps.any fun p => p.name = m.1

/-- The names of the overrides differ. -/
theorem set_nodup (o : Overrides) : (o.set.map Prod.fst).Nodup := by
  have names : (((ascii "model", o.model) :: o.upserts).map Prod.fst).Nodup := by
    change [ascii "model", ascii "service_tier", ascii "speed",
      ascii "inference_geo"].Nodup
    decide
  exact names.sublist (List.filter_sublist.map Prod.fst)

/-- The edit of a member by the override of its name. -/
def editFor (m : Bytes × Bytes) (p : Placed) : List BodyEdit :=
  if p.name = m.1 then [⟨p.valueAt + 1, p.value.render.length - 2, m.2⟩] else []

/-- The object a parse found, with the places of its members. -/
structure HasMembers (v : Json.Value) (ps : List Placed) : Prop where
  type : v.type = .object
  obj : v.obj = ps.map fun p =>
    ((⟨p.nameAt, p.name⟩ : Json.View), Json.valueAt p.valueAt p.value)
  nodup : (ps.map Placed.name).Nodup

section Root

variable {body : Bytes} {v : Json.Value} {ps : List Placed}

theorem HasMembers.find (root : HasMembers v ps) (key : Bytes) :
    v.find key = (ps.find? fun p => p.name = key).map fun p =>
      Json.valueAt p.valueAt p.value := by
  rw [Json.Value.find, if_pos root.type, root.obj, List.find?_map, Option.map_map]
  rfl

theorem HasMembers.edits (root : HasMembers v ps) (m : Bytes × Bytes) :
    ps.flatMap (editFor m) = ((ps.find? fun p => p.name = m.1).map fun p =>
      (⟨p.valueAt + 1, p.value.render.length - 2, m.2⟩ : BodyEdit)).toList := by
  refine flatMap_once Placed.name _ ?_
  refine (List.pairwise_map.mp root.nodup).imp ?_
  intro a b differs second first
  exact differs (first.trans second.symm)

theorem HasMembers.strings
    (root : HasMembers v ps) {key : Bytes} {p : Placed}
    (found : ps.find? (fun p => p.name = key) = some p)
    (isString : p.value.isString = true) :
    ∀ q ∈ ps, q.name = key → q.value.isString = true := by
  intro q member named
  have there := List.mem_of_find?_eq_some found
  have same : p.name = key := by simpa using List.find?_some found
  rw [List.inj_on_of_nodup_map root.nodup member there (named.trans same.symm)]
  exact isString

/-- What the parse says of a string's view. -/
theorem string_view
    {value : Json} {«at» : Nat} (isString : (Json.valueAt «at» value).type = .string) :
    value.isString = true ∧ (Json.valueAt «at» value).sv.at = «at» + 1 ∧
      (Json.valueAt «at» value).sv.bytes.length = value.render.length - 2 := by
  obtain ⟨s, rfl⟩ := (Json.valueAt_type_string _ _).mp isString
  refine ⟨rfl, ?_, ?_⟩
  · rw [Json.valueAt]
  · rw [Json.valueAt, Json.render, quoted]
    simp

variable (body) in
/-- One key that is taken: an edit of the member of that name, or one more member
to insert. -/
theorem upsert_accepted
    (root : HasMembers v ps) {u : Upserts} {m : Bytes × Bytes} (isSet : m.2 ≠ [])
    (plain : PlainMember m) {es : List Entry} (ins : u.ins = membersText es)
    (accepted : (upsert body v u m.1 m.2).1 = true) :
    (upsert body v u m.1 m.2).2.edits = u.edits ++ ps.flatMap (editFor m) ∧
      (upsert body v u m.1 m.2).2.ins = membersText
        (es ++ if ps.any fun p => p.name = m.1 then [] else [Entry.plain m]) ∧
      ∀ p ∈ ps, p.name = m.1 → p.value.isString = true := by
  have nonempty : ¬ m.2.isEmpty = true := by simpa using isSet
  rw [upsert, if_neg nonempty, root.find] at accepted ⊢
  rw [root.edits]
  cases found : ps.find? fun p => p.name = m.1 with
  | some p =>
      simp only [found, Option.map_some, Option.toList_some] at accepted ⊢
      have named : (ps.any fun p => p.name = m.1) = true := by
        rw [List.any_eq_true]
        refine ⟨p, List.mem_of_find?_eq_some found, ?_⟩
        exact List.find?_some (p := fun p : Placed => decide (p.name = m.1)) found
      rw [if_pos named, List.append_nil]
      by_cases good : (Json.valueAt p.valueAt p.value).type ≠ .string ∨
          inBody body (Json.valueAt p.valueAt p.value).sv = false
      · rw [if_pos good] at accepted
        exact Bool.noConfusion accepted
      · rw [if_neg good]
        obtain ⟨isString, start, size⟩ := string_view (by
          by_contra other
          exact good (Or.inl other))
        refine ⟨?_, ?_, root.strings found isString⟩
        · rw [start, size]
          split <;> rfl
        · rw [← ins]
          split <;> rfl
  | none =>
      have absent := List.find?_eq_none.mp found
      simp only [found, Option.map_none, Option.toList_none, List.append_nil] at accepted ⊢
      have unnamed : ¬ (ps.any fun p => p.name = m.1) = true := by
        rw [Bool.not_eq_true, List.any_eq_false]
        exact absent
      refine ⟨trivial, ?_, fun p member named => absurd (by simpa using named)
        (absent p member)⟩
      rw [if_neg unnamed, membersText_concat, ← ins, Entry.plain_render plain,
        ← membersText_isEmpty, ← ins]
      split <;> rfl

variable (body) in
/-- The keys in turn. -/
theorem upsertAll_accepted
    (ms : List (Bytes × Bytes)) (u : Upserts) (es : List Entry)
    (root : HasMembers v ps) (plain : ∀ m ∈ ms, PlainMember m) (ins : u.ins = membersText es)
    (accepted : (upsertAll body v ms u).1 = true) :
    let set := ms.filter fun m => !m.2.isEmpty
    (upsertAll body v ms u).2.edits =
        u.edits ++ set.flatMap (fun m => ps.flatMap (editFor m)) ∧
      (upsertAll body v ms u).2.ins = membersText (es ++
        (set.filter fun m => !ps.any fun p => p.name = m.1).map Entry.plain) ∧
      ∀ m ∈ set, ∀ p ∈ ps, p.name = m.1 → p.value.isString = true := by
  induction ms generalizing u es with
  | nil =>
      rw [upsertAll]
      simp [ins]
  | cons m ms inductionHypothesis =>
      have others := fun n member => plain n (List.mem_cons_of_mem m member)
      rw [upsertAll] at accepted ⊢
      by_cases isSet : m.2 = []
      · have skipped : upsert body v u m.1 m.2 = (true, u) := by
          rw [upsert, if_pos (by simp [isSet])]
        rw [skipped] at accepted ⊢
        rw [List.filter_cons_of_neg (by simp [isSet])]
        exact inductionHypothesis _ _ others ins accepted
      · cases taken : upsert body v u m.1 m.2 with
        | mk ok next =>
            have step := upsert_accepted body root isSet
              (plain m List.mem_cons_self) ins
            rw [taken] at step accepted
            cases ok with
            | false => exact Bool.noConfusion accepted
            | true =>
                obtain ⟨edits, inserted, strings⟩ := step rfl
                obtain ⟨allEdits, allInserted, allStrings⟩ :=
                  inductionHypothesis _ _ others inserted accepted
                rw [List.filter_cons_of_pos (by simpa using isSet)]
                refine ⟨?_, ?_, ?_⟩
                · rw [allEdits, edits, List.flatMap_cons, List.append_assoc]
                · rw [allInserted, List.append_assoc]
                  cases named : ps.any fun p => p.name = m.1 with
                  | true => rw [List.filter_cons_of_neg (by simp [named])]; rfl
                  | false => rw [List.filter_cons_of_pos (by simp [named])]; rfl
                · intro n member
                  rcases List.mem_cons.mp member with rfl | member
                  · exact strings
                  · exact allStrings n member

/-- The edit of the model. -/
theorem modelEdits_accepted
    (root : HasMembers v ps) {model : Bytes} {edits : List BodyEdit}
    (taken : (if model.isEmpty then some []
      else
        match v.find (ascii "model") with
        | none => none
        | some m =>
            if m.type ≠ .string ∨ inBody body m.sv = false then none
            else some [(⟨m.sv.at, m.sv.bytes.length, model⟩ : BodyEdit)]) = some edits) :
    let set := [(ascii "model", model)].filter fun m => !m.2.isEmpty
    edits = set.flatMap (fun m => ps.flatMap (editFor m)) ∧
      (set.filter fun m => !ps.any fun p => p.name = m.1) = [] ∧
      ∀ m ∈ set, ∀ p ∈ ps, p.name = m.1 → p.value.isString = true := by
  intro set
  by_cases none : model.isEmpty = true
  · rw [if_pos none, Option.some.injEq] at taken
    have empty : set = [] := List.filter_cons_of_neg (by simp [none])
    rw [empty]
    exact ⟨taken.symm, rfl, by simp⟩
  · rw [if_neg none, root.find] at taken
    have single : set = [(ascii "model", model)] := by
      rw [show set = _ from List.filter_cons_of_pos (by simp [none])]
      rfl
    rw [single, List.flatMap_singleton, root.edits]
    cases found : ps.find? fun p => p.name = ascii "model" with
    | none => simp [found] at taken
    | some p =>
        rw [found, Option.map_some] at taken
        dsimp only at taken
        by_cases good : (Json.valueAt p.valueAt p.value).type ≠ .string ∨
            inBody body (Json.valueAt p.valueAt p.value).sv = false
        · rw [if_pos good] at taken
          simp at taken
        · rw [if_neg good, Option.some.injEq] at taken
          obtain ⟨isString, start, size⟩ := string_view (by
            by_contra other
            exact good (Or.inl other))
          have named : (ps.any fun p => p.name = ascii "model") = true := by
            rw [List.any_eq_true]
            refine ⟨p, List.mem_of_find?_eq_some found, ?_⟩
            exact List.find?_some (p := fun p : Placed => decide (p.name = ascii "model")) found
          refine ⟨?_, ?_, ?_⟩
          · rw [← taken, start, size]
            rfl
          · exact List.filter_cons_of_neg (by simp [named])
          · intro m member
            rw [List.mem_singleton] at member
            subst member
            exact root.strings found isString

end Root

/-! ## The edits in order -/

section Sorted

variable {o : Overrides} {ps : List Placed} {i j : Nat}

/-- The edits of a member, by name. -/
theorem change_edits
    (plain : ∀ m ∈ o.set, PlainMember m) {p : Placed}
    (string : ∀ m ∈ o.set, p.name = m.1 → p.value.isString = true) :
    (o.set.flatMap fun m => editFor m p).map BodyEdit.edit = (o.change p).edits p := by
  have named : (o.set.flatMap fun m => editFor m p) =
      ((o.set.find? fun m => m.1 = p.name).map fun m =>
        (⟨p.valueAt + 1, p.value.render.length - 2, m.2⟩ : BodyEdit)).toList := by
    have once : o.set.Pairwise fun a b => b.1 = p.name → a.1 ≠ p.name := by
      refine (List.pairwise_map.mp (set_nodup o)).imp ?_
      intro a b differs second first
      exact differs (first.trans second.symm)
    rw [← flatMap_once Prod.fst _ once]
    refine List.flatMap_congr fun m _ => ?_
    rw [editFor]
    exact if_congr eq_comm rfl rfl
  rw [named, Overrides.change]
  cases found : o.set.find? fun m => m.1 = p.name with
  | none => rfl
  | some m =>
      have member := List.mem_of_find?_eq_some found
      have same : m.1 = p.name := by simpa using List.find?_some found
      have size := Placed.two_le_of_isString (string m member same.symm)
      rw [Option.map_some, Option.toList_some, List.map_singleton]
      simp only [Change.edits, BodyEdit.edit, plainChars_bytes (plain m member).2,
        Placed.stop]
      congr 2
      omega

/-- What the overrides collect, put in order, are the edits of the members. -/
theorem sorted_edits
    (within : ∀ p ∈ ps, Within p i j) (ordered : ps.Pairwise fun p q => p.stop ≤ q.sep)
    (plain : ∀ m ∈ o.set, PlainMember m)
    (strings : ∀ m ∈ o.set, ∀ p ∈ ps, p.name = m.1 → p.value.isString = true) :
    let sorted := (o.set.flatMap fun m => ps.flatMap (editFor m)).insertionSort
      fun e f => e.at ≤ f.at
    sorted.map BodyEdit.edit = editsOf o.change ps ∧
      ∀ e ∈ sorted, i ≤ e.at ∧ e.at < j := by
  have inside : ∀ p ∈ ps, ∀ e ∈ o.set.flatMap fun m => editFor m p,
      p.sep < e.at ∧ e.at < p.stop := by
    intro p member e edit
    rw [List.mem_flatMap] at edit
    obtain ⟨m, inSet, edit⟩ := edit
    rw [editFor] at edit
    split at edit
    · next named =>
        obtain ⟨-, sep, -, -⟩ := within p member
        have size := Placed.two_le_of_isString (strings m inSet p member named)
        rw [List.mem_singleton] at edit
        subst edit
        simp only [Placed.stop]
        omega
    · simp at edit
  have ascending : (ps.flatMap fun p => o.set.flatMap fun m => editFor m p).Pairwise
      fun e f => e.at < f.at := by
    refine List.pairwise_flatMap.mpr ⟨fun p member => ?_, ?_⟩
    · have single := change_edits plain fun m inSet named =>
        strings m inSet p member named
      have few : ((o.change p).edits p).length ≤ 1 := by
        cases o.change p <;> simp [Change.edits]
      rw [← single, List.length_map] at few
      generalize o.set.flatMap (fun m => editFor m p) = edits at few ⊢
      rcases edits with _ | ⟨e, _ | ⟨f, more⟩⟩
      · exact List.Pairwise.nil
      · exact List.pairwise_singleton _ e
      · simp at few
    · refine ordered.imp_of_mem ?_
      intro p q first second before e inFirst f inSecond
      have left := inside p first e inFirst
      have right := inside q second f inSecond
      omega
  have same := sort_eq BodyEdit.at (perm_flatMap_comm o.set ps editFor) ascending
  intro sorted
  rw [show sorted = _ from same]
  refine ⟨?_, fun e member => ?_⟩
  · rw [List.map_flatMap, editsOf]
    exact List.flatMap_congr fun p member =>
      change_edits plain fun m inSet named => strings m inSet p member named
  · rw [List.mem_flatMap] at member
    obtain ⟨p, inside', edit⟩ := member
    have place := inside p inside' e edit
    have span := within p inside'
    have start := span.start
    have stop := span.stop
    omega

end Sorted

/-! ## Accepted overrides -/

/-- Whether a body's root has members is seen behind its brace. -/
theorem insertion_accepted
    {body ins bytes : Bytes} {text : Text} {«at» : Nat} (split : body = text.render)
    (isObject : text.value.isObject = true)
    (taken : insertion body (Json.valueAt text.pre.bytes.length text.value) ins =
      some («at», bytes)) :
    «at» = text.pre.bytes.length + 1 ∧
      (bytes = ins ++ if (rootMembers text).isEmpty then [] else [0x2c]) ∧
      ∀ p ∈ rootMembers text, 0x5c ∉ p.name := by
  rw [insertion] at taken
  split at taken
  · simp at taken
  split at taken
  · simp at taken
  next escaped =>
  have unescaped : ∀ p ∈ rootMembers text, 0x5c ∉ p.name := by
    intro p member slash
    apply escaped
    rw [valueAt_obj, List.any_map, List.any_eq_true]
    exact ⟨p, member, List.contains_iff_mem.mpr slash⟩
  have start : (Json.valueAt text.pre.bytes.length text.value).sv.at =
      text.pre.bytes.length := by
    match text.value, isObject with
    | .empty .object _, _ | .full .object _, _ => rw [Json.valueAt]
  rw [start, Option.some.injEq, Prod.mk.injEq] at taken
  obtain ⟨place, taken⟩ := taken
  refine ⟨place.symm, ?_, unescaped⟩
  obtain ⟨pre, value, post⟩ := text
  obtain ⟨inside, rfl⟩ | ⟨e, rest, rfl⟩ := object_cases isObject
  · have behind : body.drop (pre.bytes.length + 1) =
        inside.bytes ++ 0x7d :: post.bytes := by
      rw [split, Text.render, Json.render, List.append_cons, ← List.append_assoc]
      simp [Kind.opens, Kind.closes, ← List.drop_drop]
    dsimp only at taken
    rw [behind, List.dropWhile_append_of_pos inside.ok,
      List.dropWhile_cons_of_neg (by decide)] at taken
    rw [← taken]
    simp [rootMembers, Placed.inside]
  · have some : rootMembers ⟨pre, .full .object (ofEntries e rest), post⟩ ≠ [] := by
      rw [show rootMembers ⟨pre, .full .object (ofEntries e rest), post⟩ = _ from
        placed_ofEntries ..]
      exact List.cons_ne_nil _ _
    obtain ⟨more, behind⟩ : ∃ more, body.drop (pre.bytes.length + 1) =
        (Key.pre e.key).bytes ++ 0x22 :: more := by
      rw [split, object_render, ofEntries_render, ← brace_length, List.drop_left]
      simp only [Entry.render, JsonScan.Head.render_object, Key.render, quoted,
        List.append_assoc, List.cons_append]
      exact ⟨_, rfl⟩
    dsimp only at taken
    rw [behind, List.dropWhile_append_of_pos (Key.pre e.key).ok,
      List.dropWhile_cons_of_neg (by decide)] at taken
    rw [← taken, if_pos (by simp), if_neg (by simpa using some)]

theorem rawsOf_keep (text : Text) :
    rawsOf (fun _ => .keep) (rootMembers text) = rawMembers text.value := by
  have both := congrArg (List.map fun m => (m.1, m.2.render))
    (BodyScan.inside_members text.pre.bytes.length text.value)
  simp only [List.map_map] at both
  rw [rawsOf, rawMembers]
  refine Eq.trans ?_ both
  exact List.filterMap_eq_map (f := fun p : Placed => (p.name, p.value.render)) ▸ rfl

theorem quotable_plain {v : Bytes} (safe : quotable v = true) :
    ∀ c ∈ v, isPlain c = true := by
  intro c member
  have good := List.all_eq_true.mp safe c member
  simp only [decide_eq_true_eq] at good
  simp only [isPlain, Bool.and_eq_true, bne_iff_ne, decide_eq_true_eq]
  refine ⟨⟨fun quote => good (by simp [quote]), fun slash => good (by simp [slash])⟩, ?_⟩
  by_contra low
  exact good (Or.inl (UInt8.not_le.mp low))

/-- The overrides of quotable values go in as they are. -/
theorem set_plain
    {o : Overrides}
    (safe : [o.model, o.serviceTier, o.speed, o.inferenceGeo].all quotable = true) :
    ∀ m ∈ (ascii "model", o.model) :: o.upserts, PlainMember m := by
  simp only [List.all_cons, List.all_nil, Bool.and_true, Bool.and_eq_true] at safe
  obtain ⟨model, tier, speed, geo⟩ := safe
  have names : ∀ name ∈ [ascii "model", ascii "service_tier", ascii "speed",
      ascii "inference_geo"], ∀ c ∈ name, isPlain c = true := by
    simp only [← List.all_eq_true]
    decide
  intro m member
  simp only [Overrides.upserts, List.mem_cons, List.not_mem_nil, or_false] at member
  rcases member with rfl | rfl | rfl | rfl
  · exact ⟨names _ (by simp), quotable_plain model⟩
  · exact ⟨names _ (by simp), quotable_plain tier⟩
  · exact ⟨names _ (by simp), quotable_plain speed⟩
  · exact ⟨names _ (by simp), quotable_plain geo⟩

theorem set_of_empty {o : Overrides} (none : o.empty = true) : o.set = [] := by
  simp only [Overrides.empty, Bool.and_eq_true] at none
  simp [Overrides.set, Overrides.upserts, none]

theorem firstStays_change (o : Overrides) (ps : List Placed) :
    firstStays o.change ps = !ps.isEmpty := by
  cases ps with
  | nil => rfl
  | cons p ps =>
      rw [firstStays, Overrides.change]
      cases o.set.find? fun m => m.1 = p.name <;> rfl

theorem change_fits {o : Overrides} {ps : List Placed}
    (strings : ∀ m ∈ o.set, ∀ p ∈ ps, p.name = m.1 → p.value.isString = true) :
    ∀ p ∈ ps, (o.change p).Fits p := by
  intro p member
  rw [Overrides.change]
  split
  · next m found =>
      refine strings m (List.mem_of_find?_eq_some found) p member ?_
      simpa [eq_comm] using List.find?_some found
  · trivial

theorem change_stays (o : Overrides) (ps : List Placed) :
    ∀ p ∈ ps, o.change p ≠ .blank := by
  intro p _
  rw [Overrides.change]
  split <;> simp

/-- What the absent overrides put in behind the root's brace. -/
def Overrides.inserted (o : Overrides) (ps : List Placed) : Bytes :=
  membersText ((o.absent ps).map Entry.plain) ++ if ps.isEmpty then [] else [0x2c]

/-- The insertion behind the root's brace, when an override is absent. -/
def Overrides.insertEdits (o : Overrides) (text : Text) : List (Edit Byte) :=
  if (o.absent (rootMembers text)).isEmpty then []
  else [⟨text.pre.bytes.length + 1, text.pre.bytes.length + 1,
    o.inserted (rootMembers text)⟩]

/-- The pass over the edits collected, with or without members to insert. -/
theorem overridden_rewrite
    {body : Bytes} {text : Text} (split : body = text.render) {o : Overrides}
    (isObject : text.value.isObject = true) (plain : ∀ m ∈ o.set, PlainMember m)
    (strings : ∀ m ∈ o.set, ∀ p ∈ rootMembers text, p.name = m.1 →
      p.value.isString = true) {u : Upserts}
    (edits : u.edits = o.set.flatMap fun m => (rootMembers text).flatMap (editFor m))
    (ins : u.ins = membersText ((o.absent (rootMembers text)).map Entry.plain)) :
    let sorted := u.edits.insertionSort fun e f => e.at ≤ f.at
    let rewritten := Edit.rewrite body
      (o.insertEdits text ++ editsOf o.change (rootMembers text)) 0 body.length
    (u.ins.isEmpty = true → applyEdits body sorted 0 = rewritten) ∧
    (¬ u.ins.isEmpty = true →
      body.take (text.pre.bytes.length + 1) ++
          ((u.ins ++ if (rootMembers text).isEmpty then [] else [0x2c]) ++
            applyEdits body sorted (text.pre.bytes.length + 1)) = rewritten) := by
  intro sorted rewritten
  obtain ⟨within, ordered⟩ := rootMembers_ordered text
  obtain ⟨same, inside⟩ := sorted_edits within ordered plain strings
  rw [← edits] at same inside
  have order := editsOf_ordered within ordered (change_fits strings)
  have pass : ∀ cursor, cursor ≤ text.pre.bytes.length + 1 →
      applyEdits body sorted cursor =
        Edit.rewrite body (editsOf o.change (rootMembers text)) cursor body.length := by
    intro cursor le
    rw [← same]
    refine applyEdits_eq (same ▸ order) (fun e member => ?_) fun e member => ?_
    · exact Nat.le_trans le (inside e member).1
    · rw [split]
      exact (inside e member).2
  have empty : u.ins.isEmpty = (o.absent (rootMembers text)).isEmpty := by
    rw [ins, membersText_isEmpty, List.isEmpty_map]
  constructor
  · intro nothing
    rw [empty] at nothing
    rw [pass 0 (Nat.zero_le _)]
    simp only [rewritten, Overrides.insertEdits, if_pos nothing, List.nil_append]
  · intro something
    rw [empty] at something
    have here : ¬ (text.pre.bytes.length + 1 < 0 ∨
        body.length ≤ text.pre.bytes.length + 1) := by
      obtain ⟨pre, value, post⟩ := text
      rw [split]
      obtain ⟨inside, rfl⟩ | ⟨e, rest, rfl⟩ := object_cases isObject
      · simp [Text.render, Json.render]
      · rw [object_render]
        simp
    rw [pass _ (Nat.le_refl _), ins]
    simp only [rewritten, Overrides.insertEdits, if_neg something, List.singleton_append]
    rw [Edit.rewrite, if_neg here]
    rfl

/-- What an accepted body is, and what `apply_overrides` makes of it. -/
structure Overridden (body : Bytes) (o : Overrides) (text : Text) : Prop where
  split : body = text.render
  isObject : text.value.isObject = true
  document : Json.IsDocument .unique text
  plain : ∀ m ∈ o.set, PlainMember m
  strings : ∀ m ∈ o.set, ∀ p ∈ rootMembers text, p.name = m.1 → p.value.isString = true
  unescaped : o.absent (rootMembers text) ≠ [] → ∀ p ∈ rootMembers text, 0x5c ∉ p.name
  out : (applyOverrides body o).2.2 = Edit.rewrite body
    (o.insertEdits text ++ editsOf o.change (rootMembers text)) 0 body.length

/-- Where `apply_overrides` accepts, its body is an object, and it makes these edits. -/
theorem applyOverrides_overridden {body : Bytes} {o : Overrides} (some : o.empty = false)
    (accepted : (applyOverrides body o).1 = true) :
    ∃ text, Overridden body o text := by
  obtain ⟨made, same⟩ : ∃ made, (applyOverrides body o).2.2 = made := ⟨_, rfl⟩
  have out := same
  rw [applyOverrides, if_neg (by simp [some])] at accepted out
  by_cases safe : [o.model, o.serviceTier, o.speed, o.inferenceGeo].all quotable = true
  swap
  · rw [if_pos safe] at accepted
    exact Bool.noConfusion accepted
  rw [if_neg (not_not.mpr safe)] at accepted out
  cases parsed : Json.parse body with
  | mk v ok =>
      rw [parsed] at accepted out
      dsimp only at accepted out
      by_cases bad : ok = false ∨ v.type ≠ .object
      · rw [if_pos bad] at accepted
        exact Bool.noConfusion accepted
      rw [if_neg bad] at accepted out
      obtain ⟨isOk, isObject⟩ := not_or.mp bad
      have parses : (Json.parse body).2 = true := by
        rw [parsed]
        simpa using isOk
      obtain ⟨text, split, document⟩ := (Json.parse_ok_iff body .unique).mp parses
      have value := Json.parse_value split parses
      rw [parsed] at value
      dsimp only at value
      subst value
      have root : HasMembers (Json.valueAt text.pre.bytes.length text.value)
          (rootMembers text) :=
        ⟨not_not.mp isObject, valueAt_obj _ _, names_nodup (document.keys rfl) _⟩
      have object := (Json.valueAt_type_object _ _).mp root.type
      have plain := set_plain (by simpa using safe)
      split at accepted
      · exact Bool.noConfusion accepted
      · next edits model =>
          rw [model] at out
          dsimp only at out
          obtain ⟨first, present, firstStrings⟩ := modelEdits_accepted root model
          cases looped : upsertAll body (Json.valueAt text.pre.bytes.length text.value)
              o.upserts { edits := edits } with
          | mk ok u =>
              have step := upsertAll_accepted body o.upserts { edits := edits } [] root
                (fun m member => plain m (List.mem_cons_of_mem _ member)) rfl
              rw [looped] at step accepted out
              cases ok with
              | false => exact Bool.noConfusion accepted
              | true =>
                  obtain ⟨others, inserted, otherStrings⟩ := step rfl
                  rw [show ({ edits := edits } : Upserts).edits = edits from rfl, first,
                    ← List.flatMap_append, ← o.set_eq] at others
                  rw [← List.nil_append (List.filter _ (List.filter _ _)), ← present,
                    ← List.filter_append, ← o.set_eq, List.nil_append] at inserted
                  have strings : ∀ m ∈ o.set, ∀ p ∈ rootMembers text, p.name = m.1 →
                      p.value.isString = true := by
                    intro m member
                    rw [o.set_eq, List.mem_append] at member
                    exact member.elim (firstStrings m) (otherStrings m)
                  have plainSet : ∀ m ∈ o.set, PlainMember m := fun m member =>
                    plain m (List.mem_of_mem_filter member)
                  obtain ⟨edited, insertedText⟩ := overridden_rewrite split object plainSet
                    strings others inserted
                  have empty : u.ins.isEmpty = (o.absent (rootMembers text)).isEmpty := by
                    rw [inserted, membersText_isEmpty, List.isEmpty_map]
                    rfl
                  dsimp only at accepted out
                  by_cases nothing : u.ins.isEmpty = true
                  · rw [if_pos nothing] at out
                    refine ⟨text, split, object, document, plainSet, strings, ?_,
                      same.trans (out.symm.trans (edited nothing))⟩
                    intro absent
                    rw [empty, List.isEmpty_iff] at nothing
                    exact absurd nothing absent
                  · rw [if_neg nothing] at accepted out
                    split at accepted
                    · exact Bool.noConfusion accepted
                    · next «at» bytes taken =>
                        rw [taken] at out
                        obtain ⟨rfl, rfl, unescaped⟩ := insertion_accepted split object taken
                        exact ⟨text, split, object, document, plainSet, strings,
                          fun _ => unescaped, same.trans (out.symm.trans (insertedText nothing))⟩

/-- The text an accepted body becomes. -/
theorem Overridden.text {body : Bytes} {o : Overrides} {text : Text}
    (made : Overridden body o text) :
    ∃ text' : Text, (applyOverrides body o).2.2 = text'.render ∧
      rawMembers text'.value =
        ((o.absent (rootMembers text)).map fun m => (m.1, quoted m.2)) ++
          rawsOf o.change (rootMembers text) := by
  have fits := change_fits made.strings
  have written := made.out
  rw [made.split] at written
  have whole : ∀ edited : Bytes, edited ++ Ws.none.bytes = edited := List.append_nil
  cases absent : o.absent (rootMembers text) with
  | nil =>
      obtain ⟨text', edited, members⟩ := edit_root fits (change_stays o _) Ws.none
      refine ⟨text', ?_, members⟩
      rw [made.split, written, Overrides.insertEdits, absent, if_pos List.isEmpty_nil,
        List.nil_append, ← edited, whole]
  | cons m ms =>
      obtain ⟨glue, comma⟩ : ∃ glue : Bytes,
          glue = if (rootMembers text).isEmpty then [] else [0x2c] := ⟨_, rfl⟩
      have glued : if firstStays o.change (rootMembers text) then glue = [0x2c]
          else ∀ c ∈ glue, isWs c = true := by
        rw [firstStays_change, comma]
        cases (rootMembers text).isEmpty <;> simp
      obtain ⟨text', edited, members⟩ :=
        insert_root made.isObject fits (Entry.plain m) (ms.map Entry.plain) glued Ws.none
      refine ⟨text', ?_, ?_⟩
      · rw [made.split, written, Overrides.insertEdits, absent,
          if_neg (by simp), List.singleton_append, Overrides.inserted, absent, List.map_cons,
          ← comma, ← edited, whole]
      · rw [members, ← List.map_cons, ← absent, List.map_map]
        congr 1
        apply List.map_congr_left
        intro other member
        exact Entry.plain_raw (made.plain other (List.mem_of_mem_filter member))

/-- Where `apply_overrides` accepts, it writes the text of the root with the
contents of its overridden members replaced, and with those it does not have put
in. -/
theorem applyOverrides_accepted
    {body : Bytes} {text : Text} (split : body = text.render) {o : Overrides}
    (accepted : (applyOverrides body o).1 = true) :
    ∃ text' : Text, (applyOverrides body o).2.2 = text'.render ∧
      rawMembers text'.value =
        ((o.absent (rootMembers text)).map fun m => (m.1, quoted m.2)) ++
          rawsOf o.change (rootMembers text) := by
  cases none : o.empty with
  | true =>
      have keep : o.change = fun _ => .keep := by
        funext p
        rw [Overrides.change, set_of_empty none]
        rfl
      rw [applyOverrides, if_pos none]
      refine ⟨text, split, ?_⟩
      rw [keep, rawsOf_keep, Overrides.absent, set_of_empty none]
      rfl
  | false =>
      obtain ⟨other, made⟩ := applyOverrides_overridden none accepted
      obtain rfl : other = text := Text.render_injective (made.split.symm.trans split)
      exact made.text

end Translate
end Llmbridge
