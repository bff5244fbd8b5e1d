import Llmbridge.Provider.JsonParse
import Llmbridge.Rfc8259.Build

/-!
# The spans of a parsed document

A translator copies spans of a parsed body into the body it writes.  Every span of
an accepted document is a piece of the grammar: string contents, a number, or the
text of a container whose objects name no key twice.
-/

namespace Llmbridge
namespace Json

open Rfc8259

/-- What a value's span holds, by the value's type. -/
def SpanOf (v : Value) : Prop :=
  match v.type with
  | .string => IsChars v.sv.bytes
  | .number => IsNumber v.sv.bytes
  | .object => ∃ tree : Rfc8259.Json,
      v.sv.bytes = tree.render ∧ IsDocument .unique tree.bare ∧ tree.isObject = true
  | .array => ∃ tree : Rfc8259.Json, v.sv.bytes = tree.render ∧ UniqueKeys tree
  | _ => True

/-- A value all of whose spans, its own and those below it, are pieces of the
grammar. -/
inductive Spanned : Value → Prop
  | intro (v : Value) : SpanOf v → (∀ w ∈ v.arr, Spanned w) →
      (∀ m ∈ v.obj, Spanned m.2) → Spanned v

namespace Spanned

theorem span {v : Value} (spanned : Spanned v) : SpanOf v := by
  cases spanned with
  | intro _ span _ _ => exact span

theorem arr {v w : Value} (spanned : Spanned v) (member : w ∈ v.arr) : Spanned w := by
  cases spanned with
  | intro _ _ arr _ => exact arr w member

theorem leaf {v : Value} (spanned : Spanned v) : Spanned v.leaf :=
  Spanned.intro _ spanned.span (by simp [Value.leaf]) (by simp [Value.leaf])

theorem find {v w : Value} {key : Bytes} (spanned : Spanned v) (found : v.find key = some w) :
    Spanned w := by
  unfold Value.find at found
  split at found
  · obtain ⟨member, first, rfl⟩ := Option.map_eq_some_iff.mp found
    cases spanned with
    | intro _ _ _ obj => exact obj member (List.mem_of_find?_eq_some first)
  · exact absurd found (by simp)

section Typed

variable {v : Value}

theorem string (spanned : Spanned v) (type : v.type = .string) : IsChars v.sv.bytes := by
  simpa [SpanOf, type] using spanned.span

theorem number (spanned : Spanned v) (type : v.type = .number) : IsNumber v.sv.bytes := by
  simpa [SpanOf, type] using spanned.span

/-- The span of an object is a document of its own. -/
theorem document (spanned : Spanned v) (type : v.type = .object) :
    ∃ tree : Rfc8259.Json,
      v.sv.bytes = tree.render ∧ IsDocument .unique tree.bare ∧ tree.isObject = true := by
  simpa [SpanOf, type] using spanned.span

theorem object (spanned : Spanned v) (type : v.type = .object) :
    ∃ tree : Rfc8259.Json,
      v.sv.bytes = tree.render ∧ UniqueKeys tree ∧ tree.isObject = true := by
  obtain ⟨tree, shape, isDocument, isObject⟩ := spanned.document type
  exact ⟨tree, shape, isDocument.keys rfl, isObject⟩

theorem array (spanned : Spanned v) (type : v.type = .array) :
    ∃ tree : Rfc8259.Json, v.sv.bytes = tree.render ∧ UniqueKeys tree := by
  simpa [SpanOf, type] using spanned.span

/-- A string read with the empty default. -/
theorem strOr (spanned : Spanned v) (key : Bytes) : IsChars (v.strOr key).bytes := by
  unfold Value.strOr
  cases found : v.find key with
  | none => exact IsChars.nil
  | some w =>
      dsimp only
      split
      · rename_i type
        exact (spanned.find found).string type
      · exact IsChars.nil

/-- A number read with a default is a number or the default. -/
theorem numOr (spanned : Spanned v) (key : Bytes) (default : View) :
    IsNumber (v.numOr key default).bytes ∨ v.numOr key default = default := by
  unfold Value.numOr
  cases found : v.find key with
  | none => exact Or.inr rfl
  | some w =>
      dsimp only
      split
      · rename_i type
        exact Or.inl ((spanned.find found).number type)
      · exact Or.inr rfl

end Typed

end Spanned

/-! ## The values of a document -/

mutual

/-- Every value of a document is spanned. -/
theorem spanned_valueAt («at» : Nat) :
    ∀ value : Rfc8259.Json, IsDocument .unique value.bare → Spanned (valueAt «at» value)
  | .lit .null, _ => Spanned.intro _ trivial (by simp [valueAt]) (by simp [valueAt])
  | .lit .true, _ => Spanned.intro _ trivial (by simp [valueAt]) (by simp [valueAt])
  | .lit .false, _ => Spanned.intro _ trivial (by simp [valueAt]) (by simp [valueAt])
  | .number n, _ => Spanned.intro _ n.ok (by simp [valueAt]) (by simp [valueAt])
  | .string s, _ => Spanned.intro _ s.ok (by simp [valueAt]) (by simp [valueAt])
  | .empty .array inside, isDocument =>
      Spanned.intro _ ⟨_, rfl, isDocument.keys rfl⟩ (by simp [valueAt]) (by simp [valueAt])
  | .empty .object inside, isDocument =>
      Spanned.intro _ ⟨_, rfl, isDocument, rfl⟩ (by simp [valueAt]) (by simp [valueAt])
  | .full .array items, isDocument => by
      have entries := spanned_entriesAt («at» + 1) items (isDocument.keys rfl).2
        (Nat.le_of_succ_le isDocument.depth) (Nat.le_of_succ_le isDocument.nodes)
      refine Spanned.intro _ ⟨_, rfl, isDocument.keys rfl⟩ ?_ (by simp [valueAt])
      intro w member
      rw [valueAt] at member
      obtain ⟨entry, inside, rfl⟩ := List.mem_map.mp member
      exact entries entry inside
  | .full .object items, isDocument => by
      have entries := spanned_entriesAt («at» + 1) items (isDocument.keys rfl).2
        (Nat.le_of_succ_le isDocument.depth) (Nat.le_of_succ_le isDocument.nodes)
      refine Spanned.intro _ ⟨_, rfl, isDocument, rfl⟩ (by simp [valueAt]) ?_
      intro entry member
      rw [valueAt] at member
      exact entries entry member

/-- Every value among the items is spanned. -/
theorem spanned_entriesAt («at» : Nat) :
    {kind : Kind} → (items : Items kind) → UniqueKeysIn items →
      items.depth ≤ kMaxDepth → items.count ≤ kMaxNodes →
      ∀ entry ∈ entriesAt «at» items, Spanned entry.2
  | _, .last head pre value _, unique, depth, nodes => by
      intro entry member
      rw [entriesAt, List.mem_singleton] at member
      rw [member]
      exact spanned_valueAt _ value ⟨depth, nodes, fun _ => unique⟩
  | _, .cons head pre value post rest, unique, depth, nodes => by
      rw [Items.depth, max_le_iff] at depth
      rw [Items.count] at nodes
      intro entry member
      rw [entriesAt] at member
      rcases List.mem_cons.mp member with rfl | later
      · exact spanned_valueAt _ value ⟨depth.1, by dsimp only [Json.bare_value]; omega,
          fun _ => unique.1⟩
      · exact spanned_entriesAt _ rest unique.2 depth.2 (by omega) entry later

end

/-- Leaving out the children of some members leaves the other spans as they are. -/
theorem Spanned.erase (names : List Bytes) {v : Value} (spanned : Spanned v) :
    Spanned (v.erase names) := by
  induction spanned with
  | intro v span _ objSpans arr obj =>
      rw [Value.erase_eq]
      refine Spanned.intro _ span ?_ ?_
      · intro w member
        obtain ⟨child, inside, rfl⟩ := List.mem_map.mp member
        exact arr child inside
      · intro m member
        obtain ⟨child, inside, rfl⟩ := List.mem_map.mp member
        dsimp only
        split
        · exact (objSpans child inside).leaf
        · exact obj child inside

/-- The values `parse` hands out under `Keys::Unique`. -/
theorem spanned_parse
    {s : Bytes} {names : List Bytes} (ok : (parse s .unique names).2 = true) :
    Spanned (parse s .unique names).1 := by
  obtain ⟨text, split, isDocument⟩ := (parse_opaque_ok_iff s .unique names).mp ok
  rw [parse_opaque_value split ok]
  have isBare : IsDocument .unique text.value.bare :=
    ⟨isDocument.depth, isDocument.nodes, isDocument.keys⟩
  exact (spanned_valueAt _ _ isBare).erase names

/-! ## Repeated keys in a built tree -/

theorem uniqueKeysIn_ofMembers (first : Member) (rest : List Member) :
    UniqueKeysIn (Items.ofMembers first rest) ↔
      ∀ member ∈ first :: rest, UniqueKeys member.2.value := by
  induction rest generalizing first with
  | nil => rw [Items.ofMembers, UniqueKeysIn]; simp
  | cons second rest inductionHypothesis =>
      rw [Items.ofMembers, UniqueKeysIn, inductionHypothesis]
      simp

theorem itemNames_ofMembers (first : Member) (rest : List Member) :
    itemNames (Items.ofMembers first rest) =
      (first :: rest).map fun member => unescapeString member.1.bytes := by
  induction rest generalizing first with
  | nil => rw [Items.ofMembers, itemNames]; rfl
  | cons second rest inductionHypothesis =>
      rw [Items.ofMembers, itemNames, inductionHypothesis]
      rfl

/-- A built object names no key twice when its members' names differ and their
values name none twice. -/
theorem uniqueKeys_ofMembers
    {members : List Member}
    (distinct : (members.map fun member => unescapeString member.1.bytes).Nodup)
    (below : ∀ member ∈ members, UniqueKeys member.2.value) :
    UniqueKeys (Json.ofMembers members) := by
  cases members with
  | nil => trivial
  | cons first rest =>
      rw [Json.ofMembers, UniqueKeys, itemNames_ofMembers, uniqueKeysIn_ofMembers]
      exact ⟨distinct, below⟩

theorem uniqueKeysIn_ofElements (first : Rfc8259.Json) (rest : List Rfc8259.Json) :
    UniqueKeysIn (Items.ofElements first rest) ↔
      ∀ element ∈ first :: rest, UniqueKeys element := by
  induction rest generalizing first with
  | nil => rw [Items.ofElements, UniqueKeysIn]; simp
  | cons second rest inductionHypothesis =>
      rw [Items.ofElements, UniqueKeysIn, inductionHypothesis]
      simp

theorem uniqueKeys_ofElements
    {elements : List Rfc8259.Json} (below : ∀ element ∈ elements, UniqueKeys element) :
    UniqueKeys (Json.ofElements elements) := by
  cases elements with
  | nil => trivial
  | cons first rest =>
      rw [Json.ofElements, UniqueKeys, Parser.itemNames_array, uniqueKeysIn_ofElements]
      exact ⟨List.nodup_nil, below⟩

end Json
end Llmbridge
