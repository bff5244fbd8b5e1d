import Llmbridge.Provider.JsonSpans

/-!
# Writing JSON by appending

A translator writes its body as bytes one after another, with values copied into
it.  What such a text is the rendering of is said here part by part: a text writes
a tree with a given meaning, members make an object, and elements make an array.
-/

namespace Llmbridge
namespace Json

open Rfc8259

/-- The text is one value, with a meaning and without repeated keys. -/
def Writes (text : Bytes) (means : Rfc8259.Json → Prop) : Prop :=
  ∃ tree : Rfc8259.Json, text = tree.render ∧ UniqueKeys tree ∧ means tree

/-- The same with whitespace around the value. -/
def Places (text : Bytes) (means : Rfc8259.Json → Prop) : Prop :=
  ∃ placed : Text, text = placed.render ∧ UniqueKeys placed.value ∧ means placed.value

section Writes

variable {text : Bytes} {means more : Rfc8259.Json → Prop}

theorem Writes.places (writes : Writes text means) : Places text means := by
  obtain ⟨tree, rfl, unique, meant⟩ := writes
  exact ⟨tree.bare, by simp, unique, meant⟩

theorem Writes.mono (writes : Writes text means) (weaker : ∀ tree, means tree → more tree) :
    Writes text more := by
  obtain ⟨tree, shape, unique, meant⟩ := writes
  exact ⟨tree, shape, unique, weaker tree meant⟩

/-- The tree that a text writes is written like that. -/
theorem Writes.exact (writes : Writes text means) :
    Writes text fun tree => means tree ∧ tree.render = text := by
  obtain ⟨tree, shape, unique, meant⟩ := writes
  exact ⟨tree, shape, unique, meant, shape.symm⟩

end Writes

/-! ## Scalars -/

/-- The tree is the string with these raw contents. -/
def IsString (raw : Bytes) (tree : Rfc8259.Json) : Prop :=
  ∃ s : Chars, tree = .string s ∧ s.bytes = raw

/-- The tree is the number with this text. -/
def IsNumeral (raw : Bytes) (tree : Rfc8259.Json) : Prop :=
  ∃ n : Number, tree = .number n ∧ n.bytes = raw

/-- The tree is written like this. -/
def IsSpan (raw : Bytes) (tree : Rfc8259.Json) : Prop :=
  tree.render = raw

theorem writes_string {raw : Bytes} (chars : IsChars raw) :
    Writes (quoted raw) (IsString raw) :=
  ⟨.string ⟨raw, chars⟩, rfl, trivial, ⟨raw, chars⟩, rfl, rfl⟩

/-- A string without escapes. -/
theorem writes_plain {raw : Bytes} (plain : raw.all isPlain = true) :
    Writes (quoted raw) (IsString raw) :=
  writes_string (IsChars.of_plain (List.all_eq_true.mp plain))

theorem writes_number {raw : Bytes} (number : IsNumber raw) :
    Writes raw (IsNumeral raw) :=
  ⟨.number ⟨raw, number⟩, rfl, trivial, ⟨raw, number⟩, rfl, rfl⟩

theorem writes_lit (l : Lit) : Writes l.text fun tree => tree = .lit l :=
  ⟨.lit l, rfl, trivial, rfl⟩

/-- A container's span, byte for byte. -/
theorem writes_span {v : Value} (spanned : Spanned v)
    (container : v.type = .object ∨ v.type = .array) :
    Writes v.sv.bytes (IsSpan v.sv.bytes) := by
  rcases container with object | array
  · obtain ⟨tree, shape, unique, -⟩ := spanned.object object
    exact ⟨tree, shape, unique, shape.symm⟩
  · obtain ⟨tree, shape, unique⟩ := spanned.array array
    exact ⟨tree, shape, unique, shape.symm⟩

/-! ## Objects -/

/-- A member as a writer puts it: its name, the text of its value and what that
stands for. -/
structure Part where
  name : Bytes
  text : Bytes
  means : Rfc8259.Json → Prop

/-- The text of a member. -/
def Part.written (p : Part) : Bytes :=
  quoted p.name ++ 0x3a :: p.text

/-- The name stands for itself and the text is a value. -/
structure Part.Ok (p : Part) : Prop where
  plain : ∀ c ∈ p.name, isPlain c = true
  places : Places p.text p.means

theorem Part.ok {name text : Bytes} {means : Rfc8259.Json → Prop}
    (plain : name.all isPlain = true) (places : Places text means) :
    Part.Ok ⟨name, text, means⟩ :=
  ⟨List.all_eq_true.mp plain, places⟩

/-- What a member says: a name and what its value stands for. -/
abbrev Field := Bytes × (Rfc8259.Json → Prop)

/-- What a written member says. -/
def Part.field (p : Part) : Field :=
  (p.name, p.means)

/-- The tree is an object whose members say this, in order. -/
def IsObject (fields : List Field) (tree : Rfc8259.Json) : Prop :=
  ∃ members : List Member, tree = Json.ofMembers members ∧
    List.Forall₂ (fun (f : Field) (m : Member) => m.1.bytes = f.1 ∧ f.2 m.2.value)
      fields members

/-- A name of plain bytes stands for itself. -/
theorem unescapeString_of_plain {name : Bytes} (plain : ∀ c ∈ name, isPlain c = true) :
    unescapeString name = name := by
  apply unescapeString_of_unescaped
  rintro c member rfl
  exact absurd (plain _ member) (by decide)

/-- Members that are values, one tree for each. -/
theorem members_of_parts {parts : List Part} (ok : ∀ p ∈ parts, p.Ok) :
    ∃ members : List Member,
      List.Forall₂ (fun (f : Field) (m : Member) => m.1.bytes = f.1 ∧ f.2 m.2.value)
        (parts.map Part.field) members ∧
      members.map Member.text = parts.map Part.written ∧
      (members.map fun m => unescapeString m.1.bytes) = parts.map Part.name ∧
      ∀ m ∈ members, UniqueKeys m.2.value := by
  induction parts with
  | nil => exact ⟨[], List.Forall₂.nil, rfl, rfl, by simp⟩
  | cons p parts inductionHypothesis =>
      obtain ⟨members, related, texts, names, unique⟩ :=
        inductionHypothesis fun q member => ok q (List.mem_cons_of_mem p member)
      obtain ⟨plain, placed, shape, uniqueHere, meant⟩ := ok p (List.mem_cons_self ..)
      refine ⟨(⟨p.name, IsChars.of_plain plain⟩, placed) :: members,
        List.Forall₂.cons ⟨rfl, meant⟩ related, ?_, ?_, ?_⟩
      · rw [List.map_cons, List.map_cons, texts, Member.text, Part.written, shape]
      · rw [List.map_cons, List.map_cons, names, unescapeString_of_plain plain]
      · intro m member
        rcases List.mem_cons.mp member with rfl | later
        · exact uniqueHere
        · exact unique m later

/-- The tree written from members with names of their own: each member has the text of
its part. -/
theorem writes_parts
    {parts : List Part} (ok : ∀ p ∈ parts, p.Ok) (distinct : (parts.map Part.name).Nodup) :
    Writes (0x7b :: (commaJoin (parts.map Part.written) ++ [0x7d])) fun tree =>
      ∃ members : List Member, tree = Json.ofMembers members ∧
        members.map Member.text = parts.map Part.written ∧
        List.Forall₂ (fun (f : Field) (m : Member) => m.1.bytes = f.1 ∧ f.2 m.2.value)
          (parts.map Part.field) members := by
  obtain ⟨members, related, texts, names, unique⟩ := members_of_parts ok
  refine ⟨Json.ofMembers members, ?_, ?_, members, rfl, texts, related⟩
  · rw [Json.ofMembers_render, texts]
  · apply uniqueKeys_ofMembers _ unique
    rw [names]
    exact distinct

/-- An object written from members with names of their own. -/
theorem writes_object
    {parts : List Part} (ok : ∀ p ∈ parts, p.Ok) (distinct : (parts.map Part.name).Nodup) :
    Writes (0x7b :: (commaJoin (parts.map Part.written) ++ [0x7d]))
      (IsObject (parts.map Part.field)) :=
  (writes_parts ok distinct).mono fun _ meant => by
    obtain ⟨members, shape, -, related⟩ := meant
    exact ⟨members, shape, related⟩

/-- The names of an object so written. -/
theorem IsObject.names {fields : List Field} {tree : Rfc8259.Json}
    (isObject : IsObject fields tree) :
    tree.isObject = true ∧
      (tree.members.map fun member => member.1.bytes) = fields.map Prod.fst := by
  obtain ⟨members, rfl, related⟩ := isObject
  refine ⟨Json.isObject_ofMembers members, ?_⟩
  rw [Json.members_ofMembers]
  induction related with
  | nil => rfl
  | cons same _ inductionHypothesis =>
      simp only [List.map_cons] at inductionHypothesis ⊢
      rw [same.1, inductionHypothesis]

/-- What follows a first member. -/
def moreParts (parts : List Part) : Bytes :=
  (parts.map Part.written).flatMap fun text => 0x2c :: text

@[simp] theorem moreParts_nil : moreParts [] = [] := rfl

@[simp] theorem moreParts_append (front back : List Part) :
    moreParts (front ++ back) = moreParts front ++ moreParts back := by
  simp [moreParts]

@[simp] theorem moreParts_cons (p : Part) (rest : List Part) :
    moreParts (p :: rest) = 0x2c :: (quoted p.name ++ 0x3a :: (p.text ++ moreParts rest)) := by
  simp [moreParts, Part.written]

/-- The text of an object, from its first member on. -/
def objectText (first : Part) (rest : List Part) : Bytes :=
  0x7b :: (quoted first.name ++ 0x3a :: (first.text ++ (moreParts rest ++ [0x7d])))

theorem objectText_eq (first : Part) (rest : List Part) :
    objectText first rest = 0x7b :: (commaJoin ((first :: rest).map Part.written) ++ [0x7d]) := by
  rw [objectText, List.map_cons, commaJoin_cons]
  simp [Part.written, moreParts]

/-- An object written from a first member and what follows it. -/
theorem writes_members
    {text : Bytes} (first : Part) (rest : List Part) (shape : text = objectText first rest)
    (ok : ∀ p ∈ first :: rest, p.Ok) (distinct : ((first :: rest).map Part.name).Nodup) :
    Writes text (IsObject ((first :: rest).map Part.field)) := by
  rw [shape, objectText_eq]
  exact writes_object ok distinct

/-- The first member of that name. -/
def named (name : Bytes) (tree : Rfc8259.Json) : Option Rfc8259.Json :=
  (tree.members.find? fun member => member.1.bytes = name).map (·.2)

/-- The member of a name, as it was written. -/
theorem IsObject.named {fields : List Field} {tree : Rfc8259.Json}
    (isObject : IsObject fields tree) {name : Bytes} {f : Field}
    (found : fields.find? (fun g => g.1 = name) = some f) :
    ∃ value, Json.named name tree = some value ∧ f.2 value := by
  obtain ⟨members, rfl, related⟩ := isObject
  rw [Json.named, Json.members_ofMembers]
  induction related with
  | nil => exact absurd found (by simp)
  | @cons g m fields members here _ inductionHypothesis =>
      by_cases same : g.1 = name
      · rw [List.find?_cons_of_pos (by simpa using same), Option.some.injEq] at found
        subst found
        refine ⟨m.2.value, ?_, here.2⟩
        rw [List.map_cons, List.find?_cons_of_pos (by simpa [here.1] using same)]
        rfl
      · rw [List.find?_cons_of_neg (by simpa using same)] at found
        rw [List.map_cons, List.find?_cons_of_neg (by simpa [here.1] using same)]
        exact inductionHypothesis found

/-- No member has a name that no field has. -/
theorem IsObject.named_none {fields : List Field} {tree : Rfc8259.Json}
    (isObject : IsObject fields tree) {name : Bytes} (absent : name ∉ fields.map Prod.fst) :
    Json.named name tree = none := by
  rw [← isObject.names.2] at absent
  rw [Json.named, Option.map_eq_none_iff, List.find?_eq_none]
  intro member inside same
  exact absent (List.mem_map.mpr ⟨member, inside, by simpa using same⟩)

/-- The members of an object say what it says. -/
theorem IsObject.says {fields : List Field} {tree : Rfc8259.Json}
    (isObject : IsObject fields tree) :
    List.Forall₂ (fun (f : Field) (member : Chars × Rfc8259.Json) =>
      member.1.bytes = f.1 ∧ f.2 member.2) fields tree.members := by
  obtain ⟨members, rfl, related⟩ := isObject
  rw [Json.members_ofMembers]
  exact List.forall₂_map_right_iff.mpr related

/-- What items say of values may be changed to what each of them says as well. -/
theorem forall₂_changed_iff {α β : Type} {items : List α} {values : List β}
    {means other : α → β → Prop} {condition : α → Prop}
    (related : List.Forall₂ means items values)
    (decides : ∀ item ∈ items, ∀ value, means item value →
      (other item value ↔ condition item)) :
    List.Forall₂ other items values ↔ ∀ item ∈ items, condition item := by
  induction related with
  | nil => simp
  | @cons item value items values here _ inductionHypothesis =>
      rw [List.forall₂_cons, List.forall_mem_cons,
        decides item (List.mem_cons_self ..) value here,
        inductionHypothesis fun i inside => decides i (List.mem_cons_of_mem _ inside)]

/-- What the members of an object say may be changed to what each of them says as
well. -/
theorem IsObject.map_iff {α : Type} {items : List α} {tree : Rfc8259.Json}
    {name : α → Bytes} {means other : α → Rfc8259.Json → Prop} {condition : α → Prop}
    (isObject : IsObject (items.map fun item => (name item, means item)) tree)
    (decides : ∀ item ∈ items, ∀ value, means item value →
      (other item value ↔ condition item)) :
    IsObject (items.map fun item => (name item, other item)) tree ↔
      ∀ item ∈ items, condition item := by
  constructor
  · intro changed item inside
    have before := isObject.says
    have after := changed.says
    rw [List.forall₂_map_left_iff] at before after
    refine (forall₂_changed_iff before fun i within member meant => ?_).mp after item inside
    exact (and_iff_right meant.1).trans (decides i within member.2 meant.2)
  · intro holds
    obtain ⟨members, rfl, related⟩ := isObject
    rw [List.forall₂_map_left_iff] at related
    refine ⟨members, rfl, List.forall₂_map_left_iff.mpr ?_⟩
    refine (forall₂_changed_iff related fun i within member meant => ?_).mpr holds
    exact (and_iff_right meant.1).trans (decides i within member.2.value meant.2)

/-! ## Arrays -/

/-- The tree is an array with these elements, in order. -/
def IsArray (means : List (Rfc8259.Json → Prop)) (tree : Rfc8259.Json) : Prop :=
  ∃ elements : List Rfc8259.Json, tree = Json.ofElements elements ∧
    List.Forall₂ (fun (mean : Rfc8259.Json → Prop) element => mean element) means elements

/-- The elements of an array say what it says. -/
theorem IsArray.elements {means : List (Rfc8259.Json → Prop)} {tree : Rfc8259.Json}
    (isArray : IsArray means tree) :
    List.Forall₂ (fun (mean : Rfc8259.Json → Prop) element => mean element) means
      tree.elements := by
  obtain ⟨elements, rfl, related⟩ := isArray
  rw [Rfc8259.Json.elements_ofElements]
  exact related

/-- What the elements of an array say may be changed to what each of them says as
well. -/
theorem IsArray.map_iff {α : Type} {items : List α} {tree : Rfc8259.Json}
    {means other : α → Rfc8259.Json → Prop} {condition : α → Prop}
    (isArray : IsArray (items.map means) tree)
    (decides : ∀ item ∈ items, ∀ element, means item element →
      (other item element ↔ condition item)) :
    IsArray (items.map other) tree ↔ ∀ item ∈ items, condition item := by
  obtain ⟨elements, rfl, related⟩ := isArray
  rw [List.forall₂_map_left_iff] at related
  rw [← forall₂_changed_iff related decides]
  constructor
  · intro changed
    have after := changed.elements
    rw [Rfc8259.Json.elements_ofElements, List.forall₂_map_left_iff] at after
    exact after
  · intro changed
    exact ⟨elements, rfl, List.forall₂_map_left_iff.mpr changed⟩

/-- An array written from its elements. -/
theorem writes_array
    {texts : List Bytes} {means : List (Rfc8259.Json → Prop)}
    (writes : List.Forall₂ Writes texts means) :
    Writes (0x5b :: (commaJoin texts ++ [0x5d])) (IsArray means) := by
  obtain ⟨elements, related, shapes, unique⟩ :
      ∃ elements : List Rfc8259.Json,
        List.Forall₂ (fun (mean : Rfc8259.Json → Prop) element => mean element)
          means elements ∧
        elements.map Rfc8259.Json.render = texts ∧ ∀ e ∈ elements, UniqueKeys e := by
    induction writes with
    | nil => exact ⟨[], List.Forall₂.nil, rfl, by simp⟩
    | cons here _ inductionHypothesis =>
        obtain ⟨elements, related, shapes, unique⟩ := inductionHypothesis
        obtain ⟨tree, rfl, uniqueHere, meant⟩ := here
        refine ⟨tree :: elements, List.Forall₂.cons meant related, by simp [shapes], ?_⟩
        intro e member
        rcases List.mem_cons.mp member with rfl | later
        · exact uniqueHere
        · exact unique e later
  exact ⟨Json.ofElements elements, by rw [Json.ofElements_render, shapes],
    uniqueKeys_ofElements unique, elements, rfl, related⟩

end Json
end Llmbridge
