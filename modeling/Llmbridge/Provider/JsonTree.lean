import Llmbridge.Provider.JsonKeys

/-!
# The tree of a grammar derivation

What `json::parse` is for: the value a concrete tree of the grammar stands for,
as the parser's own `Value` with views into the text, and the documents the
parser promises to accept.
-/

namespace Llmbridge
namespace Json

open Rfc8259

/-! ## Values of concrete trees -/

/-- The type of a container. -/
def containerType : Kind → ValueType
  | .array => .array
  | .object => .object

/-- The view of an item's key, the item starting at `«at»`; arrays have none. -/
def headView («at» : Nat) : {kind : Kind} → Head kind → View
  | .array, _ => {}
  | .object, key =>
      { «at» := «at» + (Key.pre key).bytes.length + 1,
        bytes := (Key.name key).bytes }

mutual

/-- The value of a tree whose text starts at `«at»`. -/
def valueAt («at» : Nat) : Rfc8259.Json → Value
  | .lit .null => {}
  | .lit .true => { type := .bool, boolean := true }
  | .lit .false => { type := .bool, boolean := false }
  | .number n => { type := .number, sv := ⟨«at», n.bytes⟩ }
  | .string s => { type := .string, sv := ⟨«at» + 1, s.bytes⟩ }
  | .empty kind inside =>
      { type := containerType kind,
        sv := ⟨«at», (Rfc8259.Json.empty kind inside).render⟩ }
  | .full .array items =>
      { type := .array,
        sv := ⟨«at», (Rfc8259.Json.full .array items).render⟩,
        arr := (entriesAt («at» + 1) items).map fun entry => entry.2 }
  | .full .object items =>
      { type := .object,
        sv := ⟨«at», (Rfc8259.Json.full .object items).render⟩,
        obj := entriesAt («at» + 1) items }

/-- The items in order, each with its key's view. -/
def entriesAt («at» : Nat) : {kind : Kind} → Items kind → List (View × Value)
  | _, .last head pre value _ =>
      [(headView «at» head,
        valueAt («at» + head.render.length + pre.bytes.length) value)]
  | _, .cons head pre value post rest =>
      (headView «at» head,
        valueAt («at» + head.render.length + pre.bytes.length) value) ::
      entriesAt («at» + head.render.length + pre.bytes.length +
        value.render.length + post.bytes.length + 1) rest

end

theorem valueAt_type_object («at» : Nat) (value : Rfc8259.Json) :
    (valueAt «at» value).type = .object ↔ value.isObject = true := by
  match value with
  | .full .object _ | .full .array _ | .empty .array _ | .empty .object _ | .number _
  | .string _ => simp [valueAt, containerType, Json.isObject]
  | .lit l => cases l <;> simp [valueAt, Json.isObject]

theorem valueAt_type_string («at» : Nat) (value : Rfc8259.Json) :
    (valueAt «at» value).type = .string ↔ ∃ s, value = .string s := by
  match value with
  | .full .object _ | .full .array _ | .empty .array _ | .empty .object _ | .number _
  | .string _ => simp [valueAt, containerType]
  | .lit l => cases l <;> simp [valueAt]

/-! ## Opaque members -/

/-- A value without its children. -/
def Value.leaf (value : Value) : Value :=
  { value with arr := [], obj := [] }

/-- A tree without the children of the members so named, at any depth outside
another of them. -/
def Value.erase (names : List Bytes) (value : Value) : Value :=
  { value with
    arr := value.arr.attach.map fun ⟨v, _⟩ => v.erase names
    obj := value.obj.attach.map fun ⟨m, _⟩ =>
      (m.1, if names.contains m.1.bytes then m.2.leaf else m.2.erase names) }
termination_by sizeOf value
decreasing_by
  · rename_i inside
    have smaller := List.sizeOf_lt_of_mem inside
    cases value
    simp only [Value.mk.sizeOf_spec] at smaller ⊢
    omega
  · rename_i inside _
    have smaller := List.sizeOf_lt_of_mem inside
    cases value
    cases m
    simp only [Value.mk.sizeOf_spec, Prod.mk.sizeOf_spec] at smaller ⊢
    omega

theorem Value.erase_eq (names : List Bytes) (value : Value) :
    value.erase names =
      { value with
        arr := value.arr.map (Value.erase names)
        obj := value.obj.map fun m =>
          (m.1, if names.contains m.1.bytes then m.2.leaf else m.2.erase names) } := by
  rw [Value.erase]
  simp only [List.map_attach_eq_pmap, List.pmap_eq_map]

/-- An item's key is one of the names; arrays have no keys. -/
def isOpaque (names : List Bytes) : {kind : Kind} → Head kind → Bool
  | .array, _ => false
  | .object, key => names.contains (Key.name key).bytes

mutual

/-- The value of a tree as it is built with these opaque names. -/
def opaqueAt (names : List Bytes) («at» : Nat) : Rfc8259.Json → Value
  | .lit l => valueAt «at» (.lit l)
  | .number n => valueAt «at» (.number n)
  | .string s => valueAt «at» (.string s)
  | .empty kind inside => valueAt «at» (.empty kind inside)
  | .full .array items =>
      { type := .array,
        sv := ⟨«at», (Rfc8259.Json.full .array items).render⟩,
        arr := (opaqueEntries names («at» + 1) items).map fun entry => entry.2 }
  | .full .object items =>
      { type := .object,
        sv := ⟨«at», (Rfc8259.Json.full .object items).render⟩,
        obj := opaqueEntries names («at» + 1) items }

/-- The items in order as they are built with these opaque names. -/
def opaqueEntries (names : List Bytes) («at» : Nat) :
    {kind : Kind} → Items kind → List (View × Value)
  | _, .last head pre value _ =>
      [(headView «at» head,
        if isOpaque names head then
          (valueAt («at» + head.render.length + pre.bytes.length) value).leaf
        else opaqueAt names («at» + head.render.length + pre.bytes.length) value)]
  | _, .cons head pre value post rest =>
      (headView «at» head,
        if isOpaque names head then
          (valueAt («at» + head.render.length + pre.bytes.length) value).leaf
        else opaqueAt names («at» + head.render.length + pre.bytes.length) value) ::
      opaqueEntries names («at» + head.render.length + pre.bytes.length +
        value.render.length + post.bytes.length + 1) rest

end

mutual

/-- The value built with opaque names is the plain value, erased. -/
theorem opaqueAt_eq_erase (names : List Bytes) («at» : Nat) :
    ∀ value : Rfc8259.Json, opaqueAt names «at» value = (valueAt «at» value).erase names
  | .lit l => by
      rw [opaqueAt, Value.erase_eq]
      cases l <;> simp [valueAt]
  | .number n => by
      rw [opaqueAt, Value.erase_eq]
      simp [valueAt]
  | .string s => by
      rw [opaqueAt, Value.erase_eq]
      simp [valueAt]
  | .empty kind inside => by
      rw [opaqueAt, Value.erase_eq]
      simp [valueAt]
  | .full .array items => by
      rw [opaqueAt, Value.erase_eq, opaqueEntries_eq_erase names («at» + 1) items]
      simp [valueAt]
  | .full .object items => by
      rw [opaqueAt, Value.erase_eq, opaqueEntries_eq_erase names («at» + 1) items]
      simp [valueAt]

theorem opaqueEntries_eq_erase (names : List Bytes) («at» : Nat) :
    {kind : Kind} → (items : Items kind) →
      opaqueEntries names «at» items = (entriesAt «at» items).map fun m =>
        (m.1, if kind = .object ∧ names.contains m.1.bytes = true then m.2.leaf
          else m.2.erase names)
  | .array, .last head pre value _ => by
      rw [opaqueEntries, entriesAt, opaqueAt_eq_erase]
      simp [isOpaque]
  | .object, .last head pre value _ => by
      rw [opaqueEntries, entriesAt, opaqueAt_eq_erase]
      simp [isOpaque, headView]
  | .array, .cons head pre value post rest => by
      rw [opaqueEntries, entriesAt, opaqueAt_eq_erase, opaqueEntries_eq_erase]
      simp [isOpaque]
  | .object, .cons head pre value post rest => by
      rw [opaqueEntries, entriesAt, opaqueAt_eq_erase, opaqueEntries_eq_erase]
      simp [isOpaque, headView]

end

mutual

/-- Without opaque names the plain value is built. -/
theorem opaqueAt_nil («at» : Nat) :
    ∀ value : Rfc8259.Json, opaqueAt [] «at» value = valueAt «at» value
  | .lit _ | .number _ | .string _ | .empty _ _ => by rw [opaqueAt]
  | .full .array items => by rw [opaqueAt, opaqueEntries_nil, valueAt]
  | .full .object items => by rw [opaqueAt, opaqueEntries_nil, valueAt]

theorem opaqueEntries_nil («at» : Nat) :
    {kind : Kind} → (items : Items kind) →
      opaqueEntries [] «at» items = entriesAt «at» items
  | .array, .last head pre value _ => by
      rw [opaqueEntries, entriesAt, opaqueAt_nil]
      rfl
  | .object, .last head pre value _ => by
      rw [opaqueEntries, entriesAt, opaqueAt_nil]
      rfl
  | .array, .cons head pre value post rest => by
      rw [opaqueEntries, entriesAt, opaqueAt_nil, opaqueEntries_nil]
      rfl
  | .object, .cons head pre value post rest => by
      rw [opaqueEntries, entriesAt, opaqueAt_nil, opaqueEntries_nil]
      rfl

end

/-! ## Accepted documents -/

/-- The key of an item, decoded. -/
def headName : {kind : Kind} → Head kind → List Bytes
  | .array, _ => []
  | .object, key => [unescapeString (Key.name key).bytes]

/-- The decoded keys of the items in order; none in an array. -/
def itemNames : {kind : Kind} → Items kind → List Bytes
  | _, .last head _ _ _ => headName head
  | _, .cons head _ _ _ rest => headName head ++ itemNames rest

mutual

/-- No object in the tree has two keys that decode to the same name. -/
def UniqueKeys : Rfc8259.Json → Prop
  | .lit _ => True
  | .number _ => True
  | .string _ => True
  | .empty _ _ => True
  | .full _ items => (itemNames items).Nodup ∧ UniqueKeysIn items

/-- No object below the items has two keys that decode to the same name. -/
def UniqueKeysIn : {kind : Kind} → Items kind → Prop
  | _, .last _ _ value _ => UniqueKeys value
  | _, .cons _ _ value _ rest => UniqueKeys value ∧ UniqueKeysIn rest

end

/-- The documents of the parser: at most `kMaxDepth` containers open at once,
at most `kMaxNodes` values and, under `Keys::Unique`, no repeated key. -/
structure IsDocument (mode : Keys) (text : Text) : Prop where
  depth : text.value.depth ≤ kMaxDepth
  nodes : text.value.count ≤ kMaxNodes
  keys : mode = .unique → UniqueKeys text.value

/-! ## Escapes -/

/-- The escape sequences in the contents of a string. -/
def countEscapes : Bytes → Nat
  | [] => 0
  | [_] => 0
  | c :: e :: rest =>
      if c = 0x5c then countEscapes rest + 1 else countEscapes (e :: rest)

/-- The escapes in an item's key. -/
def headEscapes : {kind : Kind} → Head kind → Nat
  | .array, _ => 0
  | .object, key => countEscapes (Key.name key).bytes

mutual

/-- The escapes in every string of a tree. -/
def escapesIn : Rfc8259.Json → Nat
  | .lit _ => 0
  | .number _ => 0
  | .string s => countEscapes s.bytes
  | .empty _ _ => 0
  | .full _ items => escapesInItems items

/-- The escapes in every string of the items. -/
def escapesInItems : {kind : Kind} → Items kind → Nat
  | _, .last head _ value _ => headEscapes head + escapesIn value
  | _, .cons head _ value _ rest =>
      headEscapes head + escapesIn value + escapesInItems rest

end

end Json
end Llmbridge
