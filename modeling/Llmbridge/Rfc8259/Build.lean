import Llmbridge.Rfc8259.Grammar

/-!
# Building texts of the grammar

A writer that puts its tokens next to each other writes the rendering of a tree
without whitespace.  The trees here are built from lists: an object from its
members, an array from its elements.  A member's value is a text, so that a value
placed byte for byte keeps the whitespace it came with.
-/

namespace Llmbridge
namespace Rfc8259

/-! ## String contents -/

/-- Characters behind characters. -/
theorem IsChars.append {first second : Bytes} (chars : IsChars first)
    (more : IsChars second) : IsChars (first ++ second) := by
  induction chars with
  | nil => exact more
  | plain c rest plain _ inductionHypothesis =>
      exact IsChars.plain c _ plain inductionHypothesis
  | escape c rest escape _ inductionHypothesis =>
      exact IsChars.escape c _ escape inductionHypothesis
  | unicode a b c d rest ha hb hc hd _ inductionHypothesis =>
      exact IsChars.unicode a b c d _ ha hb hc hd inductionHypothesis

/-- Plain bytes are characters. -/
theorem IsChars.of_plain {s : Bytes} (plain : ∀ c ∈ s, isPlain c = true) : IsChars s := by
  induction s with
  | nil => exact IsChars.nil
  | cons c rest inductionHypothesis =>
      exact IsChars.plain c rest (plain c (by simp))
        (inductionHypothesis fun d member => plain d (List.mem_cons_of_mem c member))

/-! ## Separators -/

/-- Texts with a comma between them. -/
def commaJoin : List Bytes → Bytes
  | [] => []
  | [text] => text
  | text :: rest => text ++ 0x2c :: commaJoin rest

/-- The first text, and each other behind a comma. -/
theorem commaJoin_cons (text : Bytes) (rest : List Bytes) :
    commaJoin (text :: rest) = text ++ rest.flatMap fun more => 0x2c :: more := by
  induction rest generalizing text with
  | nil => simp [commaJoin]
  | cons second rest inductionHypothesis =>
      rw [commaJoin, inductionHypothesis, List.flatMap_cons, List.cons_append]
      simp

/-- Two joined parts have a comma between them. -/
theorem commaJoin_append {front back : List Bytes} (before : front ≠ []) (after : back ≠ []) :
    commaJoin (front ++ back) = commaJoin front ++ 0x2c :: commaJoin back := by
  cases front with
  | nil => exact absurd rfl before
  | cons text rest =>
      cases back with
      | nil => exact absurd rfl after
      | cons first more =>
          rw [List.cons_append, commaJoin_cons, commaJoin_cons, commaJoin_cons]
          simp

/-! ## Whitespace -/

/-- No whitespace. -/
def Ws.nil : Ws where
  bytes := []
  ok := by simp

@[simp] theorem Ws.nil_bytes : Ws.nil.bytes = [] := rfl

/-- A value with nothing around it. -/
def Json.bare (value : Json) : Text where
  pre := Ws.nil
  value := value
  post := Ws.nil

@[simp] theorem Json.bare_value (value : Json) : value.bare.value = value := rfl

@[simp] theorem Json.bare_render (value : Json) : value.bare.render = value.render := by
  simp [Json.bare, Text.render]

/-! ## Objects -/

/-- A member: a name and a value, which may have whitespace around it. -/
abbrev Member := Chars × Text

/-- The text of a member. -/
def Member.text (member : Member) : Bytes :=
  quoted member.1.bytes ++ 0x3a :: member.2.render

/-- The key of a built member. -/
def Member.key (member : Member) : Head .object :=
  (⟨Ws.nil, member.1, Ws.nil⟩ : Key)

/-- A key is its name in quotes and a colon. -/
theorem Member.key_render (member : Member) :
    member.key.render = quoted member.1.bytes ++ [0x3a] := by
  simp [Member.key, Head.render, Key.render]

/-- Its name is the member's. -/
theorem Member.key_name (member : Member) : Key.name member.key = member.1 := rfl

/-- The items of an object with these members. -/
def Items.ofMembers (first : Member) : List Member → Items .object
  | [] => .last first.key first.2.pre first.2.value first.2.post
  | second :: rest =>
      .cons first.key first.2.pre first.2.value first.2.post (Items.ofMembers second rest)

/-- The object of these members. -/
def Json.ofMembers : List Member → Json
  | [] => .empty .object Ws.nil
  | first :: rest => .full .object (Items.ofMembers first rest)

/-- Members are written with commas between them. -/
theorem Items.ofMembers_render (first : Member) (rest : List Member) :
    (Items.ofMembers first rest).render =
      commaJoin ((first :: rest).map Member.text) := by
  induction rest generalizing first with
  | nil =>
      rw [Items.ofMembers, Items.render, Member.key_render]
      simp [commaJoin, Member.text, Text.render]
  | cons second rest inductionHypothesis =>
      rw [Items.ofMembers, Items.render, inductionHypothesis, Member.key_render]
      simp [commaJoin, Member.text, Text.render]

/-- An object is its members in braces. -/
theorem Json.ofMembers_render (members : List Member) :
    (Json.ofMembers members).render =
      0x7b :: (commaJoin (members.map Member.text) ++ [0x7d]) := by
  cases members with
  | nil => rfl
  | cons first rest => rw [Json.ofMembers, Json.render, Items.ofMembers_render]; rfl

/-- The members that were given. -/
theorem Items.members_ofMembers (first : Member) (rest : List Member) :
    (Items.ofMembers first rest).members =
      (first :: rest).map fun member => (member.1, member.2.value) := by
  induction rest generalizing first with
  | nil => rw [Items.ofMembers, Items.members, Member.key_name]; rfl
  | cons second rest inductionHypothesis =>
      rw [Items.ofMembers, Items.members, inductionHypothesis, Member.key_name]
      rfl

@[simp] theorem Json.members_ofMembers (members : List Member) :
    (Json.ofMembers members).members =
      members.map fun member => (member.1, member.2.value) := by
  cases members with
  | nil => rfl
  | cons first rest => rw [Json.ofMembers, Json.members, Items.members_ofMembers]

@[simp] theorem Json.isObject_ofMembers (members : List Member) :
    (Json.ofMembers members).isObject = true := by
  cases members <;> rfl

/-! ## Arrays -/

/-- Nothing stands before an element. -/
def noHead : Head .array := ()

/-- An element has nothing in front. -/
theorem noHead_render : noHead.render = [] := rfl

/-- The items of an array of these elements. -/
def Items.ofElements (first : Json) : List Json → Items .array
  | [] => .last noHead Ws.nil first Ws.nil
  | second :: rest => .cons noHead Ws.nil first Ws.nil (Items.ofElements second rest)

/-- The array of these elements. -/
def Json.ofElements : List Json → Json
  | [] => .empty .array Ws.nil
  | first :: rest => .full .array (Items.ofElements first rest)

/-- Elements are written with commas between them. -/
theorem Items.ofElements_render (first : Json) (rest : List Json) :
    (Items.ofElements first rest).render = commaJoin ((first :: rest).map Json.render) := by
  induction rest generalizing first with
  | nil =>
      rw [Items.ofElements, Items.render, noHead_render]
      simp [commaJoin]
  | cons second rest inductionHypothesis =>
      rw [Items.ofElements, Items.render, inductionHypothesis, noHead_render]
      simp [commaJoin]

/-- An array is its elements in brackets. -/
theorem Json.ofElements_render (elements : List Json) :
    (Json.ofElements elements).render =
      0x5b :: (commaJoin (elements.map Json.render) ++ [0x5d]) := by
  cases elements with
  | nil => rfl
  | cons first rest => rw [Json.ofElements, Json.render, Items.ofElements_render]; rfl

/-- The elements of an array; none for any other value. -/
def Json.elements : Json → List Json
  | .full .array items => items.elements
  | _ => []

/-- The elements that were given. -/
theorem Items.elements_ofElements (first : Json) (rest : List Json) :
    (Items.ofElements first rest).elements = first :: rest := by
  induction rest generalizing first with
  | nil => rw [Items.ofElements, Items.elements]
  | cons second rest inductionHypothesis =>
      rw [Items.ofElements, Items.elements, inductionHypothesis]

@[simp] theorem Json.elements_ofElements (elements : List Json) :
    (Json.ofElements elements).elements = elements := by
  cases elements with
  | nil => rfl
  | cons first rest => rw [Json.ofElements, Json.elements, Items.elements_ofElements]

end Rfc8259
end Llmbridge
