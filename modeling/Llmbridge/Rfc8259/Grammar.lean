import Mathlib

/-!
# The RFC 8259 grammar as a type of concrete trees

A concrete tree keeps every byte of the text it stands for, whitespace
included, and its tokens carry the proof that they are tokens.  A byte string
is a JSON text exactly when it is the rendering of such a tree, so the type of
trees is the grammar.  Arrays and objects share one family of comma-separated
items, indexed by the kind of container, because they differ only in the key an
object writes before each value.
-/

namespace Llmbridge
namespace Rfc8259

abbrev Byte := UInt8

abbrev Bytes := List UInt8

/-- The bytes of an ASCII literal. -/
def ascii (text : String) : Bytes :=
  text.toList.map fun c => c.toUInt8

/-! ## Byte classes -/

/-- The four whitespace bytes of section 2. -/
def isWs (c : Byte) : Bool :=
  c == 0x20 || c == 0x09 || c == 0x0a || c == 0x0d

/-- A decimal digit. -/
def isDigit (c : Byte) : Bool :=
  0x30 ≤ c && c ≤ 0x39

/-- A hexadecimal digit in either case. -/
def isHex (c : Byte) : Bool :=
  isDigit c || (0x61 ≤ c && c ≤ 0x66) || (0x41 ≤ c && c ≤ 0x46)

/-- The bytes that follow a backslash in a two-byte escape. -/
def isEscape (c : Byte) : Bool :=
  c == 0x22 || c == 0x5c || c == 0x2f || c == 0x62 || c == 0x66 ||
    c == 0x6e || c == 0x72 || c == 0x74

/-- A byte that stands for itself inside a string: no quote, no backslash and
no control byte.  Bytes from 0x80 on are unrestricted. -/
def isPlain (c : Byte) : Bool :=
  c != 0x22 && c != 0x5c && 0x20 ≤ c

/-! ## Tokens -/

/-- A run of whitespace. -/
structure Ws where
  bytes : Bytes
  ok : ∀ c ∈ bytes, isWs c = true

/-- The contents of a string, between its quotes. -/
inductive IsChars : Bytes → Prop
  | nil : IsChars []
  | plain (c : Byte) (rest : Bytes) :
      isPlain c = true → IsChars rest → IsChars (c :: rest)
  | escape (c : Byte) (rest : Bytes) :
      isEscape c = true → IsChars rest → IsChars (0x5c :: c :: rest)
  | unicode (a b c d : Byte) (rest : Bytes) :
      isHex a = true → isHex b = true → isHex c = true → isHex d = true →
      IsChars rest → IsChars (0x5c :: 0x75 :: a :: b :: c :: d :: rest)

/-- String contents with their grammar. -/
structure Chars where
  bytes : Bytes
  ok : IsChars bytes

/-- One or more digits. -/
def IsDigits (s : Bytes) : Prop :=
  s ≠ [] ∧ ∀ c ∈ s, isDigit c = true

/-- `int`: a zero standing alone, or digits that do not start with one. -/
def IsInt (s : Bytes) : Prop :=
  s = [0x30] ∨ (IsDigits s ∧ s.head? ≠ some 0x30)

/-- `[ frac ]`: nothing, or a point and digits. -/
def IsFrac (s : Bytes) : Prop :=
  s = [] ∨ ∃ digits, IsDigits digits ∧ s = 0x2e :: digits

/-- `[ exp ]`: nothing, or an `e` in either case, an optional sign and
digits. -/
def IsExp (s : Bytes) : Prop :=
  s = [] ∨ ∃ e sign digits, (e = 0x65 ∨ e = 0x45) ∧
    (sign = [] ∨ sign = [0x2b] ∨ sign = [0x2d]) ∧
    IsDigits digits ∧ s = e :: (sign ++ digits)

/-- `[ minus ] int [ frac ] [ exp ]`. -/
def IsNumber (s : Bytes) : Prop :=
  ∃ minus int frac exp, (minus = [] ∨ minus = [0x2d]) ∧
    IsInt int ∧ IsFrac frac ∧ IsExp exp ∧
    s = minus ++ (int ++ (frac ++ exp))

/-- A number with its grammar. -/
structure Number where
  bytes : Bytes
  ok : IsNumber bytes

/-- The three literal names. -/
inductive Lit
  | true
  | false
  | null
  deriving DecidableEq, Repr

/-- The text of a literal name. -/
def Lit.text : Lit → Bytes
  | .true => ascii "true"
  | .false => ascii "false"
  | .null => ascii "null"

/-- The two kinds of container. -/
inductive Kind
  | array
  | object
  deriving DecidableEq, Repr

/-- `[` or `{`. -/
def Kind.opens : Kind → Byte
  | .array => 0x5b
  | .object => 0x7b

/-- `]` or `}`. -/
def Kind.closes : Kind → Byte
  | .array => 0x5d
  | .object => 0x7d

/-- An object member up to its colon: the key with whitespace around it. -/
structure Key where
  pre : Ws
  name : Chars
  post : Ws

/-- What an item holds before its value: nothing in an array, a key in an
object. -/
def Head : Kind → Type
  | .array => Unit
  | .object => Key

/-! ## Trees -/

mutual

/-- A JSON value with every byte of its text. -/
inductive Json
  | lit (l : Lit)
  | number (n : Number)
  | string (s : Chars)
  | empty (kind : Kind) (inside : Ws)
  | full (kind : Kind) (items : Items kind)

/-- The comma-separated items of a container, at least one. -/
inductive Items : Kind → Type
  | last {kind : Kind} (head : Head kind) (pre : Ws) (value : Json)
      (post : Ws) : Items kind
  | cons {kind : Kind} (head : Head kind) (pre : Ws) (value : Json)
      (post : Ws) (rest : Items kind) : Items kind

end

/-! ## Rendering -/

/-- A quoted string. -/
def quoted (contents : Bytes) : Bytes :=
  0x22 :: (contents ++ [0x22])

/-- A key through its colon. -/
def Key.render (key : Key) : Bytes :=
  key.pre.bytes ++ (quoted key.name.bytes ++ (key.post.bytes ++ [0x3a]))

/-- What stands before an item's value. -/
def Head.render : {kind : Kind} → Head kind → Bytes
  | .array, _ => []
  | .object, key => Key.render key

mutual

/-- The text of a value. -/
def Json.render : Json → Bytes
  | .lit l => l.text
  | .number n => n.bytes
  | .string s => quoted s.bytes
  | .empty kind inside => kind.opens :: (inside.bytes ++ [kind.closes])
  | .full kind items => kind.opens :: (items.render ++ [kind.closes])

/-- The text of the items, without the brackets. -/
def Items.render : {kind : Kind} → Items kind → Bytes
  | _, .last head pre value post =>
      head.render ++ (pre.bytes ++ (value.render ++ post.bytes))
  | _, .cons head pre value post rest =>
      head.render ++ (pre.bytes ++ (value.render ++
        (post.bytes ++ (0x2c :: rest.render))))

end

mutual

/-- Containers open at the deepest point. -/
def Json.depth : Json → Nat
  | .lit _ => 0
  | .number _ => 0
  | .string _ => 0
  | .empty _ _ => 1
  | .full _ items => items.depth + 1

/-- The largest depth among the items. -/
def Items.depth : {kind : Kind} → Items kind → Nat
  | _, .last _ _ value _ => value.depth
  | _, .cons _ _ value _ rest => max value.depth rest.depth

end

mutual

/-- Values in a tree, the root and every nested one. -/
def Json.count : Json → Nat
  | .lit _ => 1
  | .number _ => 1
  | .string _ => 1
  | .empty _ _ => 1
  | .full _ items => items.count + 1

/-- Values among the items. -/
def Items.count : {kind : Kind} → Items kind → Nat
  | _, .last _ _ value _ => value.count
  | _, .cons _ _ value _ rest => value.count + rest.count

end

/-- The items of an object in order, as keys and values. -/
def Items.members : Items .object → List (Chars × Json)
  | .last key _ value _ => [(Key.name key, value)]
  | .cons key _ value _ rest => (Key.name key, value) :: rest.members

/-- The elements of an array in order. -/
def Items.elements : Items .array → List Json
  | .last _ _ value _ => [value]
  | .cons _ _ value _ rest => value :: rest.elements

/-- The members of an object; none for any other value. -/
def Json.members : Json → List (Chars × Json)
  | .full .object items => items.members
  | _ => []

/-- The value is an object. -/
def Json.isObject : Json → Bool
  | .full .object _ => true
  | .empty .object _ => true
  | _ => false

/-- The value is a string. -/
def Json.isString : Json → Bool
  | .string _ => true
  | _ => false

/-- An object is empty or has members. -/
theorem Json.isObject_cases {value : Json} (isObject : value.isObject = true) :
    (∃ inside, value = .empty .object inside) ∨
      ∃ items, value = .full .object items := by
  cases value with
  | lit | number | string => exact Bool.noConfusion isObject
  | empty kind inside =>
      cases kind with
      | array => exact Bool.noConfusion isObject
      | object => exact Or.inl ⟨inside, rfl⟩
  | full kind items =>
      cases kind with
      | array => exact Bool.noConfusion isObject
      | object => exact Or.inr ⟨items, rfl⟩

theorem Json.members_of_not_object {value : Json} (notObject : value.isObject = false) :
    value.members = [] := by
  cases value with
  | lit | number | string => rfl
  | empty kind => cases kind <;> rfl
  | full kind =>
      cases kind with
      | array => rfl
      | object => exact Bool.noConfusion notObject

theorem Json.exists_string {value : Json} (isString : value.isString = true) :
    ∃ s, value = .string s := by
  cases value with
  | string s => exact ⟨s, rfl⟩
  | lit | number | empty | full => exact Bool.noConfusion isString

/-- A JSON text: one value with whitespace around it. -/
structure Text where
  pre : Ws
  value : Json
  post : Ws

/-- The bytes of a text. -/
def Text.render (text : Text) : Bytes :=
  text.pre.bytes ++ (text.value.render ++ text.post.bytes)

end Rfc8259
end Llmbridge
