import Llmbridge.Rfc8259.Reader

/-!
# The JSON document parser

`json::parse` of `provider/include/provider/json.hpp`: a recursive-descent
parser over one byte string that builds an ordered tree of views into it.  The
parser's `i` is kept together with `rest`, the bytes from `i` on.  A failure
clears `ok` and the walk goes on, as in the source; the callers read `ok` at
the end.  The arena and the reuse of scratch storage between documents hold no
information and are left out; the two stacks on which children wait for their
closing bracket are kept, with their marks.
-/

namespace Llmbridge
namespace Json

open Rfc8259 (Byte Bytes ascii isWs isDigit isHex)

/-- Object keys `parse` accepts: `unique` refuses an object that names a key
twice after unescaping. -/
inductive Keys
  | unique
  | any
  deriving DecidableEq, Repr

/-- Values in one document past which it is refused. -/
def kMaxNodes : Nat := 2 ^ 20

/-- Containers that may be open at once. -/
def kMaxDepth : Nat := 64

/-- A `string_view` into the parsed text: where it starts and what it
holds. -/
structure View where
  «at» : Nat := 0
  bytes : Bytes := []
  deriving DecidableEq, Repr

/-- `Value::Type`. -/
inductive ValueType
  | null
  | bool
  | number
  | string
  | array
  | object
  deriving DecidableEq, Repr

/-- `Value`: `sv` is the raw contents of a string, the text of a number and
the whole span of a container. -/
structure Value where
  type : ValueType := .null
  boolean : Bool := false
  sv : View := {}
  arr : List Value := []
  obj : List (View × Value) := []

/-- `Value::find`: the first member of that name. -/
def Value.find (value : Value) (key : Bytes) : Option Value :=
  if value.type = .object then
    (value.obj.find? fun member => member.1.bytes = key).map (·.2)
  else none

/-- `Value::str_or`. -/
def Value.strOr (value : Value) (key : Bytes) (default : View := {}) : View :=
  match value.find key with
  | some found => if found.type = .string then found.sv else default
  | none => default

/-- `Value::num_or`. -/
def Value.numOr (value : Value) (key : Bytes) (default : View := {}) : View :=
  match value.find key with
  | some found => if found.type = .number then found.sv else default
  | none => default

/-! ## Unescaping -/

/-- The value of a hexadecimal digit. -/
def hexValue (c : Byte) : Option Nat :=
  if 0x30 ≤ c ∧ c ≤ 0x39 then some (c.toNat - 0x30)
  else if 0x61 ≤ c ∧ c ≤ 0x66 then some (c.toNat - 0x61 + 10)
  else if 0x41 ≤ c ∧ c ≤ 0x46 then some (c.toNat - 0x41 + 10)
  else none

/-- Four hexadecimal digits as one number. -/
def hexQuad (a b c d : Byte) : Option Nat := do
  let h₁ ← hexValue a
  let h₂ ← hexValue b
  let h₃ ← hexValue c
  let h₄ ← hexValue d
  return ((h₁ * 16 + h₂) * 16 + h₃) * 16 + h₄

/-- The UTF-8 bytes of a code point. -/
def utf8 (cp : Nat) : Bytes :=
  if cp < 0x80 then [cp.toUInt8]
  else if cp < 0x800 then
    [(0xc0 ||| (cp >>> 6)).toUInt8, (0x80 ||| (cp &&& 0x3f)).toUInt8]
  else if cp < 0x10000 then
    [(0xe0 ||| (cp >>> 12)).toUInt8, (0x80 ||| ((cp >>> 6) &&& 0x3f)).toUInt8,
      (0x80 ||| (cp &&& 0x3f)).toUInt8]
  else
    [(0xf0 ||| (cp >>> 18)).toUInt8, (0x80 ||| ((cp >>> 12) &&& 0x3f)).toUInt8,
      (0x80 ||| ((cp >>> 6) &&& 0x3f)).toUInt8,
      (0x80 ||| (cp &&& 0x3f)).toUInt8]

/-- A two-byte escape's byte; any byte the source does not name stands for
itself. -/
def escapeByte (e : Byte) : Byte :=
  if e = 0x6e then 0x0a
  else if e = 0x72 then 0x0d
  else if e = 0x74 then 0x09
  else if e = 0x62 then 0x08
  else if e = 0x66 then 0x0c
  else e

/-- A surrogate outside a pair is written as U+FFFD. -/
def loneSurrogate (cp : Nat) : Nat :=
  if 0xd800 ≤ cp ∧ cp ≤ 0xdfff then 0xfffd else cp

/-- The low half of a surrogate pair, when `\u` and four hexadecimal digits come
next and name one. -/
def lowSurrogate : Bytes → Option Nat
  | b :: u :: l₁ :: l₂ :: l₃ :: l₄ :: _ =>
      if b = 0x5c ∧ u = 0x75 then
        (hexQuad l₁ l₂ l₃ l₄).filter fun lo => 0xdc00 ≤ lo ∧ lo ≤ 0xdfff
      else none
  | _ => none

/-- What the digits after `\u` decode to, and how many bytes from the `u` on
they take: a pair of surrogates is one code point. -/
def unicodeEscape : Bytes → Option (Bytes × Nat)
  | h₁ :: h₂ :: h₃ :: h₄ :: more =>
      (hexQuad h₁ h₂ h₃ h₄).map fun cp =>
        match lowSurrogate more with
        | some lo =>
            if 0xd800 ≤ cp ∧ cp ≤ 0xdbff then
              (utf8 (0x10000 + ((cp - 0xd800) <<< 10) + (lo - 0xdc00)), 11)
            else (utf8 (loneSurrogate cp), 5)
        | none => (utf8 (loneSurrogate cp), 5)
  | _ => none

/-- The loop of `unescape_append`, `skip` bytes of the input being read
already.  A `\u` that is cut or not hexadecimal ends the decoding; the plain run
the source copies at once is copied byte by byte here. -/
def unescapeFrom : (skip : Nat) → Bytes → Bytes
  | _, [] => []
  | skip + 1, _ :: rest => unescapeFrom skip rest
  | 0, c :: rest =>
      if c ≠ 0x5c then c :: unescapeFrom 0 rest
      else
        match rest with
        | [] => [c]
        | e :: more =>
            if e ≠ 0x75 then escapeByte e :: unescapeFrom 1 rest
            else
              match unicodeEscape more with
              | some (bytes, taken) => bytes ++ unescapeFrom taken rest
              | none => []

/-- `unescape_string`. -/
def unescapeString (raw : Bytes) : Bytes :=
  unescapeFrom 0 raw

/-! ## Repeated keys -/

/-- `std::adjacent_find` on a sorted range came to its end. -/
def noAdjacentEqual : List Bytes → Bool
  | [] => true
  | [_] => true
  | a :: b :: rest => a != b && noAdjacentEqual (b :: rest)

/-- Sort, then look for equal neighbours. -/
def sortedFresh (keys : List Bytes) : Bool :=
  noAdjacentEqual (keys.insertionSort (· ≤ ·))

/-- Each key against every key before it. -/
def pairwiseFresh : List Bytes → Bool
  | [] => true
  | key :: rest => rest.all (fun other => other != key) && pairwiseFresh rest

/-- `Parser::keys_unique`: exact, unescaped only when a key carries a
backslash; pairwise while small, sorted past that. -/
def keysUnique (keys : List Bytes) : Bool :=
  if keys.any fun key => key.contains 0x5c then
    sortedFresh (keys.map unescapeString)
  else if keys.length ≤ 16 then pairwiseFresh keys
  else sortedFresh keys

/-- The filter's bit for a key, from its length and its end bytes. -/
def keyBit (key : Bytes) : Nat :=
  (key.length * 7 +
    (match key.head?, key.getLast? with
      | some front, some back => front.toNat * 3 + back.toNat
      | _, _ => 0)) % 64

/-- The filter's walk: true when every key lands on a bit of its own. -/
def bitsFresh : Nat → List Bytes → Bool
  | _, [] => true
  | seen, key :: rest =>
      if seen.testBit (keyBit key) then false
      else bitsFresh (seen ||| 1 <<< keyBit key) rest

/-- `Parser::keys_fresh`: the filter first, and the exact check only when it
hits or a string since the object opened held an escape. -/
def keysFresh (keys : List Bytes) (escaped : Bool) : Bool :=
  if keys.length < 2 then true
  else if escaped then keysUnique keys
  else if bitsFresh 0 keys then true
  else keysUnique keys

/-! ## The parser -/

/-- The parser's state. -/
structure Parser where
  /-- The text from `i` on. -/
  rest : Bytes
  i : Nat := 0
  nodes : Nat := 0
  ok : Bool := true
  /-- Escapes met so far, in keys and in values. -/
  escapes : Nat := 0
  depth : Nat := 0
  vstack : List Value := []
  mstack : List (View × Value) := []
  /-- The keys of the opaque objects being checked. -/
  okeys : List Bytes := []

namespace Parser

/-- `i += n`. -/
def advance (p : Parser) (n : Nat) : Parser :=
  { p with rest := p.rest.drop n, i := p.i + n }

/-- `ok = false`. -/
def fail (p : Parser) : Parser :=
  { p with ok := false }

/-- `s.substr(start.i, p.i - start.i)`. -/
def since (p start : Parser) : View :=
  { «at» := start.i, bytes := start.rest.take (p.i - start.i) }

/-- `i < s.size() && s[i] == c`. -/
abbrev sees (p : Parser) (c : Byte) : Prop :=
  p.rest.head? = some c

/-- `Parser::ws`. -/
def ws (p : Parser) : Parser :=
  p.advance (p.rest.takeWhile isWs).length

/-- `string_stop`: to the next quote, backslash or control byte. -/
def stringStop (p : Parser) : Parser :=
  p.advance (p.rest.takeWhile fun c =>
    !(c == 0x22 || c == 0x5c || c < 0x20)).length

/-- `is_escape_char`. -/
def isEscapeChar (c : Byte) : Bool :=
  c == 0x22 || c == 0x5c || c == 0x2f || c == 0x62 || c == 0x66 ||
    c == 0x6e || c == 0x72 || c == 0x74 || c == 0x75

/-- `++escapes`. -/
def countEscape (p : Parser) : Parser :=
  { p with escapes := p.escapes + 1 }

/-- The byte a plain run stopped at, in the loop of `parse_string`; `again` is
the next round. -/
def stringAt (again : Parser → Bool × Parser) (p : Parser) : Bool × Parser :=
  match p.rest with
  | [] => (false, p)
  | c :: rest =>
      if c = 0x22 then (true, p)
      else if c < 0x20 then (false, p)
      else
        let p := p.countEscape
        match rest with
        | [] => (false, p)
        | e :: more =>
            if isEscapeChar e then
              if e = 0x75 then
                match more with
                | h₁ :: h₂ :: h₃ :: h₄ :: _ =>
                    if isHex h₁ && isHex h₂ && isHex h₃ && isHex h₄ then
                      again (p.advance 6)
                    else (false, p)
                | _ => (false, p)
              else again (p.advance 2)
            else (false, p)

/-- The loop of `parse_string`: true when it stopped at the closing quote. -/
def stringLoop : Nat → Parser → Bool × Parser
  | 0, p => (false, p)
  | fuel + 1, p => stringAt (stringLoop fuel) p.stringStop

/-- `parse_string`: the raw span between the quotes.  Every round of the loop
takes two bytes or ends it. -/
def parseString (p : Parser) : View × Parser :=
  let start := p.advance 1
  match stringLoop (start.rest.length + 1) start with
  | (true, stop) => (stop.since start, stop.advance 1)
  | (false, stop) => ({ «at» := start.i, bytes := start.rest }, stop.fail)

/-- `parse_bool`. -/
def parseBool (p : Parser) : Value × Parser :=
  if p.rest.take 4 = ascii "true" then
    ({ type := .bool, boolean := true }, p.advance 4)
  else if p.rest.take 5 = ascii "false" then
    ({ type := .bool, boolean := false }, p.advance 5)
  else ({ type := .bool }, p.fail)

/-- `parse_number`'s `digits`: a run of digits, and whether there was one. -/
def digits (p : Parser) : Bool × Parser :=
  let stop := p.advance (p.rest.takeWhile isDigit).length
  (p.i < stop.i, stop)

/-- The integer part: a leading zero stands alone. -/
def intPart (p : Parser) : Bool × Parser :=
  match p.rest with
  | [] => (false, p)
  | c :: _ =>
      if isDigit c then
        if c = 0x30 then (true, p.advance 1) else (true, p.digits.2)
      else (false, p)

/-- The fraction, when there is a point. -/
def fracPart (p : Parser) : Bool × Parser :=
  match p.rest with
  | [] => (true, p)
  | c :: _ => if c = 0x2e then (p.advance 1).digits else (true, p)

/-- The sign of an exponent, when there is one. -/
def expSign (p : Parser) : Parser :=
  match p.rest with
  | [] => p
  | c :: _ => if c = 0x2b ∨ c = 0x2d then p.advance 1 else p

/-- The exponent, when there is an `e`. -/
def expPart (p : Parser) : Bool × Parser :=
  match p.rest with
  | [] => (true, p)
  | c :: _ =>
      if c = 0x65 ∨ c = 0x45 then (p.advance 1).expSign.digits else (true, p)

/-- The optional minus sign. -/
def minusSign (p : Parser) : Parser :=
  match p.rest with
  | [] => p
  | c :: _ => if c = 0x2d then p.advance 1 else p

/-- `parse_number`. -/
def parseNumber (start : Parser) : Value × Parser :=
  match start.minusSign.intPart with
  | (false, p) => ({}, p.fail)
  | (true, p) =>
      match p.fracPart with
      | (false, p) => ({}, p.fail)
      | (true, p) =>
          match p.expPart with
          | (false, p) => ({}, p.fail)
          | (true, p) => ({ type := .number, sv := p.since start }, p)

/-- `parse_value_scalar`, `c` being the byte at `i`. -/
def parseValueScalar (c : Byte) (p : Parser) : Value × Parser :=
  if c = 0x74 ∨ c = 0x66 then p.parseBool
  else if c = 0x6e then
    if p.rest.take 4 = ascii "null" then ({}, p.advance 4) else ({}, p.fail)
  else p.parseNumber

/-- `vstack.push_back`. -/
def pushValue (p : Parser) (value : Value) : Parser :=
  { p with vstack := p.vstack ++ [value] }

/-- `mstack.push_back`. -/
def pushMember (p : Parser) (key : View) (value : Value) : Parser :=
  { p with mstack := p.mstack ++ [(key, value)] }

/-- `okeys->push_back`. -/
def pushKey (p : Parser) (key : View) : Parser :=
  { p with okeys := p.okeys ++ [key.bytes] }

/-- `commit_values`: the children pushed since `mark`. -/
def commitValues (mark : Nat) (p : Parser) : List Value × Parser :=
  (p.vstack.drop mark, { p with vstack := p.vstack.take mark })

/-- `commit_members`. -/
def commitMembers (mark : Nat) (p : Parser) : List (View × Value) × Parser :=
  (p.mstack.drop mark, { p with mstack := p.mstack.take mark })

/-- Calls on the parser, by which the mutual recursion of the source goes one
level down. -/
abbrev Call (α : Type) := Parser → α × Parser

/-- The loop of `parse_array`.  Every round but the last takes a comma, so the
bytes after the bracket bound the rounds. -/
def arrayLoop (parseValue : Call Value) (mark : Nat) :
    Nat → Parser → List Value × Parser
  | 0, p => p.fail.commitValues mark
  | rounds + 1, p =>
      if p.rest = [] then p.fail.commitValues mark
      else
        let (value, p) := parseValue p
        let p := (p.pushValue value).ws
        if p.sees 0x2c then arrayLoop parseValue mark rounds (p.advance 1)
        else if p.sees 0x5d then (p.advance 1).commitValues mark
        else p.fail.commitValues mark

/-- `parse_array`. -/
def parseArray (parseValue : Call Value) (p : Parser) : Value × Parser :=
  let rounds := (p.advance 1).rest.length
  let p := (p.advance 1).ws
  if p.sees 0x5d then ({ type := .array }, p.advance 1)
  else
    let (arr, p) := arrayLoop parseValue p.vstack.length rounds p
    ({ type := .array, arr := arr }, p)

/-- The check an object's keys pass as it closes. -/
def closeKeys (mode : Keys) (keys : List Bytes) (escapesBefore : Nat)
    (p : Parser) : Parser :=
  if mode = .unique ∧
      keysFresh keys (p.escapes != escapesBefore) = false then p.fail
  else p

/-- The loop of `parse_object`; `member` reads the value of the key it is
given. -/
def objectLoop (mode : Keys) (member : Bytes → Call Value)
    (mark escapesBefore : Nat) :
    Nat → Parser → List (View × Value) × Parser
  | 0, p => p.fail.commitMembers mark
  | rounds + 1, p =>
      if p.rest = [] then p.fail.commitMembers mark
      else
        let p := p.ws
        if p.sees 0x22 then
          let (key, p) := p.parseString
          let p := p.ws
          if p.sees 0x3a then
            let (value, p) := member key.bytes (p.advance 1)
            let p := (p.pushMember key value).ws
            if p.sees 0x2c then
              objectLoop mode member mark escapesBefore rounds (p.advance 1)
            else if p.sees 0x7d then
              let p := p.advance 1
              let keys := (p.mstack.drop mark).map fun m => m.1.bytes
              (p.closeKeys mode keys escapesBefore).commitMembers mark
            else p.fail.commitMembers mark
          else p.fail.commitMembers mark
        else p.fail.commitMembers mark

/-- `parse_object`. -/
def parseObject (mode : Keys) (member : Bytes → Call Value) (p : Parser) :
    Value × Parser :=
  let rounds := (p.advance 1).rest.length
  let p := (p.advance 1).ws
  if p.sees 0x7d then ({ type := .object }, p.advance 1)
  else
    let (obj, p) := objectLoop mode member p.mstack.length p.escapes rounds p
    ({ type := .object, obj := obj }, p)

/-- The loop of `skip_array`. -/
def skipArrayLoop (skipValue : Parser → Parser) : Nat → Parser → Parser
  | 0, p => p.fail
  | rounds + 1, p =>
      if p.ok = false then p
      else
        let p := (skipValue p).ws
        if p.sees 0x2c then skipArrayLoop skipValue rounds (p.advance 1)
        else if p.sees 0x5d then p.advance 1
        else p.fail

/-- `skip_array`. -/
def skipArray (skipValue : Parser → Parser) (p : Parser) : Parser :=
  let rounds := (p.advance 1).rest.length
  let p := (p.advance 1).ws
  if p.sees 0x5d then p.advance 1 else skipArrayLoop skipValue rounds p

/-- The keys an opaque object leaves behind when it fails. -/
def dropKeys (mark : Nat) (p : Parser) : Parser :=
  { p with okeys := p.okeys.take mark }

/-- The loop of `skip_object`. -/
def skipObjectLoop (mode : Keys) (skipValue : Parser → Parser)
    (mark escapesBefore : Nat) : Nat → Parser → Parser
  | 0, p => p.fail.dropKeys mark
  | rounds + 1, p =>
      if p.ok = false then p.fail.dropKeys mark
      else
        let p := p.ws
        if p.sees 0x22 then
          let (key, p) := p.parseString
          let p := (p.pushKey key).ws
          if p.sees 0x3a then
            let p := (skipValue (p.advance 1)).ws
            if p.sees 0x2c then
              skipObjectLoop mode skipValue mark escapesBefore rounds
                (p.advance 1)
            else if p.sees 0x7d then
              let p := p.advance 1
              (p.closeKeys mode (p.okeys.drop mark) escapesBefore).dropKeys mark
            else p.fail.dropKeys mark
          else p.fail.dropKeys mark
        else p.fail.dropKeys mark

/-- `skip_object`. -/
def skipObject (mode : Keys) (skipValue : Parser → Parser) (p : Parser) :
    Parser :=
  let rounds := (p.advance 1).rest.length
  let p := (p.advance 1).ws
  if p.sees 0x7d then p.advance 1
  else skipObjectLoop mode skipValue p.okeys.length p.escapes rounds p

/-- `++nodes`. -/
def countNode (p : Parser) : Parser :=
  { p with nodes := p.nodes + 1 }

/-- `++depth`. -/
def enter (p : Parser) : Parser :=
  { p with depth := p.depth + 1 }

/-- `--depth`. -/
def leave (p : Parser) : Parser :=
  { p with depth := p.depth - 1 }

/-- `skip_value`.  `levels` counts the containers that may still open, so it
runs out exactly when `depth` reaches `kMaxDepth`. -/
def skipValue (mode : Keys) : (levels : Nat) → Parser → Parser
  | levels, p =>
      let p := p.countNode
      if kMaxNodes < p.nodes then p.fail
      else
        let p := p.ws
        match p.rest with
        | [] => p.fail
        | c :: _ =>
            if c = 0x22 then p.parseString.2
            else if c = 0x7b ∨ c = 0x5b then
              if kMaxDepth ≤ p.depth then p.fail
              else
                match levels with
                | 0 => p.fail
                | levels + 1 =>
                    let p := p.enter
                    let p :=
                      if c = 0x7b then p.skipObject mode (skipValue mode levels)
                      else p.skipArray (skipValue mode levels)
                    p.leave
            else (p.parseValueScalar c).2

/-- `parse_opaque`: an opaque member's container, kept as its type and span. -/
def parseOpaque (parseValue : Call Value) (skipValue : Parser → Parser)
    (p : Parser) : Value × Parser :=
  let p := p.ws
  match p.rest with
  | [] => parseValue p
  | c :: _ =>
      if c ≠ 0x7b ∧ c ≠ 0x5b then parseValue p
      else
        let stop := skipValue p
        ({ type := if c = 0x7b then .object else .array,
           sv := stop.since p }, stop)

/-- `parse_value`. -/
def parseValue (mode : Keys) (opaqueNames : List Bytes) :
    (levels : Nat) → Parser → Value × Parser
  | levels, p =>
      let p := p.countNode
      if kMaxNodes < p.nodes then ({}, p.fail)
      else
        let p := p.ws
        match p.rest with
        | [] => ({}, p.fail)
        | c :: _ =>
            if c = 0x22 then
              let (sv, p) := p.parseString
              ({ type := .string, sv := sv }, p)
            else if c = 0x7b ∨ c = 0x5b then
              if kMaxDepth ≤ p.depth then ({}, p.fail)
              else
                match levels with
                | 0 => ({}, p.fail)
                | levels + 1 =>
                    let start := p
                    let parseInner := parseValue mode opaqueNames levels
                    let (value, p) :=
                      if c = 0x7b then
                        p.enter.parseObject mode fun key =>
                          if opaqueNames.contains key then
                            parseOpaque parseInner (skipValue mode levels)
                          else parseInner
                      else p.enter.parseArray parseInner
                    ({ value with sv := p.leave.since start }, p.leave)
            else p.parseValueScalar c

end Parser

/-- `json::parse`: the tree and whether the text is one document. -/
def parse (text : Bytes) (mode : Keys := .unique)
    (opaqueNames : List Bytes := []) : Value × Bool :=
  let (value, p) :=
    Parser.parseValue mode opaqueNames kMaxDepth { rest := text }
  let p := p.ws
  (value, p.ok && p.i == text.length)

end Json
end Llmbridge
