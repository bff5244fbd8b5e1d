import Llmbridge.Rfc8259.Places

/-!
# Readers without a document

`json_scan` of `provider/src/json_scan.hpp`: the walk over an object's members
that builds no tree.  Positions are indices into the text; `kNpos` is `none`.
A loop that always moves on has the text's length as its fuel.
-/

namespace Llmbridge
namespace JsonScan

open Rfc8259 (Byte Bytes isWs isDigit substr)

/-- `skip_ws`. -/
def skipWs (b : Bytes) (i : Nat) : Nat :=
  i + ((b.drop i).takeWhile isWs).length

/-- `memchr` for a quote from `start` on. -/
def findQuote (b : Bytes) (start : Nat) : Option Nat :=
  ((b.drop start).findIdx? fun c => c == 0x22).map fun n => start + n

/-- The backslashes right before `«at»`, looked back at down to `i`. -/
def slashRun (b : Bytes) (i «at» : Nat) : Nat :=
  ((substr b i («at» - i)).reverse.takeWhile fun c => c == 0x5c).length

/-- The loop of `string_close`, `start` being the source's `from`. -/
def closeLoop (b : Bytes) (i : Nat) : (fuel start : Nat) → Option Nat
  | 0, _ => none
  | fuel + 1, start =>
      match findQuote b start with
      | none => none
      | some «at» =>
          if slashRun b i «at» % 2 = 0 then some «at»
          else closeLoop b i fuel («at» + 1)

/-- `string_close`: the quote closing a string whose contents start at `i`. -/
def stringClose (b : Bytes) (i : Nat) : Option Nat :=
  closeLoop b i (b.length + 1) i

/-- The loop of `skip_value` over a container. -/
def skipContainer (b : Bytes) : (fuel i depth : Nat) → Option Nat
  | 0, _, _ => none
  | fuel + 1, i, depth =>
      match b[i]? with
      | none => none
      | some c =>
          if c = 0x22 then
            match stringClose b (i + 1) with
            | none => none
            | some close => skipContainer b fuel (close + 1) depth
          else if c = 0x7b ∨ c = 0x5b then skipContainer b fuel (i + 1) (depth + 1)
          else if c = 0x7d ∨ c = 0x5d then
            if depth - 1 = 0 then some (i + 1)
            else skipContainer b fuel (i + 1) (depth - 1)
          else skipContainer b fuel (i + 1) depth

/-- A byte a literal or a number goes on with. -/
def isScalar (c : Byte) : Bool :=
  c != 0x2c && c != 0x7d && c != 0x5d && !isWs c

/-- `skip_value`. -/
def skipValue (b : Bytes) (i : Nat) : Option Nat :=
  match b[i]? with
  | none => none
  | some c =>
      if c = 0x22 then (stringClose b (i + 1)).map fun close => close + 1
      else if c = 0x7b ∨ c = 0x5b then skipContainer b (b.length + 1) i 0
      else
        let stop := i + ((b.drop i).takeWhile isScalar).length
        if stop = i then none else some stop

section Members

variable {σ : Type} (f : σ → Bytes → Bytes → σ × Bool)

/-- The loop of `for_each_member`. -/
def membersLoop (obj : Bytes) : (fuel i : Nat) → σ → Bool × σ
  | 0, _, s => (false, s)
  | fuel + 1, i, s =>
      if obj[i]? ≠ some 0x22 then (false, s)
      else
        let kb := i + 1
        match stringClose obj kb with
        | none => (false, s)
        | some i =>
            let k := substr obj kb (i - kb)
            let i := skipWs obj (i + 1)
            if obj[i]? ≠ some 0x3a then (false, s)
            else
              let vb := skipWs obj (i + 1)
              match skipValue obj vb with
              | none => (false, s)
              | some i =>
                  match f s k (substr obj vb (i - vb)) with
                  | (s, false) => (true, s)
                  | (s, true) =>
                      let i := skipWs obj i
                      if obj[i]? = some 0x7d then (true, s)
                      else if obj[i]? ≠ some 0x2c then (false, s)
                      else membersLoop obj fuel (skipWs obj (i + 1)) s

/-- `for_each_member`: `f` takes the raw key and the raw value of each member of
the object at the front of `obj`, and says whether to go on. -/
def forEachMember (obj : Bytes) (s : σ) : Bool × σ :=
  let i := skipWs obj 0
  if obj[i]? ≠ some 0x7b then (false, s)
  else
    let i := skipWs obj (i + 1)
    if obj[i]? = some 0x7d then (true, s)
    else membersLoop f obj (obj.length + 1) i s

end Members

/-- `first_member`. -/
def firstMember (body key : Bytes) : Bytes :=
  (forEachMember (fun (out : Bytes) k v => if k ≠ key then (out, true) else (v, false))
    body []).2

/-- `plain_string`. -/
def plainString (raw : Bytes) : Bytes :=
  if raw.length < 2 ∨ raw.head? ≠ some 0x22 ∨ raw.getLast? ≠ some 0x22 then []
  else
    let inside := substr raw 1 (raw.length - 2)
    if inside.contains 0x5c then [] else inside

section Elements

variable {σ : Type} (f : σ → Bytes → σ)

/-- The loop of `for_each_element`, by readers that go on to the end. -/
def elementsLoop (arr : Bytes) : (fuel i : Nat) → σ → Bool × σ
  | 0, _, s => (false, s)
  | fuel + 1, vb, s =>
      match skipValue arr vb with
      | none => (false, s)
      | some i =>
          let s := f s (substr arr vb (i - vb))
          let i := skipWs arr i
          if arr[i]? = some 0x5d then (true, s)
          else if arr[i]? ≠ some 0x2c then (false, s)
          else elementsLoop arr fuel (skipWs arr (i + 1)) s

/-- `for_each_element`: `f` takes each element of the array at the front of
`arr`, raw. -/
def forEachElement (arr : Bytes) (s : σ) : Bool × σ :=
  let i := skipWs arr 0
  if arr[i]? ≠ some 0x5b then (false, s)
  else
    let i := skipWs arr (i + 1)
    if arr[i]? = some 0x5d then (true, s)
    else elementsLoop f arr (arr.length + 1) i s

end Elements

/-- A decimal digit's value. -/
def digitValue (c : Byte) : Nat :=
  c.toNat - 0x30

/-- `count`: -1 for anything but at most 18 digits. -/
def count (raw : Bytes) : Int :=
  if raw.isEmpty ∨ 18 < raw.length ∨ raw.all isDigit = false then -1
  else ((raw.foldl (fun v c => v * 10 + digitValue c) 0 : Nat) : Int)

/-- What the first loop of `picodollars` has read. -/
structure Mantissa where
  m : Nat := 0
  digits : Nat := 0
  exp10 : Int := 12
  any : Bool := false
  point : Bool := false
  deriving DecidableEq, Repr

/-- One digit of the mantissa: leading zeros are skipped, and those past the
eighteenth significant one. -/
def Mantissa.digit (s : Mantissa) (c : Byte) : Mantissa :=
  let s := { s with any := true }
  let one := if s.point then 1 else 0
  if s.m = 0 ∧ c = 0x30 then { s with exp10 := s.exp10 - one }
  else if s.digits < 18 then
    { s with m := s.m * 10 + digitValue c, digits := s.digits + 1, exp10 := s.exp10 - one }
  else { s with exp10 := s.exp10 + (1 - one) }

/-- The first loop of `picodollars`: the mantissa, and what stands behind it. -/
def mantissa : Mantissa → Bytes → Mantissa × Bytes
  | s, [] => (s, [])
  | s, c :: rest =>
      if c = 0x2e ∧ s.point = false then mantissa { s with point := true } rest
      else if isDigit c then mantissa (s.digit c) rest
      else (s, c :: rest)

/-- The exponent behind the mantissa, when it is one. -/
def exponent : Bytes → Option Int
  | [] => some 0
  | c :: rest =>
      if c ≠ 0x65 ∧ c ≠ 0x45 then none
      else
        let negative := rest.head? = some 0x2d
        let digits := if negative ∨ rest.head? = some 0x2b then rest.tail else rest
        if digits.isEmpty ∨ digits.all isDigit = false then none
        else
          let e := digits.foldl
            (fun (e : Nat) c => if e < 400 then e * 10 + digitValue c else e) 0
          some (if negative then -(e : Int) else e)

/-- The loop that scales up; none when it overflows. -/
def scaleUp : (times m : Nat) → Option Nat
  | 0, m => some m
  | times + 1, m => if 922337203685477580 < m then none else scaleUp times (m * 10)

/-- The loop that scales down, rounding at its last step. -/
def scaleDown : (times m : Nat) → Nat
  | 0, m => m
  | times + 1, m =>
      if m = 0 then 0 else if times = 0 then (m + 5) / 10 else scaleDown times (m / 10)

/-- `picodollars`. -/
def picodollars (raw : Bytes) : Int :=
  let (s, rest) := mantissa {} raw
  if s.any = false then -1
  else
    match exponent rest with
    | none => -1
    | some e =>
        match scaleUp (s.exp10 + e).toNat s.m with
        | none => -1
        | some m =>
            let m := scaleDown (-(s.exp10 + e)).toNat m
            if 9223372036854775807 < m then -1 else m

end JsonScan
end Llmbridge
