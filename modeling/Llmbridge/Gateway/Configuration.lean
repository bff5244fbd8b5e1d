import Llmbridge.Gateway.Forward
import Llmbridge.Rfc8259.Decimal

/-!
# Configured venues

`net/src/upstream.cpp`: the base paths a configuration admits, and the bytes that stay on
one line of a head.
-/

namespace Llmbridge
namespace Forward

open Rfc8259 (Byte Bytes ascii)
open Http1 (find cr lf Clean)
open Provider (isLower isUpper isDigit)

/-! ## Base paths -/

/-- The characters of a base path. -/
def isPathChar (c : Byte) : Bool :=
  isLower c || isUpper c || isDigit c || c == 0x2f || c == 0x2d || c == 0x2e || c == 0x5f ||
    c == 0x7e || c == 0x3a

/-- `normalize_base_path`: the path, or the text of the error. -/
def normalizeBasePath (given : Bytes) : Except Bytes Bytes :=
  let named := ascii "base path '" ++ given
  if given.isEmpty ∨ given = ascii "/" then .ok []
  else if given.head? ≠ some 0x2f then .error (named ++ ascii "' must start with '/'")
  else if given.contains 0x23 then
    .error (named ++ ascii "' has a fragment, which never travels on the wire")
  else
    let p := given.rdropWhile fun c => c == 0x2f
    if p.all isPathChar = false then
      .error (named ++ ascii "' has a character outside [A-Za-z0-9-._~:/]")
    else if (find (ascii "//") p).isSome ∨ (find (ascii "/./") p).isSome ∨
        (find (ascii "/../") p).isSome ∨ (ascii "/.").isSuffixOf p ∨ (ascii "/..").isSuffixOf p then
      .error (named ++ ascii "' has an empty or dot segment")
    else .ok p

/-- `Upstream`, as far as a connection to it reads it. -/
structure Upstream where
  ip : Bytes := []
  port : Nat
  tls : Bool
  sniHost : Bytes := []
  host : Bytes := []
  deriving DecidableEq, Repr

/-! ## What stays on one line -/

theorem clean_of_all {p : Byte → Bool} (noCr : p cr = false) (noLf : p lf = false) {line : Bytes}
    (holds : line.all p = true) : Clean line := by
  intro c member
  have here := List.all_eq_true.mp holds c member
  constructor
  · rintro rfl
    rw [noCr] at here
    cases here
  · rintro rfl
    rw [noLf] at here
    cases here

theorem Clean.append {first second : Bytes} (clean : Clean first) (clean' : Clean second) :
    Clean (first ++ second) := by
  intro c member
  rcases List.mem_append.mp member with member | member
  · exact clean c member
  · exact clean' c member

theorem decimal_digits (n : Nat) : (decimal n).all Rfc8259.isDigit = true :=
  List.all_eq_true.mpr (Rfc8259.decimalDigits_isDigit n)

/-- The digits write the number. -/
theorem decimal_value (n : Nat) : Http.decimalValue (decimal n) = n :=
  Rfc8259.decimalDigits_value n

theorem decimal_clean (n : Nat) : Clean (decimal n) :=
  clean_of_all (by decide) (by decide) (decimal_digits n)

end Forward
end Llmbridge
