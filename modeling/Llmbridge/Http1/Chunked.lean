import Llmbridge.Http1.Lines

/-!
# The chunked transfer coding

RFC 9112 section 7.1: a body as chunks, each behind a line with its size in
hexadecimal digits, then a line of size zero, trailer lines and a blank line.
-/

namespace Llmbridge
namespace Http1

open Rfc8259 (Byte Bytes ascii)

/-! ## Sizes -/

/-- The hexadecimal digits, in either case. -/
def hexDigits : Bytes :=
  ascii "0123456789abcdefABCDEF"

/-- What a hexadecimal digit stands for. -/
def hexDigit (h : Byte) : Nat :=
  let i := hexDigits.idxOf h
  if i < 16 then i else i - 6

/-- The number that digits spell behind the number `n`. -/
def hexNumber (n : Nat) (digits : Bytes) : Nat :=
  digits.foldl (fun n h => n * 16 + hexDigit h) n

@[simp]
theorem hexNumber_nil (n : Nat) : hexNumber n [] = n :=
  rfl

@[simp]
theorem hexNumber_cons (n : Nat) (h : Byte) (digits : Bytes) :
    hexNumber n (h :: digits) = hexNumber (n * 16 + hexDigit h) digits :=
  rfl

/-- More digits never spell a smaller number. -/
theorem le_hexNumber (n : Nat) (digits : Bytes) : n ≤ hexNumber n digits := by
  induction digits generalizing n with
  | nil => exact Nat.le_refl n
  | cons h digits inductionHypothesis =>
      rw [hexNumber_cons]
      have more := inductionHypothesis (n * 16 + hexDigit h)
      omega

/-! ## Encodings -/

/-- A size line without its line end. -/
structure SizeLine where
  digits : Bytes
  blanks : Bytes
  extension : Bytes
  some : digits ≠ []
  hex : ∀ h ∈ digits, h ∈ hexDigits
  blank : ∀ c ∈ blanks, c = 0x20 ∨ c = 0x09
  named : extension.head?.all (fun c => c == 0x3b) = true
  clean : Clean extension

namespace SizeLine

/-- The bytes of the line. -/
def text (l : SizeLine) : Bytes :=
  l.digits ++ (l.blanks ++ l.extension)

/-- The size it says. -/
def size (l : SizeLine) : Nat :=
  hexNumber 0 l.digits

end SizeLine

/-- A chunk that is not the last. -/
structure Chunk where
  line : SizeLine
  data : Bytes
  sized : line.size = data.length
  some : data ≠ []

/-- The bytes of a chunk. -/
def Chunk.render (c : Chunk) : Bytes :=
  c.line.text ++ crlf ++ (c.data ++ crlf)

/-- A chunked body. -/
structure Encoding where
  chunks : List Chunk
  last : SizeLine
  trailers : List Bytes
  zero : last.size = 0
  fields : ∀ t ∈ trailers, t ≠ [] ∧ ¬ crlf <:+: t

namespace Encoding

/-- What is encoded. -/
def payload (e : Encoding) : Bytes :=
  e.chunks.flatMap fun c => c.data

/-- The bytes of the encoding. -/
def render (e : Encoding) : Bytes :=
  e.chunks.flatMap Chunk.render ++
    (e.last.text ++ crlf ++ ((e.trailers.flatMap fun t => t ++ crlf) ++ crlf))

/-- Size lines, chunks and trailer lines within given lengths; a line counts its
line end. -/
structure Within (e : Encoding) (line chunk trailer : Nat) : Prop where
  lines : ∀ c ∈ e.chunks, c.line.text.length + 2 ≤ line
  chunks : ∀ c ∈ e.chunks, c.data.length ≤ chunk
  last : e.last.text.length + 2 ≤ line
  trailers : ∀ t ∈ e.trailers, t.length + 2 ≤ trailer

end Encoding

/-! ## Lines of an encoding -/

theorem hexDigits_clean : Clean hexDigits := by
  decide

/-- No CR and no LF stands in a size line. -/
theorem SizeLine.text_clean (l : SizeLine) : Clean l.text := by
  intro c member
  simp only [SizeLine.text, List.mem_append] at member
  rcases member with digit | blank | extension
  · exact hexDigits_clean c (l.hex c digit)
  · rcases l.blank c blank with rfl | rfl <;> decide
  · exact l.clean c extension

theorem Clean.no_crlf {line : Bytes} (clean : Clean line) : ¬ crlf <:+: line := by
  intro inside
  exact (clean cr (inside.mem List.mem_cons_self)).1 rfl

/-- A line without CR LF does not end with it, also when a CR follows. -/
theorem not_suffix_crlf {line front : Bytes} (free : ¬ crlf <:+: line)
    (begins : front <+: line ++ [cr]) : ¬ crlf <:+ front := by
  intro ends
  apply free
  have inside : crlf <:+: line ++ [cr] := ends.isInfix.trans begins.isInfix
  obtain ⟨before, behind, same⟩ := inside
  rcases List.eq_nil_or_concat behind with rfl | ⟨behind, c, rfl⟩
  · rw [List.append_nil, show crlf = [cr] ++ [lf] from rfl, ← List.append_assoc] at same
    have bytes := List.append_inj_right' same rfl
    simp [cr, lf] at bytes
  · rw [List.concat_eq_append, ← List.append_assoc] at same
    have bytes := List.append_inj_left' same rfl
    exact ⟨before, behind, bytes⟩

end Http1
end Llmbridge
