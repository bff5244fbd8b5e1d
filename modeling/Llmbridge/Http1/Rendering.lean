import Llmbridge.Http1.Chunked

/-!
# Writing the chunked transfer coding

A body written as chunks with sizes in lower-case hexadecimal digits, no extensions and
no trailers.
-/

namespace Llmbridge
namespace Http1

open Rfc8259 (Byte Bytes ascii)

/-! ## Sizes -/

/-- The lower-case digit for a number below 16. -/
def lowerHex (d : Nat) : Byte :=
  (ascii "0123456789abcdef").getD (d % 16) 0

/-- The digits of `n` in front of `digits`, by at most `rounds` divisions. -/
def hexLoop : (rounds n : Nat) → (digits : Bytes) → Bytes
  | 0, _, digits => digits
  | rounds + 1, n, digits =>
      if n = 0 then digits else hexLoop rounds (n / 16) (lowerHex (n % 16) :: digits)

/-- A number in hexadecimal digits; none for zero. -/
def hexText (n : Nat) : Bytes :=
  hexLoop n n []

theorem lowerHex_mem (d : Nat) : lowerHex d ∈ hexDigits := by
  have table : ∀ d : Fin 16, lowerHex d.val ∈ hexDigits := by decide
  have same : lowerHex d = lowerHex (d % 16) := by
    rw [lowerHex, lowerHex, Nat.mod_mod]
  rw [same]
  exact table ⟨d % 16, Nat.mod_lt d (by decide)⟩

theorem hexDigit_lowerHex {d : Nat} (small : d < 16) : hexDigit (lowerHex d) = d := by
  have table : ∀ d : Fin 16, hexDigit (lowerHex d.val) = d.val := by decide
  exact table ⟨d, small⟩

theorem hexLoop_mem (rounds n : Nat) {digits : Bytes} (hex : ∀ h ∈ digits, h ∈ hexDigits) :
    ∀ h ∈ hexLoop rounds n digits, h ∈ hexDigits := by
  induction rounds generalizing n digits with
  | zero => exact hex
  | succ rounds inductionHypothesis =>
      rw [hexLoop]
      split
      · exact hex
      · apply inductionHypothesis
        intro h member
        rcases List.mem_cons.mp member with rfl | member
        · exact lowerHex_mem _
        · exact hex h member

theorem hexText_mem (n : Nat) : ∀ h ∈ hexText n, h ∈ hexDigits :=
  hexLoop_mem n n fun _ member => absurd member List.not_mem_nil

/-- Enough divisions write the whole number in front of the digits. -/
theorem hexNumber_hexLoop (rounds n : Nat) (digits : Bytes) (enough : n ≤ rounds) :
    hexNumber 0 (hexLoop rounds n digits) = hexNumber n digits := by
  induction rounds generalizing n digits with
  | zero => rw [Nat.le_zero.mp enough, hexLoop]
  | succ rounds inductionHypothesis =>
      rw [hexLoop]
      split
      · rename_i zero
        rw [zero]
      · rename_i some
        have less : n / 16 < n := Nat.div_lt_self (Nat.pos_of_ne_zero some) (by decide)
        rw [inductionHypothesis _ _ (by omega), hexNumber_cons,
          hexDigit_lowerHex (Nat.mod_lt n (by decide)), Nat.mul_comm, Nat.div_add_mod]

theorem hexNumber_hexText (n : Nat) : hexNumber 0 (hexText n) = n :=
  hexNumber_hexLoop n n [] (Nat.le_refl n)

theorem hexText_ne_nil {n : Nat} (some : n ≠ 0) : hexText n ≠ [] := by
  intro none
  have number := hexNumber_hexText n
  rw [none, hexNumber_nil] at number
  exact some number.symm

/-! ## Chunks -/

/-- The size line of `n` bytes. -/
def SizeLine.ofSize (n : Nat) (pos : n ≠ 0) : SizeLine where
  digits := hexText n
  blanks := []
  extension := []
  some := hexText_ne_nil pos
  hex := hexText_mem n
  blank := List.forall_mem_nil _
  named := rfl
  clean := List.forall_mem_nil _

/-- Some bytes as one chunk. -/
def Chunk.ofData (data : Bytes) (some : data ≠ []) : Chunk where
  line := SizeLine.ofSize data.length (List.length_pos_iff.mpr some).ne'
  data := data
  sized := hexNumber_hexText data.length
  some := some

theorem Chunk.render_ofData (data : Bytes) (some : data ≠ []) :
    (Chunk.ofData data some).render = hexText data.length ++ crlf ++ (data ++ crlf) := by
  unfold Chunk.render SizeLine.text Chunk.ofData SizeLine.ofSize
  rw [List.append_nil, List.append_nil]

theorem zeroDigit_ne_nil : ascii "0" ≠ [] := by
  decide

theorem zeroDigit_mem : ∀ h ∈ ascii "0", h ∈ hexDigits :=
  List.forall_mem_singleton.mpr (by decide)

/-- The last line, of size zero. -/
def SizeLine.zero : SizeLine where
  digits := ascii "0"
  blanks := []
  extension := []
  some := zeroDigit_ne_nil
  hex := zeroDigit_mem
  blank := List.forall_mem_nil _
  named := rfl
  clean := List.forall_mem_nil _

theorem SizeLine.zero_size : SizeLine.zero.size = 0 := by
  decide

/-- Chunks with their end, without trailers. -/
def Encoding.ofChunks (chunks : List Chunk) : Encoding where
  chunks := chunks
  last := SizeLine.zero
  trailers := []
  zero := SizeLine.zero_size
  fields := List.forall_mem_nil _

theorem Encoding.render_ofChunks (chunks : List Chunk) :
    (Encoding.ofChunks chunks).render = chunks.flatMap Chunk.render ++ ascii "0\r\n\r\n" :=
  rfl

@[simp] theorem Encoding.payload_ofChunks (chunks : List Chunk) :
    (Encoding.ofChunks chunks).payload = chunks.flatMap fun c => c.data :=
  rfl

end Http1
end Llmbridge
