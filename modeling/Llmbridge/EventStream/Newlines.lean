import Llmbridge.EventStream.Lines

/-!
# Lines that end at LF

A reader that knows no other ending finishes a line at each LF.  `newlines` gives those
lines and the unfinished one behind them; what a first piece of a stream leaves
unfinished is the front of the next line of the rest.
-/

namespace Llmbridge
namespace EventStream

open Rfc8259 (Byte Bytes)

/-- The lines of a stream that end at LF, without it, and what stands behind them. -/
def newlines : Bytes → List Bytes × Bytes
  | [] => ([], [])
  | c :: rest =>
      if c = lf then ([] :: (newlines rest).1, (newlines rest).2)
      else prepend [c] (newlines rest)

@[simp] theorem newlines_nil : newlines [] = ([], []) := rfl

theorem newlines_lf (rest : Bytes) :
    newlines (lf :: rest) = ([] :: (newlines rest).1, (newlines rest).2) :=
  if_pos rfl

/-- Bytes without an LF belong to the first line. -/
theorem newlines_inner {front : Bytes} (inner : ∀ c ∈ front, c ≠ lf) (rest : Bytes) :
    newlines (front ++ rest) = prepend front (newlines rest) := by
  induction front with
  | nil => rw [List.nil_append, prepend_nil]
  | cons c front inductionHypothesis =>
      have first : c ≠ lf := inner c List.mem_cons_self
      have later : ∀ b ∈ front, b ≠ lf := fun b member =>
        inner b (List.mem_cons_of_mem c member)
      rw [List.cons_append, newlines, if_neg first, inductionHypothesis later, prepend_prepend]
      rfl

/-- A line and its LF. -/
theorem newlines_line {line : Bytes} (inner : ∀ c ∈ line, c ≠ lf) (rest : Bytes) :
    newlines (line ++ lf :: rest) = (line :: (newlines rest).1, (newlines rest).2) := by
  rw [newlines_inner inner, newlines_lf, prepend, List.append_nil]

/-- A stream with an LF begins with a line. -/
theorem split_at_lf {bytes : Bytes} {eol : Nat}
    (found : bytes.findIdx? (· == lf) = some eol) :
    bytes = bytes.take eol ++ lf :: bytes.drop (eol + 1) ∧ ∀ c ∈ bytes.take eol, c ≠ lf := by
  obtain ⟨bound, isLf, before⟩ := List.findIdx?_eq_some_iff_getElem.mp found
  constructor
  · have parts := (List.take_append_drop eol bytes).symm
    rw [List.drop_eq_getElem_cons bound, beq_iff_eq.mp isLf] at parts
    exact parts
  · intro c member
    obtain ⟨j, small, rfl⟩ := List.getElem_of_mem member
    rw [List.length_take] at small
    rw [List.getElem_take]
    simpa using before j (by omega)

end EventStream
end Llmbridge
