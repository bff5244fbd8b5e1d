import Llmbridge.Rfc8259.Grammar

/-!
# Places in a byte string

Parsers say where something stands with an index into the whole input.  A byte
string is located at an index when the input goes on with it there; locations
of a concatenation are those of its parts.
-/

namespace Llmbridge
namespace Rfc8259

/-- `b.substr(at, len)`. -/
def substr (b : Bytes) («at» len : Nat) : Bytes :=
  (b.drop «at»).take len

theorem substr_length_le (b : Bytes) («at» len : Nat) :
    (substr b «at» len).length ≤ len := by
  simp only [substr, List.length_take]
  omega

theorem substr_take
    {body : Bytes} {n «at» len : Nat} (inside : «at» + len ≤ n) :
    substr (body.take n) «at» len = substr body «at» len := by
  rw [substr, substr, List.drop_take, List.take_take,
    Nat.min_eq_left (by omega)]

/-- The bytes stand in the body at `«at»`. -/
def Located (body : Bytes) («at» : Nat) (bytes : Bytes) : Prop :=
  ∃ rest, body.drop «at» = bytes ++ rest

section Located

variable {body bytes : Bytes} {«at» : Nat} {c : Byte}

theorem Located.split
    {first second : Bytes} (located : Located body «at» (first ++ second)) :
    Located body «at» first ∧ Located body («at» + first.length) second := by
  obtain ⟨rest, shape⟩ := located
  rw [List.append_assoc] at shape
  refine ⟨⟨second ++ rest, shape⟩, rest, ?_⟩
  rw [← List.drop_drop, shape, List.drop_left]

theorem Located.tail (located : Located body «at» (c :: bytes)) :
    Located body («at» + 1) bytes :=
  (@Located.split _ _ [c] _ located).2

theorem Located.head (located : Located body «at» (c :: bytes)) :
    body[«at»]? = some c := by
  obtain ⟨rest, shape⟩ := located
  rw [← List.head?_drop, shape]
  rfl

theorem Located.substr (located : Located body «at» bytes) :
    substr body «at» bytes.length = bytes := by
  obtain ⟨rest, shape⟩ := located
  rw [Rfc8259.substr, shape, List.take_left]

theorem Located.lt (located : Located body «at» (bytes ++ [c])) :
    «at» + bytes.length < body.length := by
  obtain ⟨rest, shape⟩ := located
  have size := congrArg List.length shape
  simp only [List.length_drop, List.length_append, List.length_singleton] at size
  omega

end Located

end Rfc8259
end Llmbridge
