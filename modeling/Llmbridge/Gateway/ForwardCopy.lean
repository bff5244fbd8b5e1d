import Llmbridge.Gateway.ForwardFacts

/-!
# The kept lines of a forwarded request

The copying walk of `build_forward` writes runs of kept lines.  What it has
written and the run still open are together the kept lines so far.
-/

namespace Llmbridge
namespace Forward

open Rfc8259 (Byte Bytes ascii substr Located)
open Http1 (find crlf cr Clean join)
open Http

/-! ## The request line -/

theorem find_crlf_clean {line : Bytes} (clean : Clean line) : find crlf line = none := by
  induction line with
  | nil => rfl
  | cons c line inductionHypothesis =>
      have first := (clean c List.mem_cons_self).1
      unfold find
      rw [if_neg, inductionHypothesis fun d member => clean d (List.mem_cons_of_mem c member)]
      · rfl
      · rw [List.isPrefixOf_iff_prefix]
        intro starts
        exact first (List.cons_prefix_cons.mp starts).1.symm

theorem find_crlf_behind {line : Bytes} (clean : Clean line) (rest : Bytes) :
    find crlf (line ++ (crlf ++ rest)) = some line.length := by
  induction line with
  | nil =>
      have starts : crlf.isPrefixOf (cr :: ([Http1.lf] ++ rest)) = true :=
        List.isPrefixOf_iff_prefix.mpr (List.prefix_append crlf rest)
      apply (if_pos starts).trans
      rfl
  | cons c line inductionHypothesis =>
      have first := (clean c List.mem_cons_self).1
      rw [List.cons_append]
      unfold find
      rw [if_neg, inductionHypothesis fun d member => clean d (List.mem_cons_of_mem c member)]
      · rfl
      · rw [List.isPrefixOf_iff_prefix]
        intro starts
        exact first (List.cons_prefix_cons.mp starts).1.symm

/-- The request line ends where `build_forward` looks for its end. -/
theorem eol_join {start : Bytes} (clean : Clean start) (lines : List Bytes) :
    (find crlf (join start lines)).getD (join start lines).length = start.length := by
  cases lines with
  | nil => rw [Http1.join_nil, find_crlf_clean clean, Option.getD_none]
  | cons line lines => rw [Http1.join_cons, find_crlf_behind clean, Option.getD_some]

/-! ## The copying walk -/

/-- Whether a client's line is kept. -/
def Drops.keeps (d : Drops) (line : Bytes) : Bool :=
  !d.drop (classify (nameOf line)) (nameOf line)

/-- What is written before the line at `«at»`, with the open run: the run starts at a
line of the head, or behind its last one. -/
structure Copying (head : Bytes) (c : Copy) («at» : Nat) (written : Bytes) : Prop where
  behind : c.run ≤ «at»
  inside : c.run = «at» ∨ c.run < head.length
  written : c.into ++ substr (head ++ crlf) c.run («at» - c.run) = written

theorem substr_nothing (b : Bytes) («at» : Nat) : substr b «at» 0 = [] := by
  unfold substr
  rw [List.take_zero]

section Copying

variable {head : Bytes} {c : Copy} {«at» : Nat} {written : Bytes} (d : Drops)

theorem copyLine_total (c : Copy) (h : HeaderLine) :
    copyLine head d c h = ((copyLine head d c h).1, true) := by
  unfold copyLine
  split <;> rfl

/-- The walk at one line of the head. -/
theorem Copying.next
    {line : Bytes} (copying : Copying head c «at» written) (some : 0 < line.length)
    (located : Located (head ++ crlf) «at» (line ++ crlf)) {h : HeaderLine}
    (place : h.at = «at») (ends : h.valueAt + h.value.length = «at» + line.length)
    (field : h.field = classify (nameOf line)) (name : h.name = nameOf line) :
    Copying head (copyLine head d c h).1 («at» + line.length + 2)
      (written ++ if d.keeps line then line ++ crlf else []) := by
  obtain ⟨behind, inside, shape⟩ := copying
  obtain ⟨rest, split⟩ := located
  have size := congrArg List.length split
  have two : crlf.length = 2 := rfl
  simp only [List.length_drop, List.length_append, two] at size
  unfold copyLine
  rw [field, name]
  cases dropped : d.drop (classify (nameOf line)) (nameOf line) with
  | true =>
      have gone : d.keeps line = false := by
        unfold Drops.keeps
        rw [dropped]
        rfl
      rw [if_pos rfl, gone, place, ends]
      refine ⟨Nat.le_refl _, Or.inl rfl, ?_⟩
      dsimp only
      rw [Nat.sub_self, substr_nothing, if_neg Bool.false_ne_true, List.append_nil,
        List.append_nil, ← shape]
      by_cases open' : c.run < «at»
      · rw [if_pos open', List.append_cancel_left_eq, substr, substr,
          List.drop_append_of_le_length (by omega), List.take_append_of_le_length]
        rw [List.length_drop]
        omega
      · rw [if_neg open', show «at» - c.run = 0 by omega, substr_nothing, List.append_nil]
  | false =>
      have kept : d.keeps line = true := by
        unfold Drops.keeps
        rw [dropped]
        rfl
      rw [if_neg Bool.false_ne_true, if_pos kept]
      refine ⟨by dsimp only; omega, Or.inr (by dsimp only; omega), ?_⟩
      dsimp only
      have further : substr (head ++ crlf) c.run («at» + line.length + 2 - c.run) =
          substr (head ++ crlf) c.run («at» - c.run) ++ (line ++ crlf) := by
        have length : «at» + line.length + 2 - c.run =
            («at» - c.run) + (line ++ crlf).length := by
          rw [List.length_append, two]
          omega
        rw [substr, substr, length, List.take_add, List.drop_drop,
          show c.run + («at» - c.run) = «at» by omega, split, List.take_left]
      rw [further, ← List.append_assoc, shape]

/-- The walk over lines of the head. -/
theorem Copying.lines
    {lines : List Bytes} (fields : AllFields lines) (copying : Copying head c «at» written)
    (located : Located (head ++ crlf) «at» (ended lines)) :
    Copying head ((headerLines «at» lines).foldl (fun c h => (copyLine head d c h).1) c)
      («at» + (ended lines).length) (written ++ ended (lines.filter d.keeps)) := by
  induction lines generalizing c «at» written with
  | nil =>
      rw [List.filter_nil, ended_nil, List.append_nil]
      exact copying
  | cons line lines inductionHypothesis =>
      obtain ⟨name, value, isField⟩ := fields line List.mem_cons_self
      have same := isField_of isField
      have some : 0 < line.length := by
        rw [same.split, List.length_append, List.length_cons]
        omega
      have sizes := congrArg List.length same.split
      rw [List.length_append, List.length_cons] at sizes
      rw [ended_cons] at located
      obtain ⟨first, others⟩ := located.split
      have two : crlf.length = 2 := rfl
      rw [List.length_append, two, ← Nat.add_assoc] at others
      have step := copying.next d some first
        (h := ⟨classify (nameOf line), nameOf line, valueOf line, «at»⟩) rfl
        (by unfold HeaderLine.valueAt; dsimp only; omega) rfl rfl
      have rest := inductionHypothesis fields.tail step others
      rw [ended_cons, List.length_append, List.length_append, two, ← Nat.add_assoc,
        ← Nat.add_assoc, List.filter_cons]
      rw [List.append_assoc] at rest
      unfold headerLines
      rw [List.foldl_cons]
      convert rest using 2
      split <;> rfl

/-- Behind the last line the open run is the rest of the head. -/
theorem Copying.close (copying : Copying head c (head ++ crlf).length written) :
    (if c.run < head.length then c.into ++ head.drop c.run ++ crlf else c.into) = written := by
  obtain ⟨behind, inside, shape⟩ := copying
  rw [← shape]
  by_cases inHead : c.run < head.length
  · rw [if_pos inHead, List.append_assoc, List.append_cancel_left_eq, substr,
      List.take_of_length_le (by rw [List.length_drop]),
      List.drop_append_of_le_length (Nat.le_of_lt inHead)]
  · rw [if_neg inHead]
    rcases inside with same | clash
    · rw [same, Nat.sub_self, substr_nothing, List.append_nil]
    · exact absurd clash inHead

end Copying

/-- The copying walk over an accepted head writes its kept lines. -/
theorem walkHeaders_copy
    {start : Bytes} {lines : List Bytes} (clean : ∀ line ∈ start :: lines, Clean line)
    (fields : AllFields lines) (d : Drops) (into : Bytes) :
    ∃ c, Http.walkHeaders (copyLine (join start lines) d) (join start lines)
        ⟨into, start.length + 2⟩ = (true, c) ∧
      (if c.run < (join start lines).length then
        c.into ++ (join start lines).drop c.run ++ crlf else c.into) =
        into ++ ended (lines.filter d.keeps) := by
  have two : crlf.length = 2 := rfl
  have whole := join_ended start lines
  have located : Located (join start lines ++ crlf) (start.length + 2) (ended lines) := by
    rw [whole, ended_cons]
    refine ⟨[], ?_⟩
    rw [List.append_nil, ← two, ← List.length_append, List.drop_left]
  have first : Copying (join start lines) ⟨into, start.length + 2⟩ (start.length + 2) into := by
    refine ⟨Nat.le_refl _, Or.inl rfl, ?_⟩
    dsimp only
    rw [Nat.sub_self, substr_nothing, List.append_nil]
  have last := first.lines d fields located
  have size : start.length + 2 + (ended lines).length = (join start lines ++ crlf).length := by
    rw [whole, ended_cons, List.length_append, List.length_append, two]
  rw [size] at last
  refine ⟨_, ?_, last.close⟩
  rw [walkHeaders_join _ clean, visitLines_fold (copyLine_total d) fields]

end Forward
end Llmbridge
