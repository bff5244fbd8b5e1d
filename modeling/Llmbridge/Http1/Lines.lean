import Llmbridge.Rfc8259.Grammar

/-!
# Lines separated by CR LF

The head of an HTTP/1.1 message is a start line and header lines, each behind a
CR LF.  When no line holds a CR or an LF, the lines are determined by the bytes.
-/

namespace Llmbridge
namespace Http1

open Rfc8259 (Byte Bytes)

/-- The byte LF. -/
def lf : Byte := 0x0a

/-- The byte CR. -/
def cr : Byte := 0x0d

/-- CR LF. -/
def crlf : Bytes := [cr, lf]

/-! ## Search -/

/-- Where `needle` first occurs. -/
def find (needle : Bytes) : Bytes → Option Nat
  | [] => if needle.isEmpty then some 0 else none
  | c :: rest =>
      if needle.isPrefixOf (c :: rest) then some 0
      else (find needle rest).map fun n => n + 1

theorem find_some {needle hay : Bytes} {n : Nat} (found : find needle hay = some n) :
    ∃ rest, hay.drop n = needle ++ rest := by
  induction hay generalizing n with
  | nil =>
      rw [find] at found
      by_cases empty : needle.isEmpty = true
      · rw [if_pos empty, Option.some.injEq] at found
        subst found
        exact ⟨[], by simpa using empty⟩
      · rw [if_neg empty] at found
        cases found
  | cons c hay inductionHypothesis =>
      rw [find] at found
      by_cases starts : needle.isPrefixOf (c :: hay) = true
      · rw [if_pos starts, Option.some.injEq] at found
        subst found
        obtain ⟨rest, same⟩ := List.isPrefixOf_iff_prefix.mp starts
        exact ⟨rest, same.symm⟩
      · rw [if_neg starts, Option.map_eq_some_iff] at found
        obtain ⟨m, found, rfl⟩ := found
        obtain ⟨rest, same⟩ := inductionHypothesis found
        exact ⟨rest, same⟩

theorem find_le {needle hay : Bytes} {n : Nat} (found : find needle hay = some n)
    (some : needle ≠ []) : n + needle.length ≤ hay.length := by
  obtain ⟨rest, same⟩ := find_some found
  have size := congrArg List.length same
  rw [List.length_drop, List.length_append] at size
  have pos := List.length_pos_iff.mpr some
  omega

/-- Nothing behind the first occurrence moves it. -/
theorem find_append {needle hay : Bytes} {n : Nat} (found : find needle hay = some n)
    (some : needle ≠ []) (more : Bytes) : find needle (hay ++ more) = Option.some n := by
  induction hay generalizing n with
  | nil =>
      rw [find, if_neg (by simpa using some)] at found
      cases found
  | cons c hay inductionHypothesis =>
      rw [find] at found
      rw [List.cons_append, find]
      by_cases starts : needle.isPrefixOf (c :: hay) = true
      · rw [if_pos starts] at found
        have longer : needle.isPrefixOf (c :: (hay ++ more)) = true := by
          rw [List.isPrefixOf_iff_prefix] at starts ⊢
          exact starts.trans (List.prefix_append (c :: hay) more)
        rw [if_pos longer]
        exact found
      · rw [if_neg starts, Option.map_eq_some_iff] at found
        obtain ⟨m, found, rfl⟩ := found
        have fits := find_le found some
        have shorter : ¬ needle.isPrefixOf (c :: (hay ++ more)) = true := by
          intro longer
          apply starts
          rw [List.isPrefixOf_iff_prefix] at longer ⊢
          refine List.prefix_of_prefix_length_le longer
            (List.prefix_append (c :: hay) more) ?_
          rw [List.length_cons]
          omega
        rw [if_neg shorter, inductionHypothesis found]
        rfl

/-- An occurrence that more bytes bring ends among them. -/
theorem find_beyond {needle hay : Bytes} (none : find needle hay = Option.none) {more : Bytes}
    {n : Nat} (found : find needle (hay ++ more) = some n) :
    hay.length < n + needle.length := by
  induction hay generalizing n with
  | nil =>
      rw [find] at none
      by_cases empty : needle.isEmpty = true
      · rw [if_pos empty] at none
        cases none
      · have pos : 0 < needle.length := by
          rw [List.length_pos_iff]
          simpa using empty
        rw [List.length_nil]
        omega
  | cons c hay inductionHypothesis =>
      rw [find] at none
      rw [List.cons_append, find] at found
      by_cases starts : needle.isPrefixOf (c :: hay) = true
      · rw [if_pos starts] at none
        cases none
      · rw [if_neg starts, Option.map_eq_none_iff] at none
        by_cases longer : needle.isPrefixOf (c :: (hay ++ more)) = true
        · rw [if_pos longer, Option.some.injEq] at found
          subst found
          apply Nat.lt_of_not_le
          intro short
          apply starts
          rw [List.isPrefixOf_iff_prefix] at longer ⊢
          rw [Nat.zero_add] at short
          exact List.prefix_of_prefix_length_le longer
            (List.prefix_append (c :: hay) more) short
        · rw [if_neg longer, Option.map_eq_some_iff] at found
          obtain ⟨m, found, rfl⟩ := found
          have later := inductionHypothesis none found
          rw [List.length_cons]
          omega

/-- What occurs is found. -/
theorem find_of_drop {needle hay rest : Bytes} {n : Nat} (occurs : hay.drop n = needle ++ rest) :
    ∃ m, find needle hay = some m := by
  induction hay generalizing n with
  | nil =>
      rw [List.drop_nil] at occurs
      have empty : needle = [] := (List.append_eq_nil_iff.mp occurs.symm).1
      exact ⟨0, by rw [find, if_pos (by rw [empty]; rfl)]⟩
  | cons c hay inductionHypothesis =>
      rw [find]
      by_cases starts : needle.isPrefixOf (c :: hay) = true
      · exact ⟨0, if_pos starts⟩
      · rw [if_neg starts]
        cases n with
        | zero =>
            refine absurd (List.isPrefixOf_iff_prefix.mpr ?_) starts
            exact ⟨rest, occurs.symm⟩
        | succ n =>
            obtain ⟨m, found⟩ := inductionHypothesis occurs
            exact ⟨m + 1, by rw [found]; rfl⟩

/-! ## Lines -/

/-- Neither a CR nor an LF stands in the line. -/
def Clean (line : Bytes) : Prop :=
  ∀ c ∈ line, c ≠ cr ∧ c ≠ lf

instance (line : Bytes) : Decidable (Clean line) :=
  decidable_of_iff (line.all fun c => c != cr && c != lf) (by simp [Clean])

theorem Clean.nil : Clean [] := by
  intro c member
  cases member

/-- A start line and the lines behind it. -/
def join (start : Bytes) (lines : List Bytes) : Bytes :=
  start ++ lines.flatMap fun line => crlf ++ line

theorem join_nil (start : Bytes) : join start [] = start := by
  simp [join]

theorem join_cons (start line : Bytes) (lines : List Bytes) :
    join start (line :: lines) = start ++ (crlf ++ join line lines) := by
  simp [join]

/-- The first line is what stands before a CR. -/
theorem takeWhile_join {start : Bytes} (clean : Clean start) (lines : List Bytes) :
    (join start lines).takeWhile (fun c => c != cr) = start := by
  have inside : ∀ c ∈ start, (c != cr) = true := fun c member => by
    simpa using (clean c member).1
  rw [join, List.takeWhile_append_of_pos inside]
  cases lines with
  | nil => simp
  | cons line lines => simp [crlf]

/-- Clean lines are determined by the bytes they make. -/
theorem join_injective {start start' : Bytes} {lines lines' : List Bytes}
    (clean : ∀ line ∈ start :: lines, Clean line)
    (clean' : ∀ line ∈ start' :: lines', Clean line)
    (same : join start lines = join start' lines') : start = start' ∧ lines = lines' := by
  induction lines generalizing start start' lines' with
  | nil =>
      have first := takeWhile_join (clean start List.mem_cons_self) []
      rw [same, takeWhile_join (clean' start' List.mem_cons_self)] at first
      subst first
      cases lines' with
      | nil => exact ⟨rfl, rfl⟩
      | cons line' lines' =>
          rw [join_nil, join_cons] at same
          have size := congrArg List.length same
          simp [crlf] at size
  | cons line lines inductionHypothesis =>
      have first := takeWhile_join (clean start List.mem_cons_self) (line :: lines)
      rw [same, takeWhile_join (clean' start' List.mem_cons_self)] at first
      subst first
      cases lines' with
      | nil =>
          rw [join_nil, join_cons] at same
          have size := congrArg List.length same
          simp [crlf] at size
      | cons line' lines' =>
          rw [join_cons, join_cons, List.append_cancel_left_eq, List.append_cancel_left_eq]
            at same
          obtain ⟨rfl, rfl⟩ := inductionHypothesis
            (fun found member => clean found (List.mem_cons_of_mem _ member))
            (fun found member => clean' found (List.mem_cons_of_mem _ member)) same
          exact ⟨rfl, rfl⟩

end Http1
end Llmbridge
