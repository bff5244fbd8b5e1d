import Llmbridge.Rfc8259.Grammar

/-!
# The lines of an event stream

A line ends at LF, at CR LF, or at CR alone.  `lines` reads the finished lines of
a stream and what stands behind them; `splitFrom` does the same one byte at a
time, from a line that is already begun.  Only the lines count: a stream spelled
again with any one of the three endings has the same lines.
-/

namespace Llmbridge
namespace EventStream

open Rfc8259 (Byte Bytes)

/-- The byte LF. -/
def lf : Byte := 0x0a

/-- The byte CR. -/
def cr : Byte := 0x0d

/-- A line's own byte. -/
def isInner (c : Byte) : Bool :=
  c != lf && c != cr

/-- The finished lines of a stream, and the unfinished line behind them. -/
def lines : Bytes → List Bytes × Bytes
  | [] => ([], [])
  | 0x0d :: 0x0a :: rest => ([] :: (lines rest).1, (lines rest).2)
  | c :: rest =>
      if isInner c then
        match (lines rest).1 with
        | [] => ([], c :: (lines rest).2)
        | line :: more => ((c :: line) :: more, (lines rest).2)
      else ([] :: (lines rest).1, (lines rest).2)

/-- Bytes put in front of the first line. -/
def prepend (front : Bytes) : List Bytes × Bytes → List Bytes × Bytes
  | ([], tail) => ([], front ++ tail)
  | (line :: more, tail) => ((front ++ line) :: more, tail)

@[simp] theorem prepend_nil (split : List Bytes × Bytes) : prepend [] split = split := by
  rcases split with ⟨_ | ⟨line, more⟩, tail⟩ <;> rfl

theorem prepend_prepend (first second : Bytes) (split : List Bytes × Bytes) :
    prepend first (prepend second split) = prepend (first ++ second) split := by
  rcases split with ⟨_ | ⟨line, more⟩, tail⟩ <;> simp [prepend]

theorem lines_inner {c : Byte} (inner : isInner c = true) (rest : Bytes) :
    lines (c :: rest) = prepend [c] (lines rest) := by
  have notCr : c ≠ 0x0d := by
    rintro rfl
    exact absurd inner (by decide)
  rw [lines.eq_def]
  split
  · next equal => cases equal
  · next equal =>
      cases equal
      exact absurd rfl notCr
  · next equal =>
      cases equal
      rw [if_pos inner]
      rcases lines rest with ⟨_ | ⟨line, more⟩, tail⟩ <;> rfl

theorem lines_lf (rest : Bytes) :
    lines (lf :: rest) = ([] :: (lines rest).1, (lines rest).2) := by
  rw [lines.eq_def]
  rfl

theorem lines_crlf (rest : Bytes) :
    lines (cr :: lf :: rest) = ([] :: (lines rest).1, (lines rest).2) := by
  rw [lines.eq_def]
  rfl

theorem lines_cr {rest : Bytes} (notPair : rest.head? ≠ some lf) :
    lines (cr :: rest) = ([] :: (lines rest).1, (lines rest).2) := by
  rw [lines.eq_def]
  split
  · next equal => cases equal
  · next equal =>
      cases equal
      exact absurd rfl notPair
  · next equal =>
      cases equal
      rfl

/-! ## One byte at a time -/

/-- The lines of a stream whose first line is already begun; after a CR, an LF is
its pair. -/
def splitFrom (line : Bytes) (afterCr : Bool) : Bytes → List Bytes × Bytes
  | [] => ([], line)
  | c :: rest =>
      if afterCr && c == lf then splitFrom line false rest
      else if c == lf then
        (line :: (splitFrom [] false rest).1, (splitFrom [] false rest).2)
      else if c == cr then
        (line :: (splitFrom [] true rest).1, (splitFrom [] true rest).2)
      else splitFrom (line ++ [c]) false rest

/-- What stands behind a CR: without its LF. -/
def afterPair : Bytes → Bytes
  | 0x0a :: rest => rest
  | rest => rest

theorem splitFrom_afterCr (line rest : Bytes) :
    splitFrom line true rest = splitFrom line false (afterPair rest) := by
  cases rest with
  | nil => rfl
  | cons c rest =>
      by_cases pair : c = lf
      · subst pair
        rfl
      · have same : afterPair (c :: rest) = c :: rest := by
          rw [afterPair.eq_def]
          split
          · next equal =>
              cases equal
              exact absurd rfl pair
          · rfl
        simp [same, splitFrom, pair]

theorem lines_cr_afterPair (rest : Bytes) :
    lines (cr :: rest) = ([] :: (lines (afterPair rest)).1, (lines (afterPair rest)).2) := by
  cases rest with
  | nil => rfl
  | cons c rest =>
      by_cases pair : c = lf
      · subst pair
        exact lines_crlf rest
      · have same : afterPair (c :: rest) = c :: rest := by
          rw [afterPair.eq_def]
          split
          · next equal =>
              cases equal
              exact absurd rfl pair
          · rfl
        rw [same]
        exact lines_cr (by simpa using pair)

theorem afterPair_length (rest : Bytes) : (afterPair rest).length ≤ rest.length := by
  rw [afterPair.eq_def]
  split <;> simp

/-- Reading byte by byte gives the lines of the stream. -/
theorem splitFrom_eq (line bytes : Bytes) :
    splitFrom line false bytes = prepend line (lines bytes) := by
  induction size : bytes.length using Nat.strong_induction_on generalizing line bytes with
  | _ n inductionHypothesis =>
      cases bytes with
      | nil => simp [splitFrom, lines, prepend]
      | cons c rest =>
          subst size
          have shorter : rest.length < (c :: rest).length := Nat.lt_succ_self _
          by_cases isLf : c = lf
          · subst isLf
            have next := inductionHypothesis _ shorter [] rest rfl
            rw [prepend_nil] at next
            rw [lines_lf]
            simp [splitFrom, next, prepend]
          · by_cases isCr : c = cr
            · subst isCr
              have shorterPair := Nat.lt_of_le_of_lt (afterPair_length rest) shorter
              have next := inductionHypothesis _ shorterPair [] (afterPair rest) rfl
              rw [prepend_nil] at next
              rw [lines_cr_afterPair]
              simp [splitFrom, splitFrom_afterCr, next, prepend, cr, lf]
            · have next := inductionHypothesis _ shorter (line ++ [c]) rest rfl
              have inner : isInner c = true := by simp [isInner, isLf, isCr]
              rw [lines_inner inner, prepend_prepend, ← next]
              simp [splitFrom, isLf, isCr]

/-- The line begun is the front of the first line. -/
theorem begun_of_splitFrom {bound : Nat} (line : Bytes) (afterCr : Bool) (bytes : Bytes)
    (short : ∀ found ∈ (splitFrom line afterCr bytes).1 ++ [(splitFrom line afterCr bytes).2],
      found.length ≤ bound) : line.length ≤ bound := by
  obtain ⟨rest, same⟩ : ∃ rest, splitFrom line afterCr bytes = prepend line (lines rest) := by
    cases afterCr with
    | false => exact ⟨bytes, splitFrom_eq line bytes⟩
    | true => exact ⟨afterPair bytes, (splitFrom_afterCr line bytes).trans (splitFrom_eq _ _)⟩
  rw [same] at short
  generalize lines rest = split at short
  obtain ⟨_ | ⟨first, more⟩, tail⟩ := split
  · have within := short (line ++ tail) (by simp [prepend])
    rw [List.length_append] at within
    omega
  · have within := short (line ++ first) (by simp [prepend])
    rw [List.length_append] at within
    omega

/-- The line begun anywhere in a stream is the front of one of its lines. -/
theorem splitFrom_begun {bound : Nat} (line : Bytes) (afterCr : Bool) (first second : Bytes)
    (short : ∀ found ∈ (splitFrom line afterCr (first ++ second)).1 ++
        [(splitFrom line afterCr (first ++ second)).2],
      found.length ≤ bound) : (splitFrom line afterCr first).2.length ≤ bound := by
  induction first generalizing line afterCr with
  | nil => exact begun_of_splitFrom line afterCr second short
  | cons c first inductionHypothesis =>
      rw [List.cons_append, splitFrom] at short
      rw [splitFrom]
      split
      · next pair =>
          rw [if_pos pair] at short
          exact inductionHypothesis line false short
      · next notPair =>
          rw [if_neg notPair] at short
          split
          · next isLf =>
              rw [if_pos isLf] at short
              exact inductionHypothesis [] false fun found member =>
                short found (List.mem_cons_of_mem line member)
          · next notLf =>
              rw [if_neg notLf] at short
              split
              · next isCr =>
                  rw [if_pos isCr] at short
                  exact inductionHypothesis [] true fun found member =>
                    short found (List.mem_cons_of_mem line member)
              · next notCr =>
                  rw [if_neg notCr] at short
                  exact inductionHypothesis (line ++ [c]) false short

/-! ## Spellings -/

/-- The three ways to end a line. -/
inductive LineEnd
  | lf
  | crlf
  | cr
  deriving DecidableEq, Repr

/-- The bytes of a line ending. -/
def LineEnd.bytes : LineEnd → Bytes
  | .lf => [EventStream.lf]
  | .crlf => [EventStream.cr, EventStream.lf]
  | .cr => [EventStream.cr]

/-- Lines with one ending each, and an unfinished line behind them. -/
def spell (ending : LineEnd) (split : List Bytes × Bytes) : Bytes :=
  split.1.flatMap (fun line => line ++ ending.bytes) ++ split.2

/-- The stream with every line ending spelled the one way. -/
def respell (ending : LineEnd) (bytes : Bytes) : Bytes :=
  spell ending (lines bytes)

/-- No line ends inside a line. -/
def Plain (line : Bytes) : Prop :=
  ∀ c ∈ line, isInner c = true

theorem lines_plain (bytes : Bytes) :
    (∀ line ∈ (lines bytes).1, Plain line) ∧ Plain (lines bytes).2 := by
  fun_induction lines bytes with
  | case1 => simp [Plain]
  | case2 rest inductionHypothesis =>
      refine ⟨?_, inductionHypothesis.2⟩
      intro line member
      rcases List.mem_cons.mp member with rfl | member
      · simp [Plain]
      · exact inductionHypothesis.1 line member
  | case3 c rest notPair inner none inductionHypothesis =>
      refine ⟨by simp, ?_⟩
      intro d member
      rcases List.mem_cons.mp member with rfl | member
      · exact inner
      · exact inductionHypothesis.2 d member
  | case4 c rest notPair inner line more some inductionHypothesis =>
      rw [some] at inductionHypothesis
      refine ⟨?_, inductionHypothesis.2⟩
      intro found member
      rcases List.mem_cons.mp member with rfl | member
      · intro d member
        rcases List.mem_cons.mp member with rfl | member
        · exact inner
        · exact inductionHypothesis.1 line List.mem_cons_self d member
      · exact inductionHypothesis.1 found (List.mem_cons_of_mem line member)
  | case5 c rest notPair notInner inductionHypothesis =>
      refine ⟨?_, inductionHypothesis.2⟩
      intro line member
      rcases List.mem_cons.mp member with rfl | member
      · simp [Plain]
      · exact inductionHypothesis.1 line member

theorem lines_append_plain {line : Bytes} (plain : Plain line) (rest : Bytes) :
    lines (line ++ rest) = prepend line (lines rest) := by
  induction line with
  | nil => simp
  | cons c line inductionHypothesis =>
      have inner := plain c List.mem_cons_self
      have others := inductionHypothesis fun d member =>
        plain d (List.mem_cons_of_mem c member)
      rw [List.cons_append, lines_inner inner, others, prepend_prepend]
      rfl

theorem lines_of_plain {tail : Bytes} (plain : Plain tail) : lines tail = ([], tail) := by
  have found := lines_append_plain plain []
  simpa [lines, prepend] using found

/-- A spelling that opens with an LF ends its lines with LF. -/
theorem spell_head
    {ending : LineEnd} {split : List Bytes × Bytes}
    (plain : (∀ line ∈ split.1, Plain line) ∧ Plain split.2)
    (notLf : ending ≠ .lf) : (spell ending split).head? ≠ some lf := by
  obtain ⟨_ | ⟨line, more⟩, tail⟩ := split
  · obtain ⟨-, tailPlain⟩ := plain
    cases tail with
    | nil => simp [spell]
    | cons c tail =>
        have inner := tailPlain c List.mem_cons_self
        simp only [isInner, Bool.and_eq_true, bne_iff_ne, ne_eq] at inner
        simpa [spell] using inner.1
  · cases line with
    | nil => cases ending <;> simp_all [spell, LineEnd.bytes, lf, cr]
    | cons c line =>
        have inner := plain.1 _ List.mem_cons_self c List.mem_cons_self
        simp only [isInner, Bool.and_eq_true, bne_iff_ne, ne_eq] at inner
        simpa [spell] using inner.1

/-- The lines of a spelling are the lines spelled. -/
theorem lines_spell
    (ending : LineEnd) {split : List Bytes × Bytes}
    (plain : (∀ line ∈ split.1, Plain line) ∧ Plain split.2) :
    lines (spell ending split) = split := by
  obtain ⟨finished, tail⟩ := split
  obtain ⟨linesPlain, tailPlain⟩ := plain
  induction finished with
  | nil => simpa [spell] using lines_of_plain tailPlain
  | cons line more inductionHypothesis =>
      have morePlain : ∀ found ∈ more, Plain found := fun found member =>
        linesPlain found (List.mem_cons_of_mem line member)
      have rest := inductionHypothesis morePlain tailPlain
      have ends : lines (ending.bytes ++ spell ending (more, tail)) =
          ([] :: more, tail) := by
        cases ending with
        | lf =>
            rw [show LineEnd.lf.bytes = [lf] from rfl, List.singleton_append, lines_lf, rest]
        | crlf =>
            rw [show LineEnd.crlf.bytes = [cr, lf] from rfl, List.cons_append,
              List.singleton_append, lines_crlf, rest]
        | cr =>
            have notPair := @spell_head .cr (more, tail)
              ⟨morePlain, tailPlain⟩ (by decide)
            rw [show LineEnd.cr.bytes = [cr] from rfl, List.singleton_append,
              lines_cr notPair, rest]
      have shape : spell ending (line :: more, tail) =
          line ++ (ending.bytes ++ spell ending (more, tail)) := by
        simp [spell]
      rw [shape, lines_append_plain (linesPlain line List.mem_cons_self), ends, prepend,
        List.append_nil]

/-- Spelling the endings another way leaves the lines as they are. -/
theorem lines_respell (ending : LineEnd) (bytes : Bytes) :
    lines (respell ending bytes) = lines bytes :=
  lines_spell ending (lines_plain bytes)

end EventStream
end Llmbridge
