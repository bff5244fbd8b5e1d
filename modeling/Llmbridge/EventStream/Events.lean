import Llmbridge.EventStream.Lines

/-!
# The events of an event stream

`events` is the reference: blocks of lines end at a blank line, and an event is
the `data` fields of a block joined by LF.  `Reader` takes the stream one byte at
a time and fails at an event that grows too long; `run` of a whole stream depends
on its lines alone.
-/

namespace Llmbridge
namespace EventStream

open Rfc8259 (Byte Bytes ascii)

/-! ## Reference -/

/-- The value of a `data` line, without one leading space; no other line has one. -/
def dataOf (line : Bytes) : Option Bytes :=
  if line.take 4 = ascii "data" then
    match line.drop 4 with
    | [] => some []
    | 0x3a :: 0x20 :: value => some value
    | 0x3a :: value => some value
    | _ => none
  else none

/-- The blocks that a blank line ends, and the unfinished block behind them. -/
def blocks : List Bytes → List (List Bytes) × List Bytes
  | [] => ([], [])
  | line :: rest =>
      if line = [] then ([] :: (blocks rest).1, (blocks rest).2)
      else
        match (blocks rest).1 with
        | [] => ([], line :: (blocks rest).2)
        | block :: more => ((line :: block) :: more, (blocks rest).2)

/-- Values joined by LF; no value is no event. -/
def joined (values : List Bytes) : Option Bytes :=
  if values = [] then none else some (List.intercalate [lf] values)

/-- The data of each finished block that has any. -/
def events (bytes : Bytes) : List Bytes :=
  (blocks (lines bytes).1).1.filterMap fun block => joined (block.filterMap dataOf)

/-- The data of the block that no blank line has ended yet, if it has any. -/
def openEvent (bytes : Bytes) : Option Bytes :=
  joined ((blocks (lines bytes).1).2.filterMap dataOf)

/-! ## One line at a time -/

/-- The data held with one more value. -/
def hold (held : Option Bytes) (value : Bytes) : Bytes :=
  match held with
  | none => value
  | some data => data ++ lf :: value

/-- What is held of an event between two lines, and whether it grew too long. -/
structure Held where
  data : Option Bytes := none
  failed : Bool := false
  deriving DecidableEq, Repr

/-- One finished line: a blank one gives the event held. -/
def Held.takeLine (limit : Nat) (h : Held) (line : Bytes) : Held × Option Bytes :=
  if h.failed then (h, none)
  else if line = [] then ({ data := none }, h.data)
  else
    match dataOf line with
    | none => (h, none)
    | some value =>
        ({ data := some (hold h.data value)
           failed := decide (limit ≤ (hold h.data value).length) }, none)

/-- Finished lines in turn. -/
def Held.takeLines (limit : Nat) (h : Held) : List Bytes → Held × List Bytes
  | [] => (h, [])
  | line :: rest =>
      let (next, event) := h.takeLine limit line
      let (last, more) := next.takeLines limit rest
      (last, event.toList ++ more)

theorem Held.takeLines_failed (limit : Nat) {h : Held} (failed : h.failed = true)
    (ls : List Bytes) : h.takeLines limit ls = (h, []) := by
  induction ls with
  | nil => rfl
  | cons line rest inductionHypothesis =>
      simp [takeLines, takeLine, failed, inductionHypothesis]

/-- What is held behind these values. -/
def heldAfter (held : Option Bytes) (values : List Bytes) : Option Bytes :=
  values.foldl (fun held value => some (hold held value)) held

theorem heldAfter_some (data : Bytes) (values : List Bytes) :
    heldAfter (some data) values =
      some (data ++ values.flatMap fun value => lf :: value) := by
  induction values generalizing data with
  | nil => simp [heldAfter]
  | cons value values inductionHypothesis =>
      have next := inductionHypothesis (data ++ lf :: value)
      rw [heldAfter, List.foldl_cons]
      apply next.trans
      simp

theorem joined_eq (values : List Bytes) : joined values = heldAfter none values := by
  cases values with
  | nil => rfl
  | cons value values =>
      have found := heldAfter_some value values
      rw [joined, if_neg (List.cons_ne_nil _ _)]
      refine (congrArg some ?_).trans found.symm
      induction values generalizing value with
      | nil => simp [List.intercalate]
      | cons next values inductionHypothesis =>
          have rest := inductionHypothesis next (heldAfter_some next values)
          simp only [List.intercalate] at rest ⊢
          simp [rest]

/-- The events of finished blocks, the first continuing what is held. -/
def eventsFrom (held : Option Bytes) : List (List Bytes) → List Bytes
  | [] => []
  | block :: more =>
      (heldAfter held (block.filterMap dataOf)).toList ++ eventsFrom none more

theorem eventsFrom_none (found : List (List Bytes)) :
    eventsFrom none found =
      found.filterMap fun block => joined (block.filterMap dataOf) := by
  induction found with
  | nil => rfl
  | cons block more inductionHypothesis =>
      rw [eventsFrom, inductionHypothesis, ← joined_eq]
      cases data : joined (block.filterMap dataOf) <;> simp [data]

theorem eventsFrom_blank (held : Option Bytes) (ls : List Bytes) :
    eventsFrom held (blocks ([] :: ls)).1 = held.toList ++ eventsFrom none (blocks ls).1 :=
  rfl

theorem eventsFrom_line
    (held : Option Bytes) {line : Bytes} (some : line ≠ []) (ls : List Bytes) :
    eventsFrom held (blocks (line :: ls)).1 =
      eventsFrom (heldAfter held (dataOf line).toList) (blocks ls).1 := by
  rw [blocks, if_neg some]
  cases (blocks ls).1 with
  | nil => rfl
  | cons block more => cases value : dataOf line <;> simp [eventsFrom, value, heldAfter]

/-- The events given are the first of the reference's; while none of the
reference's is too long, they are all of them. -/
theorem Held.takeLines_events
    (limit : Nat) (held : Option Bytes) (ls : List Bytes) :
    (takeLines limit { data := held } ls).2 <+: eventsFrom held (blocks ls).1 ∧
      ((∀ event ∈ eventsFrom held (blocks ls).1, event.length < limit) →
        (takeLines limit { data := held } ls).2 = eventsFrom held (blocks ls).1) := by
  induction ls generalizing held with
  | nil => simp [takeLines, eventsFrom, blocks]
  | cons line ls inductionHypothesis =>
      by_cases blank : line = []
      · subst blank
        obtain ⟨isPrefix, all⟩ := inductionHypothesis none
        rw [eventsFrom_blank]
        simp only [takeLines, takeLine, Bool.false_eq_true, if_false, if_true]
        constructor
        · exact (List.prefix_append_right_inj _).mpr isPrefix
        · intro short
          rw [all fun event member => short event (List.mem_append_right _ member)]
      · rw [eventsFrom_line held blank]
        simp only [takeLines, takeLine, Bool.false_eq_true, if_false, blank]
        cases dataOf line with
        | none => simpa [heldAfter] using inductionHypothesis held
        | some value =>
            simp only [Option.toList_some, heldAfter, List.foldl_cons, List.foldl_nil,
              Option.toList_none, List.nil_append]
            by_cases long : limit ≤ (hold held value).length
            · have stuck := takeLines_failed limit
                (h := { data := some (hold held value), failed := true }) rfl ls
              rw [decide_eq_true long, stuck]
              refine ⟨List.nil_prefix, fun short => ?_⟩
              cases found : (blocks ls).1 with
              | nil => rfl
              | cons block more =>
                  have ended := heldAfter_some (hold held value) (block.filterMap dataOf)
                  rw [found, eventsFrom, ended] at short
                  have within := short _ (List.mem_append_left _ (List.mem_singleton_self _))
                  rw [List.length_append] at within
                  omega
            · rw [decide_eq_false long]
              exact inductionHypothesis (some (hold held value))

/-- What is held of the unfinished block, the first continuing what is held. -/
def openFrom (held : Option Bytes) (found : List (List Bytes) × List Bytes) : Option Bytes :=
  heldAfter (if found.1 = [] then held else none) (found.2.filterMap dataOf)

theorem openFrom_line
    (held : Option Bytes) {line : Bytes} (some : line ≠ []) (ls : List Bytes) :
    openFrom held (blocks (line :: ls)) =
      openFrom (heldAfter held (dataOf line).toList) (blocks ls) := by
  rw [blocks, if_neg some]
  cases found : (blocks ls).1 with
  | nil =>
      simp only [openFrom, found, if_true]
      cases value : dataOf line <;> simp [value, heldAfter]
  | cons block more => simp [openFrom, found]

theorem heldAfter_length
    {held : Option Bytes} {data : Bytes} (holds : data ∈ held) (values : List Bytes) :
    ∃ more ∈ heldAfter held values, data.length ≤ more.length := by
  rw [Option.mem_def] at holds
  subst holds
  refine ⟨_, heldAfter_some data values, ?_⟩
  rw [List.length_append]
  exact Nat.le_add_right _ _

/-- While no finished event is too long, the lines taken fail at the unfinished one
alone. -/
theorem Held.takeLines_failed_iff
    (limit : Nat) (held : Option Bytes) (ls : List Bytes)
    (short : ∀ event ∈ eventsFrom held (blocks ls).1, event.length < limit)
    (shortHeld : ∀ data ∈ held, data.length < limit) :
    (takeLines limit { data := held } ls).1.failed = true ↔
      ∃ data ∈ openFrom held (blocks ls), limit ≤ data.length := by
  induction ls generalizing held with
  | nil =>
      simp only [takeLines, blocks, openFrom, List.filterMap_nil, heldAfter, List.foldl_nil,
        if_true, Bool.false_eq_true, false_iff, not_exists, not_and, Nat.not_le]
      exact shortHeld
  | cons line ls inductionHypothesis =>
      by_cases blank : line = []
      · subst blank
        rw [eventsFrom_blank] at short
        have rest := inductionHypothesis none
          (fun event member => short event (List.mem_append_right _ member)) (by simp)
        have same : openFrom held (blocks ([] :: ls)) = openFrom none (blocks ls) := by
          simp [openFrom, blocks]
        rw [same, ← rest]
        simp [takeLines, takeLine]
      · rw [eventsFrom_line held blank] at short
        rw [openFrom_line held blank]
        simp only [takeLines, takeLine, Bool.false_eq_true, if_false, blank]
        cases value : dataOf line with
        | none =>
            rw [value] at short
            exact inductionHypothesis held short shortHeld
        | some value' =>
            rw [value] at short
            have now : heldAfter held (some value').toList = some (hold held value') := rfl
            rw [now] at short ⊢
            by_cases long : limit ≤ (hold held value').length
            · have stuck := takeLines_failed limit
                (h := { data := some (hold held value'), failed := true }) rfl ls
              simp only [decide_eq_true long, stuck, true_iff]
              cases found : (blocks ls).1 with
              | nil =>
                  obtain ⟨more, holds, longer⟩ := heldAfter_length
                    (Option.mem_some_self (hold held value'))
                    ((blocks ls).2.filterMap dataOf)
                  refine ⟨more, ?_, Nat.le_trans long longer⟩
                  rw [openFrom, found, if_pos rfl]
                  exact holds
              | cons block rest =>
                  obtain ⟨more, holds, longer⟩ := heldAfter_length
                    (Option.mem_some_self (hold held value')) (block.filterMap dataOf)
                  rw [found, eventsFrom] at short
                  have within := short more (List.mem_append_left _ (by simpa using holds))
                  omega
            · simp only [decide_eq_false long]
              refine inductionHypothesis _ short ?_
              intro data same
              cases same
              exact Nat.lt_of_not_le long

/-! ## One byte at a time -/

/-- The reader between two bytes: the line begun, and what is held. -/
structure Reader where
  line : Bytes := []
  afterCr : Bool := false
  held : Held := {}
  deriving DecidableEq, Repr

namespace Reader

/-- The line ends. -/
def endLine (limit : Nat) (r : Reader) (afterCr : Bool) : Reader × Option Bytes :=
  ({ line := [], afterCr := afterCr, held := (r.held.takeLine limit r.line).1 },
    (r.held.takeLine limit r.line).2)

/-- One byte. -/
def step (limit : Nat) (r : Reader) (c : Byte) : Reader × Option Bytes :=
  if r.afterCr && c == lf then ({ r with afterCr := false }, none)
  else if c == lf then r.endLine limit false
  else if c == cr then r.endLine limit true
  else ({ r with line := r.line ++ [c], afterCr := false }, none)

/-- Bytes in turn, with the events they end. -/
def run (limit : Nat) (r : Reader) : Bytes → Reader × List Bytes
  | [] => (r, [])
  | c :: rest =>
      let (next, event) := r.step limit c
      let (last, more) := next.run limit rest
      (last, event.toList ++ more)

theorem run_cons (limit : Nat) (r : Reader) (c : Byte) (rest : Bytes) :
    r.run limit (c :: rest) =
      (((r.step limit c).1.run limit rest).1,
        (r.step limit c).2.toList ++ ((r.step limit c).1.run limit rest).2) := rfl

theorem run_append (limit : Nat) (r : Reader) (first second : Bytes) :
    r.run limit (first ++ second) =
      (((r.run limit first).1.run limit second).1,
        (r.run limit first).2 ++ ((r.run limit first).1.run limit second).2) := by
  induction first generalizing r with
  | nil => rfl
  | cons c rest inductionHypothesis =>
      rw [List.cons_append, run_cons, inductionHypothesis, run_cons, List.append_assoc]

/-- Reading byte by byte is taking the finished lines in turn. -/
theorem run_splitFrom (limit : Nat) (line : Bytes) (afterCr : Bool) (h : Held)
    (bytes : Bytes) :
    (run limit ⟨line, afterCr, h⟩ bytes).2 =
        (h.takeLines limit (splitFrom line afterCr bytes).1).2 ∧
      (run limit ⟨line, afterCr, h⟩ bytes).1.held =
        (h.takeLines limit (splitFrom line afterCr bytes).1).1 ∧
      (run limit ⟨line, afterCr, h⟩ bytes).1.line = (splitFrom line afterCr bytes).2 := by
  induction bytes generalizing line afterCr h with
  | nil => exact ⟨rfl, rfl, rfl⟩
  | cons c rest inductionHypothesis =>
      rw [run_cons, step, splitFrom]
      split
      · exact inductionHypothesis line false h
      · split
        · obtain ⟨told, held, tail⟩ :=
            inductionHypothesis [] false (h.takeLine limit line).1
          exact ⟨congrArg _ told, held, tail⟩
        · split
          · obtain ⟨told, held, tail⟩ :=
              inductionHypothesis [] true (h.takeLine limit line).1
            exact ⟨congrArg _ told, held, tail⟩
          · exact inductionHypothesis (line ++ [c]) false h

/-- Behind an event too long nothing is read. -/
theorem run_failed (limit : Nat) (line : Bytes) (afterCr : Bool) {h : Held}
    (failed : h.failed = true) (bytes : Bytes) :
    (run limit ⟨line, afterCr, h⟩ bytes).2 = [] ∧
      (run limit ⟨line, afterCr, h⟩ bytes).1.held = h := by
  obtain ⟨told, held, -⟩ := run_splitFrom limit line afterCr h bytes
  have stuck := Held.takeLines_failed limit failed (splitFrom line afterCr bytes).1
  rw [stuck] at told held
  exact ⟨told, held⟩

theorem run_lines (limit : Nat) (bytes : Bytes) :
    (run limit {} bytes).2 = (Held.takeLines limit {} (lines bytes).1).2 ∧
      (run limit {} bytes).1.held = (Held.takeLines limit {} (lines bytes).1).1 ∧
      (run limit {} bytes).1.line = (lines bytes).2 := by
  have found := run_splitFrom limit [] false {} bytes
  rwa [splitFrom_eq, prepend_nil] at found

/-- A stream whose events are short enough gives the reference's events. -/
theorem run_events {limit : Nat} {bytes : Bytes}
    (short : ∀ event ∈ events bytes, event.length < limit) :
    (run limit {} bytes).2 = events bytes := by
  obtain ⟨told, -, -⟩ := run_lines limit bytes
  have all := (Held.takeLines_events limit none (lines bytes).1).2
  rw [eventsFrom_none] at all
  exact told.trans (all short)

/-- Such a stream fails the reader only by the block it leaves unfinished. -/
theorem run_held_failed {limit : Nat} {bytes : Bytes}
    (short : ∀ event ∈ events bytes, event.length < limit) :
    (run limit {} bytes).1.held.failed = true ↔
      ∃ data ∈ openEvent bytes, limit ≤ data.length := by
  obtain ⟨-, held, -⟩ := run_lines limit bytes
  have found := Held.takeLines_failed_iff limit none (lines bytes).1
    (by rwa [eventsFrom_none]) (by simp)
  have same : openFrom none (blocks (lines bytes).1) = openEvent bytes := by
    rw [openFrom, ite_self, openEvent, joined_eq]
  rw [held, ← same]
  exact found

/-- What is begun of a line is the front of one of the lines. -/
theorem begun_le {bound : Nat} (first second : Bytes)
    (short : ∀ line ∈ (lines (first ++ second)).1 ++ [(lines (first ++ second)).2],
      line.length ≤ bound) (limit : Nat) :
    (run limit {} first).1.line.length ≤ bound := by
  obtain ⟨-, -, line⟩ := run_lines limit first
  have found := @splitFrom_begun bound [] false first second
  rw [splitFrom_eq, splitFrom_eq, prepend_nil, prepend_nil] at found
  rw [line]
  exact found short

/-! ### Runs inside a line -/

theorem step_ends
    (limit : Nat) (line : Bytes) (h : Held) {c : Byte} (ends : isInner c = false) :
    step limit ⟨line, false, h⟩ c = endLine limit ⟨line, false, h⟩ (c == cr) := by
  by_cases isLf : c = lf
  · subst isLf
    rfl
  · have isCr : c = cr := by simpa [isInner, isLf] using ends
    subst isCr
    rfl

theorem run_inner
    (limit : Nat) (r : Reader) {front : Bytes} (plain : Plain front) (some : front ≠ [])
    (rest : Bytes) :
    r.run limit (front ++ rest) =
      run limit ⟨r.line ++ front, false, r.held⟩ rest := by
  induction front generalizing r with
  | nil => exact absurd rfl some
  | cons c front inductionHypothesis =>
      have inner := plain c List.mem_cons_self
      simp only [isInner, Bool.and_eq_true, bne_iff_ne, ne_eq] at inner
      have stepped : r.step limit c = (⟨r.line ++ [c], false, r.held⟩, none) := by
        simp [step, inner]
      rw [List.cons_append, run_cons, stepped]
      by_cases last : front = []
      · subst last
        rfl
      · rw [inductionHypothesis _ (fun d member => plain d (List.mem_cons_of_mem c member))
          last]
        simp

/-- Behind a CR only an LF is read differently. -/
theorem run_afterCr
    (limit : Nat) (line : Bytes) (h : Held) {rest : Bytes} (notPair : rest.head? ≠ some lf)
    (more : rest ≠ []) :
    run limit ⟨line, true, h⟩ rest = run limit ⟨line, false, h⟩ rest := by
  cases rest with
  | nil => exact absurd rfl more
  | cons c rest =>
      have notLf : c ≠ lf := by simpa using notPair
      simp [run_cons, step, notLf, endLine]

end Reader

end EventStream
end Llmbridge
