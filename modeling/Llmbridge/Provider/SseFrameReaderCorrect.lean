import Llmbridge.Provider.SseFrameReader

/-!
# The frame reader follows the byte-by-byte reader

Between two rounds of its loop the frame reader stands for a state of the
reference reader, wherever the line and the data it holds are kept.  A call of
`next` then gives the first event of the bytes ahead, and comes to the end of the
read in the state behind all of them.
-/

namespace Llmbridge
namespace SseFrameReader

open Rfc8259 (Byte Bytes ascii)
open EventStream (Reader Held Plain isInner dataOf hold lf)

/-- The bytes of the read not passed yet. -/
def ahead (r : SseFrameReader) : Bytes :=
  r.input.drop r.pos

/-- The bytes of the unfinished line; one the reader owns was finished. -/
def begun (r : SseFrameReader) : Bytes :=
  if r.lineOwned then [] else r.line

/-- The data held of the event being read, if any. -/
def holding (r : SseFrameReader) : Option Bytes :=
  if r.has then some r.held else none

/-- The frame reader stands where the reference reader does. -/
structure Follows (r : SseFrameReader) (s : Reader) : Prop where
  failed : r.failed = false
  stopped : r.stopped = false
  inside : r.pos ≤ r.input.length
  cr : r.cr = r.input.contains EventStream.cr
  line : r.begun = s.line
  skip : r.skipLf = s.afterCr
  data : r.holding = s.held.data
  alive : s.held.failed = false

/-- Between two reads nothing points into the one that is gone. -/
structure Rests (r : SseFrameReader) (s : Reader) : Prop extends Follows r s where
  viewing : r.viewing = false
  owned : r.lineOwned = false

theorem Rests.start : Rests {} {} where
  failed := rfl
  stopped := rfl
  inside := Nat.le_refl 0
  cr := rfl
  line := rfl
  skip := rfl
  data := rfl
  alive := rfl
  viewing := rfl
  owned := rfl

/-- The next read is all ahead. -/
theorem Rests.feed {r : SseFrameReader} {s : Reader} (rests : Rests r s) (bytes : Bytes) :
    Follows (r.feed bytes) s where
  failed := rests.failed
  stopped := rests.stopped
  inside := Nat.zero_le _
  cr := rfl
  line := rests.line
  skip := rests.skip
  data := by
    rw [← rests.data]
    simp [holding, held, SseFrameReader.feed, rests.viewing]
  alive := rests.alive

/-! ## Parts of a round -/

theorem ahead_cons {r : SseFrameReader} (more : r.pos < r.input.length) :
    ∃ c rest, r.input[r.pos]? = some c ∧ r.ahead = c :: rest ∧
      r.input.drop (r.pos + 1) = rest := by
  refine ⟨r.input[r.pos], r.input.drop (r.pos + 1), List.getElem?_eq_getElem more, ?_, rfl⟩
  exact List.drop_eq_getElem_cons more

/-- The top of the loop, against the reference reader. -/
theorem Follows.settle {r : SseFrameReader} {s : Reader} (follows : Follows r s) :
    ∃ s', Follows r.settle s' ∧ r.settle.lineOwned = false ∧
      r.settle.input = r.input ∧ r.pos ≤ r.settle.pos ∧
      (r.settle.skipLf = true → r.settle.ahead = []) ∧
      s.run kMaxEvent r.ahead = s'.run kMaxEvent r.settle.ahead := by
  obtain ⟨failed, stopped, inside, cr, line, skip, data, alive⟩ := follows
  obtain ⟨p, free, same⟩ : ∃ p : SseFrameReader,
      (if r.lineOwned then { r with line := [], lineOwned := false } else r) = p ∧
      p = { r with line := r.begun, lineOwned := false } := by
    refine ⟨_, rfl, ?_⟩
    by_cases owned : r.lineOwned = true
    · rw [if_pos owned, begun, if_pos owned]
    · rw [if_neg owned, begun, if_neg owned]
      rw [Bool.not_eq_true] at owned
      rw [← owned]
  have settle : r.settle = if p.skipLf && p.pos < p.input.length then
      { p with
        pos := if p.input[p.pos]? = some EventStream.lf then p.pos + 1 else p.pos
        skipLf := false } else p := by
    rw [SseFrameReader.settle, free]
  subst same
  by_cases skips : r.skipLf = true ∧ r.pos < r.input.length
  · rw [if_pos (by simpa using skips)] at settle
    obtain ⟨c, rest, byte, split, behind⟩ := ahead_cons skips.2
    have after : s.afterCr = true := skip ▸ skips.1
    rw [byte] at settle
    by_cases pair : c = lf
    · subst pair
      rw [if_pos rfl] at settle
      refine ⟨{ s with afterCr := false }, ?_, ?_, ?_, ?_, ?_, ?_⟩
      · rw [settle]
        exact ⟨failed, stopped, skips.2, cr, line, rfl, data, alive⟩
      · rw [settle]
      · rw [settle]
      · rw [settle]
        exact Nat.le_succ _
      · rw [settle]
        exact Bool.noConfusion
      · rw [settle, split, Reader.run_cons, Reader.step]
        simp [after, ahead, behind]
    · rw [if_neg (by simpa using pair)] at settle
      refine ⟨{ s with afterCr := false }, ?_, ?_, ?_, ?_, ?_, ?_⟩
      · rw [settle]
        exact ⟨failed, stopped, inside, cr, line, rfl, data, alive⟩
      · rw [settle]
      · rw [settle]
      · rw [settle]
      · rw [settle]
        exact Bool.noConfusion
      · have same := @Reader.run_afterCr kMaxEvent s.line s.held r.ahead
          (by simpa [split] using pair) (by simp [split])
        rw [settle, ← after] at *
        exact same
  · rw [if_neg (by simpa using skips)] at settle
    refine ⟨s, ?_, ?_, ?_, ?_, ?_, ?_⟩
    · rw [settle]
      exact ⟨failed, stopped, inside, cr, line, skip, data, alive⟩
    · rw [settle]
    · rw [settle]
    · rw [settle]
    · rw [settle]
      intro skipping
      have ended : r.input.length ≤ r.pos := Nat.le_of_not_lt fun more =>
        skips ⟨skipping, more⟩
      exact List.drop_eq_nil_of_le ended
    · rw [settle]
      rfl

theorem memchr_spec
    (input : Bytes) (c : Byte) {«at» stop : Nat} (order : «at» ≤ stop)
    (inside : stop ≤ input.length) :
    «at» ≤ memchr input c «at» stop ∧ memchr input c «at» stop ≤ stop ∧
      (∀ d ∈ (input.drop «at»).take (memchr input c «at» stop - «at»), d ≠ c) ∧
      (memchr input c «at» stop < stop → input[memchr input c «at» stop]? = some c) := by
  have split := List.takeWhile_append_dropWhile
    (p := fun d => d != c) (l := (input.drop «at»).take (stop - «at»))
  have length : ((input.drop «at»).take (stop - «at»)).length = stop - «at» := by
    rw [List.length_take, List.length_drop]
    omega
  have sum := congrArg List.length split
  rw [List.length_append, length] at sum
  refine ⟨Nat.le_add_right _ _, ?_, ?_, ?_⟩
  · rw [memchr]
    omega
  · rw [memchr, Nat.add_sub_cancel_left]
    intro d member
    have front : (input.drop «at»).take
        (((input.drop «at»).take (stop - «at»)).takeWhile fun d => d != c).length =
        ((input.drop «at»).take (stop - «at»)).takeWhile fun d => d != c := by
      have taken := congrArg (List.take
        (((input.drop «at»).take (stop - «at»)).takeWhile fun d => d != c).length) split
      rw [List.take_left, List.take_take, Nat.min_eq_left (by omega)] at taken
      exact taken.symm
    rw [front] at member
    simpa using List.mem_takeWhile_imp member
  · intro before
    rw [memchr] at before ⊢
    have some : ((input.drop «at»).take (stop - «at»)).dropWhile (fun d => d != c) ≠ [] := by
      intro none
      rw [none] at sum
      simp only [List.length_nil] at sum
      omega
    have head := List.head_dropWhile_not (fun d => d != c) some
    have place := congrArg (fun l => l[(((input.drop «at»).take
      (stop - «at»)).takeWhile fun d => d != c).length]?) split
    rw [List.getElem?_append_right (Nat.le_refl _), Nat.sub_self] at place
    rw [← List.head?_eq_getElem?, List.head?_eq_some_head some, List.getElem?_take_of_lt (by omega),
      List.getElem?_drop] at place
    rw [← place]
    simpa using head

/-- The end of the line ahead: the bytes before it are the line's own. -/
theorem lineStop_spec {r : SseFrameReader} (inside : r.pos ≤ r.input.length)
    (cr : r.cr = r.input.contains EventStream.cr) :
    ∃ front tail, r.ahead = front ++ tail ∧ Plain front ∧
      r.lineStop = r.pos + front.length ∧
      (r.input.drop r.pos).take (r.lineStop - r.pos) = front ∧
      (r.lineStop < r.input.length → ∃ c more, tail = c :: more ∧
        r.input[r.lineStop]? = some c ∧ isInner c = false ∧
        r.input.drop (r.lineStop + 1) = more) ∧
      (r.lineStop = r.input.length → tail = []) ∧ r.lineStop ≤ r.input.length := by
  obtain ⟨low, high, noLf, byteLf⟩ :=
    memchr_spec r.input EventStream.lf inside (Nat.le_refl r.input.length)
  have found : r.pos ≤ r.lineStop ∧ r.lineStop ≤ r.input.length ∧
      Plain ((r.input.drop r.pos).take (r.lineStop - r.pos)) ∧
      (r.lineStop < r.input.length → ∃ c, r.input[r.lineStop]? = some c ∧
        isInner c = false) := by
    rw [lineStop]
    by_cases hasCr : r.cr = true
    · rw [if_pos hasCr]
      obtain ⟨low', high', noCr, byteCr⟩ := memchr_spec r.input EventStream.cr low high
      refine ⟨low', Nat.le_trans high' high, ?_, ?_⟩
      · intro d member
        have notCr := noCr d member
        have wider : d ∈ (r.input.drop r.pos).take
            (memchr r.input EventStream.lf r.pos r.input.length - r.pos) :=
          (List.take_prefix_take_left (Nat.sub_le_sub_right high' _)).subset member
        simp [isInner, noLf d wider, notCr]
      · intro before
        by_cases first : memchr r.input EventStream.cr r.pos
            (memchr r.input EventStream.lf r.pos r.input.length) <
            memchr r.input EventStream.lf r.pos r.input.length
        · exact ⟨_, byteCr first, rfl⟩
        · have same := Nat.le_antisymm high' (Nat.le_of_not_lt first)
          rw [same] at before ⊢
          exact ⟨_, byteLf before, rfl⟩
    · rw [if_neg hasCr]
      refine ⟨low, high, ?_, fun before => ⟨_, byteLf before, rfl⟩⟩
      intro d member
      have notCr : d ≠ EventStream.cr := by
        rintro rfl
        have present := List.mem_of_mem_drop (List.mem_of_mem_take member)
        rw [cr, List.contains_iff_mem] at hasCr
        exact hasCr present
      simp [isInner, noLf d member, notCr]
  obtain ⟨low, high, plain, byte⟩ := found
  refine ⟨(r.input.drop r.pos).take (r.lineStop - r.pos), r.input.drop r.lineStop, ?_,
    plain, ?_, rfl, ?_, ?_, high⟩
  · rw [ahead]
    conv_lhs => rw [← List.take_append_drop (r.lineStop - r.pos) (r.input.drop r.pos)]
    rw [List.drop_drop, Nat.add_sub_cancel' low]
  · rw [List.length_take, List.length_drop]
    omega
  · intro before
    obtain ⟨c, here, ends⟩ := byte before
    refine ⟨c, _, ?_, here, ends, rfl⟩
    rw [List.drop_eq_getElem_cons before]
    rw [List.getElem?_eq_getElem before, Option.some.injEq] at here
    rw [here]
  · intro ended
    rw [ended, List.drop_length]

/-- A reader behind the byte that ends a line. -/
structure Passed (r next : SseFrameReader) (k : Nat) (c : Byte) (more : Bytes) : Prop where
  same : next = { r with pos := next.pos, skipLf := next.skipLf }
  inside : k < next.pos ∧ next.pos ≤ r.input.length
  run : ∀ h : Held, Reader.run kMaxEvent ⟨[], c == EventStream.cr, h⟩ more =
    Reader.run kMaxEvent ⟨[], next.skipLf, h⟩ next.ahead

/-- The byte that ends a line is passed, an LF behind a CR with it. -/
theorem passEnd_spec {r : SseFrameReader} {k : Nat} {c : Byte} {more : Bytes}
    (skip : r.skipLf = false) (before : k < r.input.length) (byte : r.input[k]? = some c)
    (ends : isInner c = false) (behind : r.input.drop (k + 1) = more) :
    Passed r (r.passEnd k) k c more := by
  by_cases isCr : c = EventStream.cr
  · subst isCr
    by_cases atEnd : k + 1 < r.input.length
    · by_cases pair : r.input[k + 1]? = some EventStream.lf
      · have passed : r.passEnd k = { r with pos := k + 1 + 1 } := by
          simp only [passEnd, byte, atEnd, pair, if_true]
        rw [passed]
        refine ⟨by simp, ⟨by simp only; omega, by simp only; omega⟩, fun h => ?_⟩
        have split : more = lf :: r.input.drop (k + 1 + 1) := by
          rw [← behind, List.drop_eq_getElem_cons atEnd]
          rw [List.getElem?_eq_getElem atEnd, Option.some.injEq] at pair
          rw [pair]
        rw [split, Reader.run_cons, Reader.step]
        simp [ahead, skip]
      · have passed : r.passEnd k = { r with pos := k + 1 } := by
          simp only [passEnd, byte, atEnd, pair, if_true, if_false]
        rw [passed]
        refine ⟨by simp, ⟨by simp only; omega, by simp only; omega⟩, fun h => ?_⟩
        have notPair : more.head? ≠ some lf := by
          rw [← behind, List.head?_drop]
          exact pair
        have some : more ≠ [] := by
          rw [← behind, Ne, List.drop_eq_nil_iff]
          omega
        have same := Reader.run_afterCr kMaxEvent [] h notPair some
        simpa [ahead, skip, behind] using same
    · have passed : r.passEnd k = { r with pos := k + 1, skipLf := true } := by
        simp [passEnd, byte, atEnd]
      rw [passed]
      refine ⟨by simp, ⟨by simp only; omega, by simp only; omega⟩, fun h => ?_⟩
      simp [ahead, behind]
  · have passed : r.passEnd k = { r with pos := k + 1 } := by
      simp [passEnd, byte, isCr]
    rw [passed]
    refine ⟨by simp, ⟨by simp only; omega, by simp only; omega⟩, fun h => ?_⟩
    have notCr : (c == EventStream.cr) = false := by simpa using isCr
    simp [ahead, skip, behind, notCr]

/-- The `data` value of a line, with its place. -/
theorem dataField_eq (line : Bytes) :
    (dataField line).map Prod.fst = dataOf line ∧
      ∀ value start, dataField line = some (value, start) → line.drop start = value := by
  by_cases short : line.length < 4
  · have differs : line.take 4 ≠ ascii "data" := by
      intro same
      have size := congrArg List.length same
      have four : (ascii "data").length = 4 := rfl
      rw [List.length_take, four] at size
      omega
    simp [dataField, dataOf, short, differs]
  · by_cases name : line.take 4 = ascii "data"
    · rw [dataField, dataOf, if_pos name]
      have size : line.length = 4 + (line.drop 4).length := by
        rw [List.length_drop]
        omega
      have five : line.drop 5 = (line.drop 4).tail := by rw [← List.drop_one, List.drop_drop]
      have places : ∀ n, line.drop (4 + n) = (line.drop 4).drop n := fun n => by
        rw [List.drop_drop]
      generalize line.drop 4 = rest at *
      rcases rest with _ | ⟨colon, value⟩
      · have only : ¬ 4 < line.length := by simpa using size.le
        simp [short, name, only, places 0]
      · have longer : 4 < line.length := by
          rw [size, List.length_cons]
          omega
        by_cases isColon : colon = 0x3a
        · subst isColon
          rcases value with _ | ⟨space, value⟩
          · simp [short, name, longer, five]
          · by_cases isSpace : space = 0x20
            · subst isSpace
              simp [short, name, longer, five]
              exact places 2
            · simp [short, name, longer, five, isSpace]
        · simp [short, name, longer, isColon]
    · simp [dataField, dataOf, name]

/-- One more value is held. -/
theorem addData_spec
    (r : SseFrameReader) (value : Bytes) (place : Option Nat)
    (inPlace : ∀ «at», place = some «at» → (r.input.drop «at»).take value.length = value) :
    (r.addData value place).1 = decide ((hold r.holding value).length < kMaxEvent) ∧
      (r.addData value place).2.holding = some (hold r.holding value) ∧
      (r.addData value place).2 = { r with
        data := (r.addData value place).2.data
        view := (r.addData value place).2.view
        viewing := (r.addData value place).2.viewing
        has := true } := by
  by_cases has : r.has = true
  · simp [addData, own_eq, has, holding, hold, held]
  · cases place with
    | none => simp [addData, has, holding, hold, held]
    | some «at» =>
        have found := inPlace «at» rfl
        simp [addData, has, holding, hold, held, viewed, found]

/-! ## Rounds -/

/-- What a call of `next` gives, against the run of the bytes ahead. -/
inductive Turn (r : SseFrameReader) (s : Reader) : Step × SseFrameReader → Prop
  | event {data : Bytes} {r' : SseFrameReader} {s' : Reader}
      (follows : Follows r' s') (input : r'.input = r.input) (onward : r.pos < r'.pos)
      (run : s.run kMaxEvent r.ahead =
        ((s'.run kMaxEvent r'.ahead).1, data :: (s'.run kMaxEvent r'.ahead).2)) :
      Turn r s (.event data, r')
  | more {r' : SseFrameReader} {s' : Reader} (rests : Rests r' s')
      (run : s.run kMaxEvent r.ahead = (s', [])) : Turn r s (.more, r')
  | fail {r' : SseFrameReader} (failed : r'.failed = true)
      (stuck : (s.run kMaxEvent r.ahead).1.held.failed = true)
      (none : (s.run kMaxEvent r.ahead).2 = []) : Turn r s (.fail, r')

/-- A turn from a later place whose run is the same. -/
theorem Turn.of_later
    {r q : SseFrameReader} {s t : Reader} {result : Step × SseFrameReader}
    (turn : Turn q t result) (input : q.input = r.input) (later : r.pos ≤ q.pos)
    (same : s.run kMaxEvent r.ahead = t.run kMaxEvent q.ahead) : Turn r s result := by
  cases turn with
  | event follows input' onward run =>
      exact .event follows (input'.trans input) (Nat.lt_of_le_of_lt later onward)
        (same.trans run)
  | more rests run => exact .more rests (same.trans run)
  | fail failed stuck none => exact .fail failed (same ▸ stuck) (same ▸ none)

/-- The end of the read. -/
theorem Follows.pause
    {r q : SseFrameReader} {s t : Reader} (follows : Follows q t)
    (free : q.lineOwned = false) (short : t.line.length ≤ kMaxLine)
    (run : s.run kMaxEvent r.ahead = (t, [])) : Turn r s q.pause := by
  obtain ⟨failed, stopped, inside, cr, line, skip, data, alive⟩ := follows
  have begun : q.line = t.line := by simpa [SseFrameReader.begun, free] using line
  rw [SseFrameReader.pause, if_neg (by rw [begun]; omega), own_eq]
  refine @Turn.more r s _ t ⟨⟨failed, stopped, inside, cr, line, skip, ?_, alive⟩, rfl, free⟩ run
  rw [← data]
  simp [holding, held]

/-- A line is finished: the reader holds it, and goes on behind its end. -/
structure Finished (r q : SseFrameReader) (s : Reader) (piece line : Bytes) : Prop where
  input : q.input = r.input
  onward : r.pos < q.pos
  whole : (if q.lineOwned then q.line else piece) = line
  follows : Follows q ⟨[], q.skipLf, s.held⟩
  run : s.run kMaxEvent r.ahead =
    (((⟨[], q.skipLf, (s.held.takeLine kMaxEvent line).1⟩ : Reader).run kMaxEvent q.ahead).1,
      (s.held.takeLine kMaxEvent line).2.toList ++
        ((⟨[], q.skipLf, (s.held.takeLine kMaxEvent line).1⟩ : Reader).run kMaxEvent
          q.ahead).2)

/-- The line ahead is finished in this read. -/
theorem Follows.finish
    {r : SseFrameReader} {s : Reader} (follows : Follows r s) (free : r.lineOwned = false)
    (skip : r.skipLf = false) (more : r.lineStop ≠ r.input.length) :
    ∃ line, Finished r ((r.passEnd r.lineStop).ownLine
      ((r.input.drop r.pos).take (r.lineStop - r.pos))) s
      ((r.input.drop r.pos).take (r.lineStop - r.pos)) line := by
  obtain ⟨failed, stopped, inside, cr, line, skips, data, alive⟩ := follows
  obtain ⟨front, tail, split, plain, stop, piece, ends, -, bound⟩ := lineStop_spec inside cr
  obtain ⟨c, behind, rfl, byte, notInner, rest⟩ :=
    ends (Nat.lt_of_le_of_ne bound more)
  have before : r.lineStop < r.input.length := Nat.lt_of_le_of_ne bound more
  have passed := passEnd_spec skip before byte notInner rest
  have begun : r.line = s.line := by simpa [SseFrameReader.begun, free] using line
  rw [piece]
  generalize r.passEnd r.lineStop = p at *
  obtain ⟨same, ⟨low, high⟩, run⟩ := passed
  have isLine : p.line = s.line := by rw [same, begun]
  have isFree : p.lineOwned = false := by rw [same, free]
  refine ⟨s.line ++ front, ?_, ?_, ?_, ?_, ?_⟩
  · rw [ownLine]
    split <;> rw [same]
  · rw [ownLine]
    split
    · omega
    · exact Nat.lt_of_le_of_lt (by omega) low
  · rw [ownLine]
    by_cases empty : p.line.isEmpty = true
    · rw [if_pos empty, isFree, ← isLine, List.isEmpty_iff.mp empty]
      rfl
    · rw [if_neg empty, ← isLine]
      rfl
  · have others : ∀ q : SseFrameReader, q = p.ownLine front → q.begun = [] ∧
        q = { r with pos := p.pos, skipLf := p.skipLf, line := q.line,
                     lineOwned := q.lineOwned } := by
      rintro q rfl
      rw [ownLine]
      by_cases empty : p.line.isEmpty = true
      · rw [if_pos empty]
        refine ⟨by simp [SseFrameReader.begun, isFree, List.isEmpty_iff.mp empty], ?_⟩
        rw [same]
      · rw [if_neg empty]
        refine ⟨by simp [SseFrameReader.begun], ?_⟩
        rw [same]
    obtain ⟨none, fields⟩ := others _ rfl
    generalize p.ownLine front = q at *
    constructor
    · rw [fields, failed]
    · rw [fields, stopped]
    · rw [fields]
      exact high
    · rw [fields, cr]
    · exact none
    · rfl
    · rw [fields, ← data]
      rfl
    · exact alive
  · have later : (p.ownLine front).ahead = p.ahead ∧
        (p.ownLine front).skipLf = p.skipLf := by
      rw [ownLine]
      split <;> exact ⟨rfl, rfl⟩
    have reached : s.run kMaxEvent r.ahead =
        Reader.run kMaxEvent ⟨s.line ++ front, false, s.held⟩ (c :: behind) := by
      rw [split]
      by_cases empty : front = []
      · rw [empty, List.nil_append, List.append_nil, ← skip, skips]
      · exact Reader.run_inner kMaxEvent s plain empty (c :: behind)
    rw [later.1, later.2, ← run, reached, Reader.run_cons,
      Reader.step_ends kMaxEvent _ _ notInner]
    rfl

/-- A value at the end of a slice stands in the bytes sliced. -/
theorem slice_inPlace (bytes : Bytes) («at» size start : Nat) {value : Bytes}
    (ends : ((bytes.drop «at»).take size).drop start = value) :
    (bytes.drop («at» + start)).take value.length = value := by
  rw [List.drop_take, List.drop_drop] at ends
  rw [← ends, List.length_take, List.length_drop, List.take_eq_take_iff, List.length_drop]
  omega

/-- A finished line, against the reference reader. -/
inductive Taken (q : SseFrameReader) (h next : Held) (event : Option Bytes) :
    Option Step × SseFrameReader → Prop
  | event {data : Bytes} {q' : SseFrameReader} (told : event = some data)
      (follows : Follows q' ⟨[], q'.skipLf, next⟩)
      (same : q'.input = q.input ∧ q'.pos = q.pos ∧ q'.skipLf = q.skipLf) :
      Taken q h next event (some (.event data), q')
  | more {q' : SseFrameReader} (silent : event = none)
      (follows : Follows q' ⟨[], q'.skipLf, next⟩)
      (same : q'.input = q.input ∧ q'.pos = q.pos ∧ q'.skipLf = q.skipLf) :
      Taken q h next event (none, q')
  | fail {q' : SseFrameReader} (silent : event = none) (failed : q'.failed = true)
      (stuck : next.failed = true) : Taken q h next event (some .fail, q')

theorem Follows.takeLine
    {q : SseFrameReader} {h : Held} (follows : Follows q ⟨[], q.skipLf, h⟩) («at» : Nat)
    (line : Bytes)
    (inPlace : q.lineOwned = false → ∀ value start, line.drop start = value →
      (q.input.drop («at» + start)).take value.length = value) :
    Taken q h (h.takeLine kMaxEvent line).1 (h.takeLine kMaxEvent line).2
      (q.takeLine «at» line) := by
  obtain ⟨failed, stopped, inside, cr, begun, skip, data, alive⟩ := follows
  dsimp only at begun data alive
  by_cases blank : line = []
  · subst blank
    have taken : h.takeLine kMaxEvent [] = ({ data := none }, h.data) := by
      simp [Held.takeLine, alive]
    rw [taken, SseFrameReader.takeLine, List.isEmpty_nil, if_pos rfl]
    by_cases has : q.has = true
    · rw [if_pos has]
      refine .event ?_ ⟨failed, stopped, inside, cr, begun, rfl, rfl, rfl⟩ ⟨rfl, rfl, rfl⟩
      rw [← data, holding, if_pos has]
    · rw [if_neg has]
      have none : q.holding = none := if_neg has
      refine .more (data.symm.trans none) ?_ ⟨rfl, rfl, rfl⟩
      exact ⟨failed, stopped, inside, cr, begun, rfl, none, rfl⟩
  · have notEmpty : ¬ line.isEmpty = true := by simpa using blank
    obtain ⟨values, places⟩ := dataField_eq line
    rw [SseFrameReader.takeLine, if_neg notEmpty, Held.takeLine, alive,
      if_neg Bool.false_ne_true, if_neg blank, ← values]
    cases field : dataField line with
    | none =>
        exact .more rfl ⟨failed, stopped, inside, cr, begun, rfl, data, alive⟩
          ⟨rfl, rfl, rfl⟩
    | some found =>
        obtain ⟨value, start⟩ := found
        obtain ⟨kept, holding, fields⟩ := addData_spec q value
          (if q.lineOwned then none else some («at» + start)) (by
            intro place same
            by_cases owned : q.lineOwned = true
            · simp [owned] at same
            · rw [if_neg owned, Option.some.injEq] at same
              subst same
              rw [Bool.not_eq_true] at owned
              exact inPlace owned value start (places value start field))
        simp only [Option.map_some]
        rw [kept, ← data]
        generalize (q.addData value (if q.lineOwned then none else some («at» + start))).2 = q'
          at *
        by_cases short : (hold q.holding value).length < kMaxEvent
        · rw [decide_eq_true short, if_pos rfl]
          refine .more rfl ⟨?_, ?_, ?_, ?_, ?_, rfl, ?_, ?_⟩ ?_
          · rw [fields, failed]
          · rw [fields, stopped]
          · rw [fields]
            exact inside
          · rw [fields, cr]
          · rw [fields]
            exact begun
          · exact holding
          · exact decide_eq_false (Nat.not_le.mpr short)
          · rw [fields]
            exact ⟨rfl, rfl, rfl⟩
        · rw [decide_eq_false short, if_neg Bool.false_ne_true]
          exact .fail rfl rfl (decide_eq_true (Nat.le_of_not_lt short))

/-- A call of the loop gives the first event ahead, or comes to the end of the
read. -/
theorem nextLoop_turn
    (rounds : Nat) {r : SseFrameReader} {s : Reader} (follows : Follows r s)
    (enough : r.input.length - r.pos < rounds)
    (short : (s.run kMaxEvent r.ahead).1.held.failed = false →
      (s.run kMaxEvent r.ahead).1.line.length ≤ kMaxLine) :
    Turn r s (nextLoop rounds r) := by
  induction rounds generalizing r s with
  | zero => exact absurd enough (Nat.not_lt_zero _)
  | succ rounds inductionHypothesis =>
      obtain ⟨t, settled, free, input, later, ended, same⟩ := follows.settle
      rw [same] at short
      have bound := settled.inside
      rw [nextLoop]
      generalize r.settle = p at *
      refine Turn.of_later ?_ input later same
      have fewer : p.input.length - p.pos < rounds + 1 := by
        rw [input]
        omega
      clear enough same input later follows
      by_cases stops : p.input.length ≤ p.pos ∨ p.skipLf = true
      · rw [if_pos stops]
        have none : p.ahead = [] :=
          stops.elim (fun past => List.drop_eq_nil_of_le past) ended
        rw [none] at short
        exact settled.pause free (short settled.alive) (by rw [none]; rfl)
      · rw [if_neg stops]
        rw [not_or, Nat.not_le, Bool.not_eq_true] at stops
        obtain ⟨onward, skip⟩ := stops
        by_cases atEnd : p.lineStop = p.input.length
        · rw [if_pos atEnd]
          obtain ⟨front, tail, split, plain, stop, piece, -, none, -⟩ :=
            lineStop_spec bound settled.cr
          rw [none atEnd, List.append_nil] at split
          have some : front ≠ [] := by
            rintro rfl
            rw [List.length_nil] at stop
            omega
          have run : t.run kMaxEvent p.ahead =
              (⟨t.line ++ front, false, t.held⟩, []) := by
            have found := Reader.run_inner kMaxEvent t plain some []
            rw [List.append_nil] at found
            exact (congrArg (t.run kMaxEvent) split).trans found
          rw [run] at short
          have begun : p.line = t.line := by
            simpa [SseFrameReader.begun, free] using settled.line
          refine Follows.pause (t := ⟨t.line ++ front, false, t.held⟩) ?_ free
            (short settled.alive) run
          rw [piece, begun]
          exact ⟨settled.failed, settled.stopped, Nat.le_of_eq atEnd, settled.cr,
            by simp [SseFrameReader.begun, free], skip, settled.data, settled.alive⟩
        · rw [if_neg atEnd]
          obtain ⟨line, finished⟩ := settled.finish free skip atEnd
          obtain ⟨input, onward', whole, next, run⟩ := finished
          generalize (p.passEnd p.lineStop).ownLine
            ((p.input.drop p.pos).take (p.lineStop - p.pos)) = q at *
          dsimp only
          rw [whole]
          have taken := next.takeLine p.pos line (by
            intro notOwned value start ends
            rw [if_neg (by simp [notOwned])] at whole
            rw [← whole] at ends
            rw [input]
            exact slice_inPlace p.input p.pos _ start ends)
          have fewer' : q.input.length - q.pos < rounds := by
            rw [input]
            omega
          rw [run] at short
          generalize q.takeLine p.pos line = result at *
          cases taken with
          | event told follows same =>
              obtain ⟨sameInput, samePos, sameSkip⟩ := same
              refine .event follows (sameInput.trans input) (samePos ▸ onward') ?_
              rw [run, told, ahead, ahead, sameInput, samePos, sameSkip]
              rfl
          | @more q' silent follows same =>
              obtain ⟨sameInput, samePos, sameSkip⟩ := same
              have sameAhead : q'.ahead = q.ahead := by
                rw [ahead, ahead, sameInput, samePos]
              have sameRun := run
              rw [silent, Option.toList_none, List.nil_append, ← sameAhead, ← sameSkip]
                at sameRun
              refine (inductionHypothesis follows (by rw [sameInput, samePos]; exact fewer')
                ?_).of_later (sameInput.trans input) (samePos ▸ Nat.le_of_lt onward') sameRun
              rw [sameAhead, sameSkip]
              exact short
          | fail silent failed stuck =>
              obtain ⟨told, held⟩ := Reader.run_failed kMaxEvent [] q.skipLf stuck q.ahead
              refine .fail failed ?_ ?_
              · rw [run, held]
                exact stuck
              · rw [run, silent, told]
                rfl

/-- A call of `next`. -/
theorem Follows.next
    {r : SseFrameReader} {s : Reader} (follows : Follows r s)
    (short : (s.run kMaxEvent r.ahead).1.held.failed = false →
      (s.run kMaxEvent r.ahead).1.line.length ≤ kMaxLine) : Turn r s r.next := by
  rw [SseFrameReader.next, follows.failed, follows.stopped, if_neg Bool.false_ne_true,
    if_neg Bool.false_ne_true]
  exact nextLoop_turn _ follows (Nat.lt_succ_self _) short

end SseFrameReader
end Llmbridge
