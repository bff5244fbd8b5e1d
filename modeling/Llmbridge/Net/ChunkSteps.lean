import Llmbridge.Net.ResponseBody

/-!
# The steps of the chunk decoder

`ChunkDecoder::feed` takes one step for each byte, so how the input is cut does not
matter.
-/

namespace Llmbridge
namespace Http

open Rfc8259 (Byte Bytes)
open Http1 (crlf)

namespace ChunkDecoder

/-! ## Steps -/

/-- `n` more bytes are taken. -/
def count (d : ChunkDecoder) (n : Nat) : ChunkDecoder :=
  { d with consumed := d.consumed + n }

@[simp] theorem count_st (d : ChunkDecoder) (n : Nat) : (d.count n).st = d.st := rfl
@[simp] theorem count_remaining (d : ChunkDecoder) (n : Nat) :
    (d.count n).remaining = d.remaining := rfl
@[simp] theorem count_line (d : ChunkDecoder) (n : Nat) : (d.count n).line = d.line := rfl
@[simp] theorem count_consumed (d : ChunkDecoder) (n : Nat) :
    (d.count n).consumed = d.consumed + n := rfl
@[simp] theorem count_zero (d : ChunkDecoder) : d.count 0 = d := rfl

theorem count_count (d : ChunkDecoder) (n m : Nat) :
    (d.count n).count m = d.count (n + m) := by
  simp [count, Nat.add_assoc]

/-- Done, or failed: nothing more is taken. -/
def Settled (d : ChunkDecoder) : Prop :=
  d.st = .done ∨ d.st = .error

instance (d : ChunkDecoder) : Decidable d.Settled :=
  inferInstanceAs (Decidable (_ ∨ _))

/-- What one byte does in each state, but for the count. -/
def take (d : ChunkDecoder) (c : Byte) : ChunkDecoder × Bytes :=
  match d.st with
  | .size =>
      let d := d.push c
      if 64 < d.line.length then (d.fail, [])
      else if endsCrlf d.line then (d.endSize, [])
      else (d, [])
  | .data =>
      let left := d.remaining - 1
      ({ d with remaining := left, st := if left = 0 then .dataCrlf else .data }, [c])
  | .dataCrlf =>
      let d := d.push c
      if d.line.length = 2 then
        if d.line = crlf then ({ d with line := [], st := .size }, []) else (d.fail, [])
      else (d, [])
  | .trailer =>
      let d := d.push c
      if kMaxHeaderLen < d.line.length then (d.fail, [])
      else if endsCrlf d.line then
        if d.line.length = 2 then ({ d with line := [], st := .done }, [])
        else ({ d with line := [] }, [])
      else (d, [])
  | .done => (d, [])
  | .error => (d, [])

/-- One byte. -/
def step (d : ChunkDecoder) (c : Byte) : ChunkDecoder × Bytes :=
  if d.Settled then (d, []) else ((d.take c).1.count 1, (d.take c).2)

/-- A byte at a time: the decoder at the end, and the bytes decoded. -/
def run (d : ChunkDecoder) : Bytes → ChunkDecoder × Bytes
  | [] => (d, [])
  | c :: rest =>
      let (next, out) := d.step c
      let (last, more) := next.run rest
      (last, out ++ more)

@[simp]
theorem run_nil (d : ChunkDecoder) : d.run [] = (d, []) :=
  rfl

theorem run_cons (d : ChunkDecoder) (c : Byte) (rest : Bytes) :
    d.run (c :: rest) =
      (((d.step c).1.run rest).1, (d.step c).2 ++ ((d.step c).1.run rest).2) :=
  rfl

theorem run_append (d : ChunkDecoder) (front back : Bytes) :
    d.run (front ++ back) =
      (((d.run front).1.run back).1, (d.run front).2 ++ ((d.run front).1.run back).2) := by
  induction front generalizing d with
  | nil => rfl
  | cons c front inductionHypothesis =>
      rw [List.cons_append, run_cons, inductionHypothesis, run_cons]
      simp only [List.append_assoc]

theorem step_settled {d : ChunkDecoder} (settled : d.Settled) (c : Byte) :
    d.step c = (d, []) :=
  if_pos settled

theorem run_settled {d : ChunkDecoder} (settled : d.Settled) (input : Bytes) :
    d.run input = (d, []) := by
  induction input with
  | nil => rfl
  | cons c input inductionHypothesis =>
      rw [run_cons, step_settled settled, inductionHypothesis]
      rfl

/-- A chunk being read has bytes left. -/
def Sound (d : ChunkDecoder) : Prop :=
  d.st = .data → 0 < d.remaining

theorem sound_fresh : Sound {} := by
  intro reads
  cases reads

theorem endSize_count (d : ChunkDecoder) (n : Nat) :
    (d.count n).endSize = d.endSize.count n := by
  unfold endSize
  rw [count_line]
  cases sizeLine (d.line.take (d.line.length - 2)) <;> rfl

theorem take_count (d : ChunkDecoder) (n : Nat) (c : Byte) :
    (d.count n).take c = ((d.take c).1.count n, (d.take c).2) := by
  have pushed : (d.count n).push c = (d.push c).count n := rfl
  unfold take
  rw [count_st]
  cases d.st with
  | size =>
      dsimp only
      rw [pushed, count_line, endSize_count]
      by_cases long : 64 < (d.push c).line.length
      · rw [if_pos long, if_pos long]
        rfl
      · rw [if_neg long, if_neg long]
        by_cases ends : endsCrlf (d.push c).line = true
        · rw [if_pos ends, if_pos ends]
        · rw [if_neg ends, if_neg ends]
  | data => rfl
  | dataCrlf =>
      dsimp only
      rw [pushed, count_line]
      by_cases two : (d.push c).line.length = 2
      · rw [if_pos two, if_pos two]
        by_cases ends : (d.push c).line = crlf
        · rw [if_pos ends, if_pos ends]
          rfl
        · rw [if_neg ends, if_neg ends]
          rfl
      · rw [if_neg two, if_neg two]
  | trailer =>
      dsimp only
      rw [pushed, count_line]
      by_cases long : kMaxHeaderLen < (d.push c).line.length
      · rw [if_pos long, if_pos long]
        rfl
      · rw [if_neg long, if_neg long]
        by_cases ends : endsCrlf (d.push c).line = true
        · rw [if_pos ends, if_pos ends]
          by_cases two : (d.push c).line.length = 2
          · rw [if_pos two, if_pos two]
            rfl
          · rw [if_neg two, if_neg two]
            rfl
        · rw [if_neg ends, if_neg ends]
  | done => rfl
  | error => rfl

theorem take_consumed (d : ChunkDecoder) (c : Byte) : (d.take c).1.consumed = d.consumed := by
  unfold take
  cases d.st with
  | size =>
      dsimp only
      split
      · rfl
      · split
        · unfold endSize
          cases sizeLine ((d.push c).line.take ((d.push c).line.length - 2)) <;> rfl
        · rfl
  | data => rfl
  | dataCrlf =>
      dsimp only
      split
      · split <;> rfl
      · rfl
  | trailer =>
      dsimp only
      split
      · rfl
      · split
        · split <;> rfl
        · rfl
  | done => rfl
  | error => rfl

theorem run_count (d : ChunkDecoder) (n : Nat) (input : Bytes) :
    (d.count n).run input = ((d.run input).1.count n, (d.run input).2) := by
  induction input generalizing d with
  | nil => rfl
  | cons c input inductionHypothesis =>
      have stepped : (d.count n).step c = ((d.step c).1.count n, (d.step c).2) := by
        by_cases settled : d.Settled
        · rw [step_settled settled, step_settled (d := d.count n) settled]
        · rw [step, step, if_neg settled, if_neg (by exact settled), take_count]
          simp only [count_count, Nat.add_comm]
      rw [run_cons, run_cons, stepped, inductionHypothesis]

/-! ## The loops take steps -/

/-- From `d` the steps over the front of the input lead to `next`, which has not
counted them, and leave `left`. -/
def Reads (d : ChunkDecoder) (input : Bytes) (next : ChunkDecoder) (left out : Bytes) : Prop :=
  next.consumed = d.consumed ∧
    ∃ front, front ++ left = input ∧ d.run front = (next.count front.length, out)

theorem Reads.refl (d : ChunkDecoder) (input : Bytes) : Reads d input d input [] :=
  ⟨rfl, [], rfl, rfl⟩

theorem Reads.trans
    {d next last : ChunkDecoder} {input left rest out more : Bytes}
    (first : Reads d input next left out) (second : Reads next left last rest more) :
    Reads d input last rest (out ++ more) := by
  obtain ⟨kept, front, rfl, runs⟩ := first
  obtain ⟨keptOn, back, rfl, onward⟩ := second
  refine ⟨keptOn.trans kept, front ++ back, List.append_assoc front back rest, ?_⟩
  rw [run_append, runs, run_count, onward, List.length_append]
  simp only [count_count, Nat.add_comm]

theorem Reads.byte
    {d : ChunkDecoder} (live : ¬ d.Settled) (c : Byte) (rest : Bytes) :
    Reads d (c :: rest) (d.take c).1 rest (d.take c).2 := by
  refine ⟨take_consumed d c, [c], rfl, ?_⟩
  rw [run_cons, step, if_neg live, run_nil, List.append_nil]
  rfl

theorem live_of {d : ChunkDecoder} {st : ChunkState} (is : d.st = st)
    (live : st ≠ .done ∧ st ≠ .error) : ¬ d.Settled := by
  unfold Settled
  rw [is]
  exact not_or.mpr live

/-- What a loop over the bytes of one state leaves. -/
structure Round (d : ChunkDecoder) (input : Bytes) (next : ChunkDecoder) (left out : Bytes) :
    Prop where
  reads : Reads d input next left out
  shorter : input ≠ [] → left.length < input.length
  sound : next.Sound

/-- A byte that is taken is a round of its own. -/
theorem Round.one
    {d : ChunkDecoder} {c : Byte} {rest : Bytes} (live : ¬ d.Settled)
    (sound : (d.take c).1.Sound) : Round d (c :: rest) (d.take c).1 rest (d.take c).2 where
  reads := Reads.byte live c rest
  shorter := fun _ => Nat.lt_succ_self rest.length
  sound := sound

/-- A round may begin with a byte that tells nothing. -/
theorem Round.cons
    {d next : ChunkDecoder} {c : Byte} {rest left : Bytes} (live : ¬ d.Settled)
    (silent : (d.take c).2 = []) (round : Round (d.take c).1 rest next left []) :
    Round d (c :: rest) next left [] where
  reads := by
    have first := Reads.byte live c rest
    rw [silent] at first
    exact first.trans round.reads
  shorter := by
    intro _
    rw [List.length_cons]
    by_cases none : rest = []
    · obtain ⟨-, front, same, -⟩ := round.reads
      have size := congrArg List.length same
      rw [List.length_append] at size
      omega
    · exact Nat.lt_succ_of_lt (round.shorter none)
  sound := round.sound

/-- Outside the data nothing is left to count. -/
theorem sound_of_st {d : ChunkDecoder} (notData : d.st ≠ .data) : d.Sound := by
  intro reads
  exact absurd reads notData

/-- The end of a size line leaves the counts sound. -/
theorem endSize_sound (d : ChunkDecoder) : d.endSize.Sound := by
  unfold endSize
  cases sizeLine (d.line.take (d.line.length - 2)) with
  | none => exact sound_of_st (by simp [fail])
  | some sz =>
      intro reads
      apply Nat.pos_of_ne_zero
      rintro rfl
      simp at reads

@[simp] theorem push_line (d : ChunkDecoder) (c : Byte) : (d.push c).line = d.line ++ [c] := rfl

/-- A byte of a size line. -/
theorem take_size {d : ChunkDecoder} (is : d.st = .size) (c : Byte) :
    d.take c = if 64 < (d.push c).line.length then ((d.push c).fail, [])
      else if endsCrlf (d.push c).line then ((d.push c).endSize, [])
      else (d.push c, []) := by
  simp only [take, is]

/-- A byte of a trailer. -/
theorem take_trailer {d : ChunkDecoder} (is : d.st = .trailer) (c : Byte) :
    d.take c = if kMaxHeaderLen < (d.push c).line.length then ((d.push c).fail, [])
      else if endsCrlf (d.push c).line then
        if (d.push c).line.length = 2 then ({ d.push c with line := [], st := .done }, [])
        else ({ d.push c with line := [] }, [])
      else (d.push c, []) := by
  simp only [take, is]

/-- `read_size` is a round. -/
theorem readSize_round (d : ChunkDecoder) (input : Bytes) (is : d.st = .size) :
    Round d input (d.readSize input).1 (d.readSize input).2 [] := by
  induction input generalizing d with
  | nil =>
      exact ⟨Reads.refl d [], fun some => absurd rfl some,
        sound_of_st (by simp [is, readSize])⟩
  | cons c input inductionHypothesis =>
      have live := live_of is (by decide)
      have taken := take_size is c
      unfold readSize
      dsimp only
      by_cases long : 64 < (d.push c).line.length
      · rw [if_pos long] at taken ⊢
        have round := @Round.one d c input live (by rw [taken]; exact sound_of_st (by simp [fail]))
        rwa [taken] at round
      · rw [if_neg long] at taken ⊢
        by_cases ends : endsCrlf (d.push c).line = true
        · rw [if_pos ends] at taken ⊢
          have round := @Round.one d c input live (by rw [taken]; exact endSize_sound _)
          rwa [taken] at round
        · rw [if_neg ends] at taken ⊢
          apply Round.cons live (by rw [taken])
          rw [taken]
          exact inductionHypothesis (d.push c) is

/-- So is the line end behind the data. -/
theorem readCrlf_round (d : ChunkDecoder) (input : Bytes) (is : d.st = .dataCrlf) :
    Round d input (d.readCrlf input).1 (d.readCrlf input).2 [] := by
  induction input generalizing d with
  | nil =>
      exact ⟨Reads.refl d [], fun some => absurd rfl some, sound_of_st (by simp [is, readCrlf])⟩
  | cons c input inductionHypothesis =>
      have live := live_of is (by decide)
      have taken : d.take c = if (d.push c).line.length = 2 then
          if (d.push c).line = crlf then ({ d.push c with line := [], st := .size }, [])
          else ((d.push c).fail, [])
          else (d.push c, []) := by
        simp only [take, is]
      unfold readCrlf
      dsimp only
      by_cases two : (d.push c).line.length = 2
      · rw [if_pos two] at taken ⊢
        by_cases ends : (d.push c).line = crlf
        · rw [if_pos ends] at taken ⊢
          have round := @Round.one d c input live (by rw [taken]; exact sound_of_st (by simp))
          rwa [taken] at round
        · rw [if_neg ends] at taken ⊢
          have round := @Round.one d c input live
            (by rw [taken]; exact sound_of_st (by simp [fail]))
          rwa [taken] at round
      · rw [if_neg two] at taken ⊢
        apply Round.cons live (by rw [taken])
        rw [taken]
        exact inductionHypothesis (d.push c) is

/-- So is a trailer line. -/
theorem readTrailer_round (d : ChunkDecoder) (input : Bytes) (is : d.st = .trailer) :
    Round d input (d.readTrailer input).1 (d.readTrailer input).2 [] := by
  induction input generalizing d with
  | nil =>
      exact ⟨Reads.refl d [], fun some => absurd rfl some,
        sound_of_st (by simp [is, readTrailer])⟩
  | cons c input inductionHypothesis =>
      have live := live_of is (by decide)
      have taken := take_trailer is c
      unfold readTrailer
      dsimp only
      by_cases long : kMaxHeaderLen < (d.push c).line.length
      · rw [if_pos long] at taken ⊢
        have round := @Round.one d c input live (by rw [taken]; exact sound_of_st (by simp [fail]))
        rwa [taken] at round
      · rw [if_neg long] at taken ⊢
        by_cases ends : endsCrlf (d.push c).line = true
        · rw [if_pos ends] at taken ⊢
          by_cases two : (d.push c).line.length = 2
          · rw [if_pos two] at taken ⊢
            have round := @Round.one d c input live (by rw [taken]; exact sound_of_st (by simp))
            rwa [taken] at round
          · rw [if_neg two] at taken ⊢
            apply Round.cons live (by rw [taken])
            rw [taken]
            exact inductionHypothesis { d.push c with line := [] } is
        · rw [if_neg ends] at taken ⊢
          apply Round.cons live (by rw [taken])
          rw [taken]
          exact inductionHypothesis (d.push c) is

/-- A chunk with `n` of its bytes read. -/
def dataRead (d : ChunkDecoder) (n : Nat) : ChunkDecoder :=
  { d with
    remaining := d.remaining - n
    st := if d.remaining - n = 0 then .dataCrlf else .data }

/-- Data inside its chunk is told as it is. -/
theorem run_data
    (d : ChunkDecoder) (data : Bytes) (is : d.st = .data) (more : 0 < d.remaining)
    (fits : data.length ≤ d.remaining) :
    d.run data = ((d.dataRead data.length).count data.length, data) := by
  induction data generalizing d with
  | nil =>
      have same : d.dataRead 0 = d := by
        obtain ⟨st, remaining, consumed, line⟩ := d
        subst is
        simp only [dataRead, Nat.sub_zero]
        rw [if_neg (Nat.ne_of_gt more)]
      rw [run_nil, List.length_nil, count_zero, same]
  | cons c data inductionHypothesis =>
      have taken : d.take c = (d.dataRead 1, [c]) := by
        simp only [take, is, dataRead]
      rw [run_cons, step, if_neg (live_of is (by decide)), taken, List.length_cons]
      rw [List.length_cons] at fits
      by_cases last : d.remaining - 1 = 0
      · have none : data = [] := List.eq_nil_of_length_eq_zero (by omega)
        subst none
        rfl
      · have begun : (d.dataRead 1).st = .data := if_neg last
        dsimp only
        rw [run_count, inductionHypothesis (d.dataRead 1) begun (Nat.pos_of_ne_zero last)
          (by simp only [dataRead]; omega)]
        have read : (d.dataRead 1).dataRead data.length = d.dataRead (data.length + 1) := by
          simp only [dataRead, Nat.sub_sub, Nat.add_comm 1]
        rw [read, count_count]
        rfl

/-- The bulk copy of data is a round. -/
theorem readData_round
    (d : ChunkDecoder) (input : Bytes) (is : d.st = .data) (more : 0 < d.remaining) :
    Round d input (d.readData input).1 (d.readData input).2.1 (d.readData input).2.2 := by
  have next : (d.readData input).1 = d.dataRead (min d.remaining input.length) := by
    obtain ⟨st, remaining, consumed, line⟩ := d
    subst is
    simp only [readData, dataRead]
    split <;> rfl
  have size : (input.take (min d.remaining input.length)).length =
      min d.remaining input.length := by
    rw [List.length_take]
    omega
  have runs := run_data d (input.take (min d.remaining input.length)) is more (by omega)
  rw [size] at runs
  constructor
  · refine ⟨by rw [next]; rfl, input.take (min d.remaining input.length),
      List.take_append_drop _ input, ?_⟩
    rw [next, size]
    exact runs
  · intro some
    have pos := List.length_pos_iff.mpr some
    simp only [readData, List.length_drop]
    omega
  · rw [next]
    intro reads
    apply Nat.pos_of_ne_zero
    intro none
    simp only [dataRead] at reads none
    rw [if_pos none] at reads
    cases reads

/-! ## The whole loop -/

/-- The loop takes the steps of the whole input, or of its front up to where it is
done or fails. -/
theorem feedLoop_reads
    (rounds : Nat) (d : ChunkDecoder) (input : Bytes) (sound : d.Sound)
    (enough : input.length < rounds) :
    Reads d input (feedLoop rounds d input).1 (feedLoop rounds d input).2.1
        (feedLoop rounds d input).2.2 ∧
      ((feedLoop rounds d input).2.1 = [] ∨ (feedLoop rounds d input).1.Settled) ∧
      (feedLoop rounds d input).1.Sound := by
  induction rounds generalizing d input with
  | zero => omega
  | succ rounds inductionHypothesis =>
      unfold feedLoop
      by_cases none : input.isEmpty = true
      · rw [if_pos none]
        exact ⟨Reads.refl d input, Or.inl (List.isEmpty_iff.mp none), sound⟩
      · rw [if_neg none]
        have some : input ≠ [] := fun empty => none (List.isEmpty_iff.mpr empty)
        have onward : ∀ {next : ChunkDecoder} {left out : Bytes},
            Round d input next left out →
            Reads d input (feedLoop rounds next left).1 (feedLoop rounds next left).2.1
                (out ++ (feedLoop rounds next left).2.2) ∧
              ((feedLoop rounds next left).2.1 = [] ∨ (feedLoop rounds next left).1.Settled) ∧
              (feedLoop rounds next left).1.Sound := by
          intro next left out round
          have shorter := round.shorter some
          obtain ⟨reads, ends⟩ := inductionHypothesis next left round.sound (by omega)
          exact ⟨round.reads.trans reads, ends⟩
        cases is : d.st with
        | done => exact ⟨Reads.refl d input, Or.inr (Or.inl is), sound⟩
        | error => exact ⟨Reads.refl d input, Or.inr (Or.inr is), sound⟩
        | size => exact onward (readSize_round d input is)
        | dataCrlf => exact onward (readCrlf_round d input is)
        | trailer => exact onward (readTrailer_round d input is)
        | data => exact onward (readData_round d input is (sound is))

/-! ## Feeds -/

/-- The decoder as it shows: what a failed call counted does not. -/
def shown (d : ChunkDecoder) : ChunkDecoder :=
  if d.st = .error then { d with consumed := 0 } else d

/-- The shown state is the state. -/
theorem shown_st (d : ChunkDecoder) : d.shown.st = d.st := by
  unfold shown
  split <;> rfl

/-- Alive decoders that show the same are the same. -/
theorem eq_of_shown {d e : ChunkDecoder} (same : d.shown = e.shown)
    (alive : d.failed = false) : d = e := by
  have st : d.st = e.st := by rw [← shown_st d, same, shown_st]
  have notError : d.st ≠ .error := by simpa [failed] using alive
  unfold shown at same
  rwa [if_neg notError, if_neg (st ▸ notError)] at same

/-- A call of `feed` shows what the steps show. -/
theorem feed_shown (d : ChunkDecoder) (input : Bytes) (sound : d.Sound) :
    (d.feed input).1.shown = (d.run input).1.shown ∧ (d.feed input).2 = (d.run input).2 ∧
      (d.feed input).1.Sound := by
  obtain ⟨⟨kept, front, split, runs⟩, ends, soundly⟩ :=
    feedLoop_reads (input.length + 1) d input sound (Nat.lt_succ_self _)
  unfold feed
  generalize feedLoop (input.length + 1) d input = result
    at kept split runs ends soundly ⊢
  obtain ⟨next, left, out⟩ := result
  dsimp only at kept split runs ends soundly ⊢
  have whole : d.run input = (next.count front.length, out) := by
    rcases ends with none | settled
    · rw [none, List.append_nil] at split
      rw [← split]
      exact runs
    · rw [← split, run_append, runs, run_settled (d := next.count front.length) settled,
        List.append_nil]
  have taken : input.length - left.length = front.length := by
    have size := congrArg List.length split
    rw [List.length_append] at size
    omega
  rw [whole, taken]
  by_cases failed : next.st = .error
  · rw [if_pos failed]
    refine ⟨?_, rfl, sound_of_st (by simp [failed])⟩
    unfold shown
    rw [if_pos failed, if_pos (by exact failed)]
    rfl
  · rw [if_neg failed, ← kept]
    exact ⟨rfl, rfl, soundly⟩

/-- `feed` on one read after another. -/
def feedAll (d : ChunkDecoder) : List Bytes → ChunkDecoder × Bytes
  | [] => (d, [])
  | input :: rest =>
      let (next, out) := d.feed input
      let (last, more) := next.feedAll rest
      (last, out ++ more)

/-- Reads in turn show what their bytes one by one do. -/
theorem feedAll_shown (d : ChunkDecoder) (reads : List Bytes) (sound : d.Sound) :
    (d.feedAll reads).1.shown = (d.run reads.flatten).1.shown ∧
      (d.feedAll reads).2 = (d.run reads.flatten).2 := by
  induction reads generalizing d with
  | nil => exact ⟨rfl, rfl⟩
  | cons input reads inductionHypothesis =>
      obtain ⟨shows, outs, soundly⟩ := feed_shown d input sound
      obtain ⟨later, more⟩ := inductionHypothesis (d.feed input).1 soundly
      rw [List.flatten_cons, run_append]
      unfold feedAll
      dsimp only
      by_cases alive : (d.feed input).1.failed = false
      · have same := eq_of_shown shows alive
        rw [later, more, outs, same]
        exact ⟨rfl, rfl⟩
      · have stopped : (d.feed input).1.st = .error := by simpa [failed] using alive
        have alsoStopped : (d.run input).1.st = .error := by
          rw [← shown_st, ← shows, shown_st, stopped]
        rw [later, more, outs, run_settled (Or.inr stopped), run_settled (Or.inr alsoStopped)]
        exact ⟨shows, rfl⟩

/-- What shows at the end does not depend on the cuts. -/
theorem feedAll_cuts
    (d : ChunkDecoder) (sound : d.Sound) {reads reads' : List Bytes}
    (same : reads.flatten = reads'.flatten) :
    (d.feedAll reads).2 = (d.feedAll reads').2 ∧
      (d.feedAll reads).1.isDone = (d.feedAll reads').1.isDone ∧
      (d.feedAll reads).1.failed = (d.feedAll reads').1.failed := by
  obtain ⟨shows, outs⟩ := feedAll_shown d reads sound
  obtain ⟨shows', outs'⟩ := feedAll_shown d reads' sound
  rw [← same] at shows' outs'
  have st : (d.feedAll reads).1.st = (d.feedAll reads').1.st := by
    rw [← shown_st, shows, ← shows', shown_st]
  refine ⟨outs.trans outs'.symm, ?_, ?_⟩
  · simp only [isDone, st]
  · simp only [failed, st]

/-- Bytes taken are bytes of the input, and all of them while more is awaited. -/
theorem run_consumed (d : ChunkDecoder) (input : Bytes) :
    (d.run input).1.consumed ≤ d.consumed + input.length ∧
      (¬ (d.run input).1.Settled → (d.run input).1.consumed = d.consumed + input.length) := by
  induction input generalizing d with
  | nil => exact ⟨Nat.le_refl _, fun _ => rfl⟩
  | cons c input inductionHypothesis =>
      obtain ⟨most, all⟩ := inductionHypothesis (d.step c).1
      rw [run_cons, List.length_cons]
      dsimp only
      by_cases settled : d.Settled
      · rw [step_settled settled] at most all ⊢
        rw [run_settled settled] at most all ⊢
        dsimp only at most ⊢
        exact ⟨by omega, fun live => absurd settled live⟩
      · have counted : (d.step c).1.consumed = d.consumed + 1 := by
          rw [step, if_neg settled, count_consumed, take_consumed]
        rw [counted] at most all
        exact ⟨by omega, fun live => by rw [all live]; omega⟩

/-- A decoder that is done takes nothing more. -/
theorem feed_done {d : ChunkDecoder} (ends : d.isDone = true) (input : Bytes) :
    d.feed input = (d, []) := by
  have st : d.st = .done := by simpa [isDone] using ends
  have loop : feedLoop (input.length + 1) d input = (d, input, []) := by
    unfold feedLoop
    split
    · rfl
    · rw [st]
  unfold feed
  rw [loop]
  dsimp only
  rw [if_neg (by simp [st]), Nat.sub_self]
  rfl

end ChunkDecoder

end Http
end Llmbridge
