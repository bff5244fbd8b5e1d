import Llmbridge.Provider.Sse
import Llmbridge.Provider.SseFrameReaderCorrect

/-!
# The stream translation does not see the cuts

Feeding a stream in pieces dispatches the events of the whole stream in turn, up
to the first that ends the translation.
-/

namespace Llmbridge

open Rfc8259 (Byte Bytes ascii)
open EventStream (Reader LineEnd lines events openEvent respell)
open SseFrameReader (kMaxLine kMaxEvent)

namespace SseTranslation

/-- Nothing more is read: the translation failed, or its terminal event came. -/
def settled (t : SseTranslation) : Bool :=
  t.failed || t.done

/-- Events in turn, up to the first that settles the translation. -/
def dispatchAll (t : SseTranslation) : List Bytes → SseTranslation × Bytes
  | [] => (t, [])
  | data :: rest =>
      if t.settled then (t, [])
      else
        let (next, out) := t.dispatch data
        let (last, more) := next.dispatchAll rest
        (last, out ++ more)

/-- An event too long fails the translation, unless it is settled. -/
def fails (t : SseTranslation) (tooLong : Bool) : SseTranslation :=
  if t.settled then t else { t with failed := tooLong }

/-- The translation of a whole stream: its events, and the length of an unfinished
one. -/
def translate (t : SseTranslation) (stream : Bytes) : SseTranslation × Bytes :=
  let (last, out) := t.dispatchAll (events stream)
  (last.fails ((openEvent stream).any fun data => kMaxEvent ≤ data.length), out)

theorem dispatchAll_settled {t : SseTranslation} (settled : t.settled = true)
    (found : List Bytes) : t.dispatchAll found = (t, []) := by
  cases found with
  | nil => rfl
  | cons data rest => rw [dispatchAll, if_pos settled]

theorem dispatchAll_cons {t : SseTranslation} (live : t.settled = false) (data : Bytes)
    (rest : List Bytes) :
    t.dispatchAll (data :: rest) =
      (((t.dispatch data).1.dispatchAll rest).1,
        (t.dispatch data).2 ++ ((t.dispatch data).1.dispatchAll rest).2) := by
  rw [dispatchAll, if_neg (by simp [live])]

theorem dispatchAll_append (t : SseTranslation) (first second : List Bytes) :
    t.dispatchAll (first ++ second) =
      (((t.dispatchAll first).1.dispatchAll second).1,
        (t.dispatchAll first).2 ++ ((t.dispatchAll first).1.dispatchAll second).2) := by
  induction first generalizing t with
  | nil => rfl
  | cons data first inductionHypothesis =>
      by_cases settled : t.settled = true
      · simp [dispatchAll_settled settled]
      · rw [Bool.not_eq_true] at settled
        rw [List.cons_append, dispatchAll_cons settled, inductionHypothesis,
          dispatchAll_cons settled, List.append_assoc]

/-- The translation behind a run of the reference reader. -/
def after (t : SseTranslation) (run : Reader × List Bytes) : SseTranslation × Bytes :=
  ((t.dispatchAll run.2).1.fails run.1.held.failed, (t.dispatchAll run.2).2)

theorem fails_of_settled {t : SseTranslation} (settled : t.settled = true) (tooLong : Bool) :
    t.fails tooLong = t :=
  if_pos settled

theorem fails_of_live {t : SseTranslation} (live : t.settled = false) (tooLong : Bool) :
    t.fails tooLong = { t with failed := tooLong } :=
  if_neg (by simp [live])

theorem failed_of_live {t : SseTranslation} (live : t.settled = false) : t.failed = false :=
  (Bool.or_eq_false_iff.mp live).1

theorem fails_false {t : SseTranslation} : t.fails false = t := by
  by_cases settled : t.settled = true
  · exact fails_of_settled settled false
  · rw [Bool.not_eq_true] at settled
    rw [fails_of_live settled, ← failed_of_live settled]

/-- The pieces of a run one behind the other. -/
theorem after_append (t : SseTranslation) (s : Reader) (first second : Bytes) :
    t.after (s.run kMaxEvent (first ++ second)) =
      (((t.after (s.run kMaxEvent first)).1.after
          ((s.run kMaxEvent first).1.run kMaxEvent second)).1,
        (t.after (s.run kMaxEvent first)).2 ++
          ((t.after (s.run kMaxEvent first)).1.after
            ((s.run kMaxEvent first).1.run kMaxEvent second)).2) := by
  rw [Reader.run_append]
  simp only [after, dispatchAll_append]
  generalize (s.run kMaxEvent first).1 = r
  generalize t.dispatchAll (s.run kMaxEvent first).2 = early
  by_cases settled : early.1.settled = true
  · simp [fails_of_settled settled, dispatchAll_settled settled]
  · rw [Bool.not_eq_true] at settled
    cases failed : r.held.failed with
    | false => simp only [fails_false]
    | true =>
        obtain ⟨told, held⟩ := Reader.run_failed kMaxEvent r.line r.afterCr failed second
        have dead : (early.1.fails true).settled = true := by
          rw [fails_of_live settled]
          rfl
        have told' : (r.run kMaxEvent second).2 = [] := told
        have held' : (r.run kMaxEvent second).1.held = r.held := held
        rw [dispatchAll_settled dead, fails_of_settled dead, told', held', failed]
        rfl

end SseTranslation

namespace AnthropicToOpenAiSse

open SseTranslation

/-- What one call of `feed` gives, against the run of its bytes. -/
structure Fed (t : SseTranslation) (run : Reader × List Bytes)
    (result : Bool × AnthropicToOpenAiSse × Bytes) : Prop where
  same : (result.2.1.translation, result.2.2) = t.after run
  answer : result.1 = !result.2.1.translation.failed
  rests : result.2.1.translation.settled = false →
    SseFrameReader.Rests result.2.1.frames run.1

theorem feedLoop_spec
    (rounds : Nat) {x : AnthropicToOpenAiSse} {s : Reader}
    (follows : SseFrameReader.Follows x.frames s) (live : x.translation.settled = false)
    (enough : x.frames.input.length - x.frames.pos < rounds)
    (short : (s.run kMaxEvent x.frames.ahead).1.held.failed = false →
      (s.run kMaxEvent x.frames.ahead).1.line.length ≤ kMaxLine) :
    Fed x.translation (s.run kMaxEvent x.frames.ahead) (feedLoop rounds x) := by
  induction rounds generalizing x s with
  | zero => exact absurd enough (Nat.not_lt_zero _)
  | succ rounds inductionHypothesis =>
      have turn := follows.next short
      rw [feedLoop]
      generalize x.frames.next = result at turn
      cases turn with
      | @event data r' s' next input onward run =>
          rw [run] at short ⊢
          have told := dispatchAll_cons live data (s'.run kMaxEvent r'.ahead).2
          dsimp only
          generalize x.translation.dispatch data = step at told ⊢
          by_cases failed : step.1.failed = true
          · have settled : step.1.settled = true := by simp [SseTranslation.settled, failed]
            rw [dispatchAll_settled settled, List.append_nil] at told
            rw [if_pos failed]
            refine ⟨?_, by simp [failed], by simp [settled]⟩
            rw [after, told, fails_of_settled settled]
          · rw [if_neg failed]
            rw [Bool.not_eq_true] at failed
            by_cases done : step.1.done = true
            · have settled : step.1.settled = true := by simp [SseTranslation.settled, done]
              rw [dispatchAll_settled settled, List.append_nil] at told
              rw [if_pos done]
              refine ⟨?_, by simp [failed], by simp [settled]⟩
              rw [after, told, fails_of_settled settled]
            · rw [if_neg done]
              rw [Bool.not_eq_true] at done
              have live' : step.1.settled = false := by
                simp [SseTranslation.settled, failed, done]
              have inside := next.inside
              rw [input] at inside
              obtain ⟨same, answer, rests⟩ := inductionHypothesis (x := ⟨r', step.1⟩) next
                live' (by
                  dsimp only
                  rw [input]
                  omega) short
              refine ⟨?_, answer, rests⟩
              rw [after, Prod.mk.injEq] at same
              rw [after, told, ← same.1, ← same.2]
      | more rests run =>
          have notFailed := failed_of_live live
          rw [run]
          refine ⟨?_, rfl, fun _ => rests⟩
          rw [after, rests.alive, fails_false, dispatchAll]
      | fail failed stuck none =>
          refine ⟨?_, rfl, ?_⟩
          · rw [after, none, stuck, dispatchAll, fails_of_live live]
          · intro settled
            exact Bool.noConfusion settled

/-- One piece. -/
theorem feed_spec
    {x : AnthropicToOpenAiSse} {s : Reader} (rests : SseFrameReader.Rests x.frames s)
    (live : x.translation.settled = false) (bytes : Bytes)
    (short : (s.run kMaxEvent bytes).1.line.length ≤ kMaxLine) :
    Fed x.translation (s.run kMaxEvent bytes) (x.feed bytes) := by
  obtain ⟨failed, done⟩ := Bool.or_eq_false_iff.mp live
  rw [feed, failed, done, if_neg Bool.false_ne_true, if_neg Bool.false_ne_true]
  exact feedLoop_spec (bytes.length + 1) (x := ⟨x.frames.feed bytes, x.translation⟩)
    (rests.feed bytes) live (Nat.lt_succ_self _) fun _ => short

theorem feed_settled {x : AnthropicToOpenAiSse} (settled : x.translation.settled = true)
    (bytes : Bytes) : (x.feed bytes).2 = (x, []) := by
  rw [feed]
  by_cases failed : x.translation.failed = true
  · rw [if_pos failed]
  · have done : x.translation.done = true := by
      simpa [SseTranslation.settled, failed] using settled
    rw [if_neg failed, if_pos done]

theorem feedAll_cons (x : AnthropicToOpenAiSse) (piece : Bytes) (rest : List Bytes) :
    x.feedAll (piece :: rest) =
      (((x.feed piece).2.1.feedAll rest).1,
        (x.feed piece).2.2 ++ ((x.feed piece).2.1.feedAll rest).2) := rfl

theorem feedAll_settled {x : AnthropicToOpenAiSse} (settled : x.translation.settled = true)
    (pieces : List Bytes) : x.feedAll pieces = (x, []) := by
  induction pieces with
  | nil => rfl
  | cons piece rest inductionHypothesis =>
      rw [feedAll_cons, feed_settled settled piece, inductionHypothesis, List.append_nil]

/-- Pieces in turn are the stream they make. -/
theorem feedAll_spec
    {x : AnthropicToOpenAiSse} {s : Reader} (rests : SseFrameReader.Rests x.frames s)
    (live : x.translation.settled = false) (pieces : List Bytes)
    (short : ∀ first second, pieces.flatten = first ++ second →
      (s.run kMaxEvent first).1.line.length ≤ kMaxLine) :
    ((x.feedAll pieces).1.translation, (x.feedAll pieces).2) =
      x.translation.after (s.run kMaxEvent pieces.flatten) := by
  induction pieces generalizing x s with
  | nil =>
      rw [feedAll, List.flatten_nil]
      simp only [Reader.run, after, dispatchAll, rests.alive, fails_false]
  | cons piece rest inductionHypothesis =>
      obtain ⟨same, -, next⟩ := feed_spec rests live piece (short piece rest.flatten (by simp))
      rw [List.flatten_cons, after_append, ← same, feedAll_cons]
      generalize x.feed piece = result at same next ⊢
      by_cases settled : result.2.1.translation.settled = true
      · rw [feedAll_settled settled, after, dispatchAll_settled settled,
          fails_of_settled settled]
      · rw [Bool.not_eq_true] at settled
        have others := inductionHypothesis (next settled) settled (by
          intro first second split
          have found := short (piece ++ first) second (by simp [split])
          rwa [Reader.run_append] at found)
        rw [← others]

/-! ## A stream from a reset -/

/-- What a caller sees of a translation: its bytes, whether it failed, the usage, and
what `finish` answers and appends. -/
structure Outcome where
  out : Bytes
  failed : Bool
  usage : OpenAi.Usage
  finish : Bool × Bytes
  deriving DecidableEq, Repr

/-- What a caller sees. -/
def outcome (result : SseTranslation × Bytes) : Outcome where
  out := result.2
  failed := result.1.failed
  usage := result.1.usage
  finish := (result.1.finishStream.1, result.1.finishStream.2.2)

/-- The pieces of a stream, by the reference framing of the whole. -/
theorem feedAll_reset
    (createdSecs : Int) (includeUsage : Bool) (clock : Int) {stream : Bytes}
    {pieces : List Bytes} (cut : pieces.flatten = stream)
    (shortLines : ∀ line ∈ (lines stream).1 ++ [(lines stream).2], line.length ≤ kMaxLine)
    (shortEvents : ∀ event ∈ events stream, event.length < kMaxEvent) :
    (((reset createdSecs includeUsage clock).feedAll pieces).1.translation,
        ((reset createdSecs includeUsage clock).feedAll pieces).2) =
      (reset createdSecs includeUsage clock).translation.translate stream := by
  have fed := feedAll_spec (x := reset createdSecs includeUsage clock)
    SseFrameReader.Rests.start rfl pieces (by
      intro first second split
      rw [← cut, split] at shortLines
      exact Reader.begun_le first second shortLines kMaxEvent)
  have tooLong : (Reader.run kMaxEvent {} stream).1.held.failed =
      (openEvent stream).any fun data => kMaxEvent ≤ data.length := by
    rw [Bool.eq_iff_iff, Reader.run_held_failed shortEvents]
    simp [Option.any_eq_true]
  rw [fed, cut, after, Reader.run_events shortEvents, tooLong, SseTranslation.translate]

/-- What a caller sees of a stream is a function of its reference events, whatever
the cuts and the line endings. -/
theorem feedAll_correct
    (createdSecs : Int) (includeUsage : Bool) (clock : Int) (stream : Bytes)
    (shortLines : ∀ line ∈ (lines stream).1 ++ [(lines stream).2], line.length ≤ kMaxLine)
    (shortEvents : ∀ event ∈ events stream, event.length < kMaxEvent)
    (pieces : List Bytes)
    (cut : pieces.flatten = stream ∨ ∃ ending, pieces.flatten = respell ending stream) :
    outcome (((reset createdSecs includeUsage clock).feedAll pieces).1.translation,
        ((reset createdSecs includeUsage clock).feedAll pieces).2) =
      outcome ((reset createdSecs includeUsage clock).translation.translate stream) := by
  rcases cut with cut | ⟨ending, cut⟩
  · rw [feedAll_reset createdSecs includeUsage clock cut shortLines shortEvents]
  · have sameLines := EventStream.lines_respell ending stream
    have sameEvents : events (respell ending stream) = events stream := by
      rw [events, events, sameLines]
    have sameOpen : openEvent (respell ending stream) = openEvent stream := by
      rw [openEvent, openEvent, sameLines]
    rw [feedAll_reset createdSecs includeUsage clock cut (by rwa [sameLines])
      (by rwa [sameEvents]), SseTranslation.translate, SseTranslation.translate,
      sameEvents, sameOpen]

/-- A stream cut between the CR and the LF of an event's end, spelled with LF. -/
theorem feedAll_correct_crlf :
    outcome (((reset 7 true 0).feedAll
          [ascii "data: \x7b\"type\":\"message_stop\"\x7d\r", ascii "\n\r\n"]).1.translation,
        ((reset 7 true 0).feedAll
          [ascii "data: \x7b\"type\":\"message_stop\"\x7d\r", ascii "\n\r\n"]).2) =
      outcome ((reset 7 true 0).translation.translate
        (ascii "data: \x7b\"type\":\"message_stop\"\x7d\n\n")) :=
  feedAll_correct 7 true 0 (ascii "data: \x7b\"type\":\"message_stop\"\x7d\n\n")
    (List.forall_mem_iff_forall_getElem.mpr (by decide))
    (List.forall_mem_iff_forall_getElem.mpr (by decide))
    _ (Or.inr ⟨.crlf, by decide⟩)

end AnthropicToOpenAiSse
end Llmbridge
