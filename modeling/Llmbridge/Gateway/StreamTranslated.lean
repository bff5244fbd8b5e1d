import Llmbridge.Gateway.StreamRelayed

/-!
# What a translated client is sent

The translator is fed the venue's body read by read; what it writes reaches the client
whole pieces at a time, but for what a refused read wrote before it failed.
-/

namespace Llmbridge

open Rfc8259 (Byte Bytes ascii)

/-! ## The translator, piece by piece -/

namespace AnthropicToOpenAiSse

open SseTranslation

theorem feedLoop_answer (rounds : Nat) (x : AnthropicToOpenAiSse) :
    (feedLoop rounds x).1 = !(feedLoop rounds x).2.1.translation.failed := by
  induction rounds generalizing x with
  | zero => rfl
  | succ rounds inductionHypothesis =>
      rw [feedLoop]
      obtain ⟨step, frames⟩ := x.frames.next
      cases step with
      | more => rfl
      | fail => rfl
      | event data =>
          dsimp only
          generalize x.translation.dispatch data = result
          by_cases failed : result.1.failed = true
          · rw [if_pos failed, failed]
            rfl
          by_cases done : result.1.done = true
          · rw [if_neg failed, if_pos done, Bool.eq_false_of_not_eq_true failed]
            rfl
          · rw [if_neg failed, if_neg done]
            exact inductionHypothesis ⟨frames, result.1⟩

/-- `feed` answers whether the translation still holds. -/
theorem feed_answer (x : AnthropicToOpenAiSse) (bytes : Bytes) :
    (x.feed bytes).1 = !(x.feed bytes).2.1.translation.failed := by
  unfold feed
  by_cases failed : x.translation.failed = true
  · rw [if_pos failed, failed]
    rfl
  by_cases done : x.translation.done = true
  · rw [if_neg failed, if_pos done, Bool.eq_false_of_not_eq_true failed]
    rfl
  · rw [if_neg failed, if_neg done]
    exact feedLoop_answer _ _

theorem feed_failed {x : AnthropicToOpenAiSse} (failed : x.translation.failed = true)
    (bytes : Bytes) : x.feed bytes = (false, x, []) := by
  unfold feed
  rw [if_pos failed]

theorem finish_failed {x : AnthropicToOpenAiSse} (failed : x.translation.failed = true) :
    x.finish.1 = false := by
  have answer : x.finish.1 = x.translation.finishStream.1 := rfl
  rw [answer, finishStream_eq, failed]
  rfl

theorem feedAll_concat (x : AnthropicToOpenAiSse) (pieces : List Bytes) (piece : Bytes) :
    x.feedAll (pieces ++ [piece]) =
      (((x.feedAll pieces).1.feed piece).2.1,
        (x.feedAll pieces).2 ++ ((x.feedAll pieces).1.feed piece).2.2) := by
  induction pieces generalizing x with
  | nil =>
      rw [List.nil_append, feedAll_cons]
      exact Prod.ext rfl (List.append_nil _)
  | cons first pieces inductionHypothesis =>
      rw [List.cons_append, feedAll_cons, inductionHypothesis, feedAll_cons, List.append_assoc]

/-- A stream that `finish` accepts carries its end. -/
theorem told_done {createdSecs : Int} {includeUsage : Bool} {clock : Int} {pieces : List Bytes}
    (accepted : ((reset createdSecs includeUsage clock).feedAll pieces).1.finish.1 = true) :
    ((reset createdSecs includeUsage clock).told pieces true).any Frame.isDone = true := by
  have quiet : false = true → (reset createdSecs includeUsage clock).translation.QuietAll
      ((reset createdSecs includeUsage clock).heardAll pieces) :=
    fun no => absurd no Bool.false_ne_true
  have heard := ((told_reset createdSecs includeUsage clock).tellAll quiet).done
  have state := (feedAll_behind (reset createdSecs includeUsage clock) pieces).2
  rw [dispatchAll_eq] at state
  rw [List.nil_append] at heard
  unfold told
  generalize ((reset createdSecs includeUsage clock).feedAll pieces).1 = y at *
  have answer : y.finish.1 = y.translation.finishStream.1 := rfl
  rw [answer, finishStream_eq] at accepted
  obtain ⟨alive, ends⟩ := Bool.and_eq_true_iff.mp accepted
  rw [List.any_append, if_pos rfl]
  cases done : y.translation.done with
  | true =>
      have same : (SseTranslation.written
          ((reset createdSecs includeUsage clock).translation.tellAll
            ((reset createdSecs includeUsage clock).heardAll pieces))).1.done = true := by
        rcases state with same | failed
        · rw [← same, done]
        · rw [failed] at done
          exact done
      rw [heard]
      exact Bool.or_eq_true_iff.mpr (Or.inl same)
  | false =>
      rw [done, Bool.false_or] at ends
      have last : y.translation.doneFrames.any Frame.isDone = true := by
        unfold doneFrames
        rw [done, if_neg Bool.false_ne_true]
        simp [Frame.isDone]
      unfold tellFinish tellClose
      rw [done, ends, alive]
      simp [last]

end AnthropicToOpenAiSse

namespace Gateway

open Http (Body ChunkDecoder)
open Http1 (Chunk Encoding crlf)

namespace StreamRelay

open StreamConn (IsComment)

/-! ## One step -/

/-- What every step of a translated stream does. -/
structure Placed (r s : StreamRelay) : Prop where
  framing : s.conn.framing = (r.conn.framing.unframe r.rbuf).2.1
  rbuf : s.rbuf = (r.conn.framing.unframe r.rbuf).2.2.1
  chunkedOut : s.conn.streamChunkedOut = r.conn.streamChunkedOut
  terminated : s.conn.streamTerminated = r.conn.streamTerminated
  translating : s.conn.sseTranslating = true

/-- A stream cut short. -/
def Cut (s : StreamRelay) : Prop :=
  s.conn.closeAfterResp = true ∧ s.conn.streamEnded = true

/-- A step of a translated stream: the framing breaks, the translator refuses, the
stream goes on, its end is refused, or it ends. -/
inductive Turns (r : StreamRelay) (atEof : Bool) (s : StreamRelay) : Prop where
  | broken
      (framing : (r.conn.framing.unframe r.rbuf).1 = false)
      (cut : s.Cut)
      (xlate : s.conn.sseXlate = r.conn.sseXlate)
      (staged : s.staged = r.staged)
  | refused
      (framing : (r.conn.framing.unframe r.rbuf).1 = true)
      (fed : (r.conn.heard (r.conn.framing.adds r.rbuf)).1 = false)
      (cut : s.Cut)
      (xlate : s.conn.sseXlate = (r.conn.heard (r.conn.framing.adds r.rbuf)).2.1)
      (staged : s.staged = r.staged ++ (r.conn.heard (r.conn.framing.adds r.rbuf)).2.2)
  | goesOn
      (framing : (r.conn.framing.unframe r.rbuf).1 = true)
      (fed : (r.conn.heard (r.conn.framing.adds r.rbuf)).1 = true)
      (open' : r.conn.streamEnded = true ∨
        (r.conn.framing.unframe r.rbuf).2.1.streamComplete atEof = false)
      (closing : s.conn.closeAfterResp =
        (r.conn.closeAfterResp || (atEof && !r.conn.streamEnded)))
      (ended : s.conn.streamEnded = (r.conn.streamEnded || (atEof && !r.conn.streamEnded)))
      (xlate : s.conn.sseXlate = (r.conn.heard (r.conn.framing.adds r.rbuf)).2.1)
      (staged : s.staged = r.staged ++ framed r.conn.streamChunkedOut
        (r.conn.heard (r.conn.framing.adds r.rbuf)).2.2)
  | unfinished
      (framing : (r.conn.framing.unframe r.rbuf).1 = true)
      (fed : (r.conn.heard (r.conn.framing.adds r.rbuf)).1 = true)
      (last : (r.conn.framing.unframe r.rbuf).2.1.streamComplete atEof = true ∧
        r.conn.streamEnded = false)
      (finished : (r.conn.heard (r.conn.framing.adds r.rbuf)).2.1.finish.1 = false)
      (cut : s.Cut)
      (xlate : s.conn.sseXlate = (r.conn.heard (r.conn.framing.adds r.rbuf)).2.1)
      (staged : s.staged = r.staged ++ framed r.conn.streamChunkedOut
        (r.conn.heard (r.conn.framing.adds r.rbuf)).2.2)
  | ends
      (framing : (r.conn.framing.unframe r.rbuf).1 = true)
      (fed : (r.conn.heard (r.conn.framing.adds r.rbuf)).1 = true)
      (last : (r.conn.framing.unframe r.rbuf).2.1.streamComplete atEof = true ∧
        r.conn.streamEnded = false)
      (finished : (r.conn.heard (r.conn.framing.adds r.rbuf)).2.1.finish.1 = true)
      (closing : s.conn.closeAfterResp = r.conn.closeAfterResp)
      (ended : s.conn.streamEnded = true)
      (staged : s.staged = r.staged ++
        framed r.conn.streamChunkedOut (r.conn.heard (r.conn.framing.adds r.rbuf)).2.2 ++
        framed r.conn.streamChunkedOut
          (r.conn.heard (r.conn.framing.adds r.rbuf)).2.1.finish.2.2)

theorem stepped_turns {r : StreamRelay} (translating : r.conn.sseTranslating = true)
    (atEof : Bool) (now : Int) :
    Placed r (r.stepped atEof now) ∧ Turns r atEof (r.stepped atEof now) := by
  cases ok : (r.conn.framing.unframe r.rbuf).1 with
  | false =>
      rw [stepped_broken ok]
      exact ⟨⟨rfl, rfl, rfl, rfl, translating⟩, .broken ok ⟨rfl, rfl⟩ rfl rfl⟩
  | true =>
      have adds : r.conn.framing.adds r.rbuf = (r.conn.framing.unframe r.rbuf).2.2.2 := by
        unfold Framing.adds
        rw [ok, if_pos rfl]
      obtain ⟨same, framing, ended, xlate, -⟩ := r.entering_same now
      obtain ⟨turns, same', framing'⟩ := (r.entering now).translate_spec
        (r.conn.framing.unframe r.rbuf).2.2.2 r.staged atEof now
      rw [stepped_whole ok, same.translating, translating, if_pos rfl]
      generalize (r.entering now).translate (r.conn.framing.unframe r.rbuf).2.2.2 r.staged atEof
        now = result at turns same' framing'
      have heard : (r.entering now).heard (r.conn.framing.unframe r.rbuf).2.2.2 =
          r.conn.heard (r.conn.framing.adds r.rbuf) := by
        unfold StreamConn.heard
        rw [adds, xlate]
      rw [framing] at framing'
      have flags := same'.chunkedOut.trans same.chunkedOut
      have terminated := same'.terminated.trans same.terminated
      have closing := same'.closing.trans same.closing
      have translates := (same'.translating.trans same.translating).trans translating
      have placed : Placed r (concluded result (r.conn.framing.unframe r.rbuf).2.2.1) := by
        unfold concluded
        constructor
        case framing => dsimp only; split <;> exact framing'
        case rbuf => rfl
        case chunkedOut => dsimp only; split <;> exact flags
        case terminated => dsimp only; split <;> exact terminated
        case translating => dsimp only; split <;> exact translates
      refine ⟨placed, ?_⟩
      unfold concluded
      cases turns with
      | refused fed step over' tells written =>
          rw [heard] at fed tells written
          rw [if_pos (Or.inr step)]
          exact .refused ok fed ⟨rfl, rfl⟩ tells written
      | goesOn fed open' step over' tells written =>
          rw [heard] at fed tells written
          rw [same.chunkedOut] at written
          rw [ended] at step over'
          have still : r.conn.streamEnded = true ∨
              (r.conn.framing.unframe r.rbuf).2.1.streamComplete atEof = false := by
            unfold StreamConn.endedBy at open'
            rw [framing, ended] at open'
            cases live : r.conn.streamEnded with
            | true => exact Or.inl rfl
            | false => exact Or.inr (by simpa [live] using open')
          by_cases cut : result.1 = .corrupt ∨ result.1 = .failed
          · obtain ⟨eof, live⟩ := step.mp cut
            rw [if_pos cut]
            refine .goesOn ok fed still ?_ ?_ tells written
            · rw [eof, live, Bool.not_false, Bool.and_self, Bool.or_true]
              rfl
            · rw [eof, live, Bool.not_false, Bool.and_self, Bool.or_true]
              rfl
          · have uncut : (atEof && !r.conn.streamEnded) = false := by
              by_contra both
              obtain ⟨eof, live⟩ := Bool.and_eq_true_iff.mp (Bool.eq_true_of_not_eq_false both)
              exact cut (step.mpr ⟨eof, by simpa using live⟩)
            rw [if_neg cut]
            refine .goesOn ok fed still ?_ ?_ tells written
            · rw [uncut, Bool.or_false]
              exact closing
            · rw [uncut, Bool.or_false]
              exact over'
      | unfinished fed last finished step over' tells written =>
          rw [heard] at fed finished tells written
          rw [framing, ended] at last
          rw [same.chunkedOut] at written
          rw [if_pos (Or.inr step)]
          exact .unfinished ok fed last finished ⟨rfl, rfl⟩ tells written
      | ends fed last finished step over' written =>
          rw [heard] at fed finished written
          rw [framing, ended] at last
          rw [same.chunkedOut] at written
          rw [if_neg (by rw [step]; decide)]
          exact .ends ok fed last finished closing over' written

/-! ## The whole stream -/

/-- What the translator is fed of the bodies of reads: those that are not empty. -/
def fedOf (bodies : List Bytes) : List Bytes :=
  bodies.filter (· ≠ [])

/-- Why a translated stream is cut short behind some reads: its framing broke, the
translator `x` refused a read, or its end came and the translator had none. -/
def CutShort (f : Framing) (x : AnthropicToOpenAiSse) (reads : List Bytes) (eof : Bool) :
    Prop :=
  f.breaks reads.flatten = true ∨ x.translation.failed = true ∨
    (reads ≠ [] ∧ (eof = true ∨ f.finishes reads.flatten eof = true) ∧
      ¬ (f.finishes reads.flatten eof = true ∧ x.finish.1 = true))

/-- The translator behind some reads, and all that it wrote. -/
def behind (f : Framing) (x : AnthropicToOpenAiSse) (reads : List Bytes) :
    AnthropicToOpenAiSse × Bytes :=
  x.feedAll (fedOf (f.bodies [] reads))

/-- Where a translated stream stands behind some reads, and where `eof` says so behind the
venue's end of it. -/
structure Standing (f : Framing) (x : AnthropicToOpenAiSse) (reads : List Bytes) (eof : Bool)
    (pieces : List Bytes) (raw said : Bytes) (r : StreamRelay) : Prop where
  written : Written r pieces raw said
  text : pieces.flatten ++ raw = x.streamed (fedOf (f.bodies [] reads))
    (r.conn.streamEnded && !r.conn.closeAfterResp)
  xlate : (r.conn.streamEnded && !r.conn.closeAfterResp) = false →
    r.conn.sseXlate = (behind f x reads).1
  refused : raw ≠ [] → (behind f x reads).1.translation.failed = true
  closing : r.conn.closeAfterResp = true ↔
    CutShort f (behind f x reads).1 reads eof
  cut : r.conn.closeAfterResp = true → r.conn.streamEnded = true
  ended : r.conn.closeAfterResp = false →
    (r.conn.streamEnded = true ↔ reads ≠ [] ∧ f.finishes reads.flatten eof = true)

/-- A read of `r` behind the ones before. -/
structure Reading (f : Framing) (x : AnthropicToOpenAiSse) (reads : List Bytes) (read : Bytes)
    (r : StreamRelay) : Prop where
  broken : (r.conn.framing.unframe r.rbuf).1 = false ↔
    f.breaks (reads.flatten ++ read) = true
  complete : ∀ eof, (r.conn.framing.unframe r.rbuf).2.1.streamComplete eof =
    f.finishes (reads.flatten ++ read) eof
  still : f.finishes reads.flatten false = true →
    (r.conn.framing.unframe r.rbuf).1 = true ∧ r.conn.framing.adds r.rbuf = []
  fed : fedOf (f.bodies [] (reads ++ [read])) = fedOf (f.bodies [] reads) ++
    if r.conn.framing.adds r.rbuf = [] then [] else [r.conn.framing.adds r.rbuf]

theorem reading {f : Framing} {reads : List Bytes} {g : Framing} {rbuf : Bytes}
    (x : AnthropicToOpenAiSse) (sound : f.chunkdec.Sound) (place : f.after [] reads = (g, rbuf))
    (read : Bytes) {r : StreamRelay} (framing : r.conn.framing = g)
    (input : r.rbuf = rbuf ++ read) : Reading f x reads read r := by
  have next := Framing.next sound place read
  rw [← input, ← framing] at next
  refine ⟨next.broken, next.complete, next.still, ?_⟩
  rw [next.bodies]
  unfold fedOf Framing.adds
  rw [List.filter_append]
  congr 1
  split
  · rw [List.filter_singleton]
    simp
  · rw [List.filter_nil, if_pos rfl]

section Steps

variable {f : Framing} {x : AnthropicToOpenAiSse} {reads : List Bytes} {read : Bytes}
  {r s : StreamRelay} {atEof : Bool} {pieces : List Bytes} {raw said : Bytes}

/-- The translator behind a read that is its turn. -/
theorem Reading.behind_eq (reads' : Reading f x reads read r)
    (xlate : r.conn.sseXlate = (behind f x reads).1) :
    behind f x (reads ++ [read]) = ((r.conn.heard (r.conn.framing.adds r.rbuf)).2.1,
      (behind f x reads).2 ++ (r.conn.heard (r.conn.framing.adds r.rbuf)).2.2) := by
  unfold behind at *
  rw [reads'.fed]
  unfold StreamConn.heard
  by_cases none : r.conn.framing.adds r.rbuf = []
  · rw [if_pos none, if_pos none, List.append_nil, xlate, List.append_nil]
  · rw [if_neg none, if_neg none, AnthropicToOpenAiSse.feedAll_concat, xlate]

/-- A refused read is a failed translation. -/
theorem heard_refused {c : StreamConn} {sseIn : Bytes} (refused : (c.heard sseIn).1 = false) :
    (c.heard sseIn).2.1.translation.failed = true := by
  unfold StreamConn.heard at *
  split at refused
  · cases refused
  · rename_i some
    rw [if_neg some]
    have answer := c.sseXlate.feed_answer sseIn
    rw [refused] at answer
    simpa using answer

theorem heard_accepted {c : StreamConn} {sseIn : Bytes} (accepted : (c.heard sseIn).1 = true)
    (alive : c.sseXlate.translation.failed = false) :
    (c.heard sseIn).2.1.translation.failed = false := by
  unfold StreamConn.heard at *
  split at accepted
  · rename_i none
    rw [if_pos none]
    exact alive
  · rename_i some
    rw [if_neg some]
    have answer := c.sseXlate.feed_answer sseIn
    rw [accepted] at answer
    simpa using answer.symm

@[simp] theorem heard_nil (c : StreamConn) : c.heard [] = (true, c.sseXlate, []) := by
  unfold StreamConn.heard
  rw [if_pos rfl]

theorem Written.kept (written : Written r pieces raw said) (placed : Placed r s)
    (staged : s.staged = r.staged)
    (clean : r.conn.streamTerminated = true →
      s.conn.streamEnded = true ∧ s.conn.closeAfterResp = false) :
    Written s pieces raw said where
  staged := by rw [staged, written.staged, placed.chunkedOut, placed.terminated]
  clean := by
    intro told
    rw [placed.terminated] at told
    exact ⟨(clean told).1, (clean told).2, (written.clean told).2.2⟩
  silent := by
    rw [placed.terminated]
    exact written.silent
  comment := fun some => ⟨(written.comment some).1, fun no => by
    rw [placed.translating] at no
    cases no⟩

theorem Written.more (written : Written r pieces [] said) (placed : Placed r s)
    (fresh : r.conn.streamTerminated = false) {more : List Bytes} {raw' : Bytes}
    (staged : s.staged = r.staged ++ more.flatMap (framed r.conn.streamChunkedOut) ++ raw') :
    Written s (pieces ++ more) raw' said where
  staged := by
    rw [staged, written.staged, placed.chunkedOut, placed.terminated, fresh,
      written.silent fresh, framed_nil, if_neg Bool.false_ne_true, List.flatMap_append]
    simp only [List.append_nil]
  clean := by
    intro told
    rw [placed.terminated, fresh] at told
    cases told
  silent := by
    rw [placed.terminated]
    exact written.silent
  comment := fun some => absurd (written.silent fresh) some

/-- What is finished stays accepted or refused. -/
theorem cutShort_still {y : AnthropicToOpenAiSse} {eof : Bool} (some : reads ≠ [])
    (finished : f.finishes reads.flatten false = true) :
    CutShort f y (reads ++ [read]) eof ↔ CutShort f y reads false := by
  have before : f.breaks reads.flatten = false := finishes_unbroken finished
  have finished' := Framing.finishes_more read eof finished
  have after := finishes_unbroken finished'
  unfold CutShort
  rw [List.flatten_append, List.flatten_singleton, before, after, finished, finished']
  simp [some]

/-- A stream that ended says nothing more. -/
theorem Standing.told (standing : Standing f x reads false pieces raw said r)
    (reads' : Reading f x reads read r) (placed : Placed r s) (turns : Turns r atEof s)
    (ends : r.conn.streamEnded = true) (keeps : r.conn.closeAfterResp = false) :
    Standing f x (reads ++ [read]) atEof pieces raw said s := by
  obtain ⟨written, text, xlate, refused, closing, cut, ended⟩ := standing
  obtain ⟨begun, finished⟩ := (ended keeps).mp ends
  obtain ⟨ok, none⟩ := reads'.still finished
  have stays : s.staged = r.staged ∧ s.conn.closeAfterResp = false ∧
      s.conn.streamEnded = true := by
    cases turns with
    | broken broken => rw [ok] at broken; cases broken
    | refused _ fed =>
        rw [none, heard_nil] at fed
        cases fed
    | goesOn _ _ _ closing' ended' _ staged =>
        rw [none, heard_nil, framed_nil, List.append_nil] at staged
        rw [keeps, ends, Bool.not_true, Bool.and_false, Bool.or_false] at closing'
        rw [ends, Bool.true_or] at ended'
        exact ⟨staged, closing', ended'⟩
    | unfinished _ _ last => rw [last.2] at ends; cases ends
    | ends _ _ last => rw [last.2] at ends; cases ends
  obtain ⟨staged, keeps', ends'⟩ := stays
  have same : behind f x (reads ++ [read]) = behind f x reads := by
    unfold behind
    rw [reads'.fed, none, if_pos rfl, List.append_nil]
  constructor
  case written => exact written.kept placed staged fun _ => ⟨ends', keeps'⟩
  case text =>
    rw [reads'.fed, none, if_pos rfl, List.append_nil, ends', keeps', text, ends, keeps]
  case xlate =>
    intro no
    rw [ends', keeps'] at no
    cases no
  case refused =>
    rw [same]
    exact refused
  case closing =>
    rw [same, cutShort_still begun finished, ← closing, keeps, keeps']
  case cut =>
    intro no
    rw [keeps'] at no
    cases no
  case ended =>
    intro _
    rw [List.flatten_append, List.flatten_singleton]
    exact ⟨fun _ => ⟨List.concat_ne_nil _ _, Framing.finishes_more read atEof finished⟩,
      fun _ => ends'⟩

/-- A cut stream stays cut. -/
theorem CutShort.more {y : AnthropicToOpenAiSse} (cut : CutShort f y reads false) (read : Bytes)
    (eof : Bool) : CutShort f y (reads ++ [read]) eof := by
  have why := cut
  rcases why with breaks | failed | ⟨some, no | finished, -⟩
  · refine Or.inl ?_
    rw [List.flatten_append, List.flatten_singleton]
    exact Framing.breaks_more read breaks
  · exact Or.inr (Or.inl failed)
  · cases no
  · exact (cutShort_still some finished).mpr cut

theorem streamed_behind (f : Framing) (x : AnthropicToOpenAiSse) (reads : List Bytes)
    (closing : Bool) : x.streamed (fedOf (f.bodies [] reads)) closing =
      (behind f x reads).2 ++ if closing then (behind f x reads).1.finish.2.2 else [] :=
  rfl

theorem Standing.of_cut (written : Written s pieces raw said)
    (text : pieces.flatten ++ raw = (behind f x reads).2)
    (xlate : s.conn.sseXlate = (behind f x reads).1)
    (refused : raw ≠ [] → (behind f x reads).1.translation.failed = true) (cut : s.Cut)
    (why : CutShort f (behind f x reads).1 reads atEof) :
    Standing f x reads atEof pieces raw said s where
  written := written
  text := by
    rw [text, streamed_behind, cut.1, Bool.not_true, Bool.and_false,
      if_neg Bool.false_ne_true, List.append_nil]
  xlate := fun _ => xlate
  refused := refused
  closing := ⟨fun _ => why, fun _ => cut.1⟩
  cut := fun _ => cut.2
  ended := by
    intro no
    rw [cut.1] at no
    cases no

/-- A stream that was cut says nothing more. -/
theorem Standing.closed (standing : Standing f x reads false pieces raw said r)
    (reads' : Reading f x reads read r) (placed : Placed r s) (turns : Turns r atEof s)
    (closes : r.conn.closeAfterResp = true) (fresh : r.conn.streamTerminated = false) :
    Standing f x (reads ++ [read]) atEof pieces raw said s := by
  obtain ⟨written, text, xlate, refused, closing, cut, ended⟩ := standing
  have ends := cut closes
  have why := closing.mp closes
  have shut : (r.conn.streamEnded && !r.conn.closeAfterResp) = false := by
    rw [closes, Bool.not_true, Bool.and_false]
  have behind' := reads'.behind_eq (xlate shut)
  have quiet : (r.conn.heard (r.conn.framing.adds r.rbuf)).2 = (r.conn.sseXlate, []) := by
    cases ok : (r.conn.framing.unframe r.rbuf).1 with
    | false =>
        unfold Framing.adds
        rw [ok, if_neg Bool.false_ne_true, heard_nil]
    | true =>
        rcases why with breaks | failed | ⟨-, no | finished, -⟩
        · have broken := reads'.broken.mpr (Framing.breaks_more read breaks)
          rw [ok] at broken
          cases broken
        · rw [← xlate shut] at failed
          unfold StreamConn.heard
          rw [AnthropicToOpenAiSse.feed_failed failed]
          split <;> rfl
        · cases no
        · rw [(reads'.still finished).2, heard_nil]
  rw [quiet, List.append_nil, xlate shut] at behind'
  have same : behind f x (reads ++ [read]) = behind f x reads := behind'
  have stays : s.staged = r.staged ∧ s.Cut ∧ s.conn.sseXlate = r.conn.sseXlate := by
    cases turns with
    | broken _ cut' xlate' staged => exact ⟨staged, cut', xlate'⟩
    | refused _ _ cut' xlate' staged =>
        rw [quiet] at xlate' staged
        exact ⟨staged.trans (List.append_nil _), cut', xlate'⟩
    | goesOn _ _ _ closing' ended' xlate' staged =>
        rw [quiet] at xlate' staged
        rw [framed_nil, List.append_nil] at staged
        rw [closes, Bool.true_or] at closing'
        rw [ends, Bool.true_or] at ended'
        exact ⟨staged, ⟨closing', ended'⟩, xlate'⟩
    | unfinished _ _ last => rw [last.2] at ends; cases ends
    | ends _ _ last => rw [last.2] at ends; cases ends
  obtain ⟨staged, ⟨closes', ends'⟩, xlate'⟩ := stays
  have kept : Written s pieces raw said := by
    refine written.kept placed staged fun told => ?_
    rw [fresh] at told
    cases told
  refine .of_cut kept ?_ (by rw [xlate', same, xlate shut]) (by rw [same]; exact refused)
    ⟨closes', ends'⟩ ?_
  · rw [text, streamed_behind, same, shut, if_neg Bool.false_ne_true, List.append_nil]
  · rw [same]
    exact why.more read atEof

/-- A stream that goes on, before its next read. -/
structure Live (f : Framing) (x : AnthropicToOpenAiSse) (reads : List Bytes) (read : Bytes)
    (pieces : List Bytes) (said : Bytes) (r : StreamRelay) : Prop where
  written : Written r pieces [] said
  text : pieces.flatten = (behind f x reads).2
  streams : r.conn.streamEnded = false
  keeps : r.conn.closeAfterResp = false
  fresh : r.conn.streamTerminated = false
  alive : r.conn.sseXlate.translation.failed = false
  heard : behind f x (reads ++ [read]) =
    ((r.conn.heard (r.conn.framing.adds r.rbuf)).2.1,
      (behind f x reads).2 ++ (r.conn.heard (r.conn.framing.adds r.rbuf)).2.2)
  broken : (r.conn.framing.unframe r.rbuf).1 = false ↔
    f.breaks (reads ++ [read]).flatten = true
  complete : ∀ eof, (r.conn.framing.unframe r.rbuf).2.1.streamComplete eof =
    f.finishes (reads ++ [read]).flatten eof

/-- A stream that has not ended has written all its text and its translator is alive. -/
theorem Standing.isLive (standing : Standing f x reads false pieces raw said r)
    (reads' : Reading f x reads read r) (open' : r.conn.streamEnded = false)
    (fresh : r.conn.streamTerminated = false) : Live f x reads read pieces said r := by
  obtain ⟨written, text, xlate, refused, closing, cut, ended⟩ := standing
  have keeps : r.conn.closeAfterResp = false := by
    by_contra closes
    rw [cut (Bool.eq_true_of_not_eq_false closes)] at open'
    cases open'
  have shut : (r.conn.streamEnded && !r.conn.closeAfterResp) = false := by
    rw [open', Bool.false_and]
  have whole : ¬ CutShort f (behind f x reads).1 reads false := by
    rw [← closing, keeps]
    exact Bool.false_ne_true
  have alive : (behind f x reads).1.translation.failed = false := by
    by_contra failed
    exact whole (Or.inr (Or.inl (Bool.eq_true_of_not_eq_false failed)))
  have none : raw = [] := by
    by_contra some
    rw [refused some] at alive
    cases alive
  have flat : (reads ++ [read]).flatten = reads.flatten ++ read := by
    rw [List.flatten_append, List.flatten_singleton]
  subst none
  rw [shut, streamed_behind, if_neg Bool.false_ne_true, List.append_nil, List.append_nil] at text
  exact {
    written, text, streams := open', keeps, fresh
    alive := by rw [xlate shut]; exact alive
    heard := reads'.behind_eq (xlate shut)
    broken := by rw [flat]; exact reads'.broken
    complete := by rw [flat]; exact reads'.complete }

namespace Live

variable (live : Live f x reads read pieces said r) (placed : Placed r s)
include live

/-- A read whose framing holds breaks nothing. -/
theorem unbroken (ok : (r.conn.framing.unframe r.rbuf).1 = true) :
    f.breaks (reads ++ [read]).flatten = false := by
  by_contra breaks
  rw [live.broken.mpr (Bool.eq_true_of_not_eq_false breaks)] at ok
  cases ok

/-- An accepted read leaves the translator alive. -/
theorem unfailed (fed : (r.conn.heard (r.conn.framing.adds r.rbuf)).1 = true) :
    (behind f x (reads ++ [read])).1.translation.failed = false := by
  rw [live.heard]
  exact heard_accepted fed live.alive

include placed

/-- The framing breaks: nothing is said of the read. -/
theorem breaks (broken : (r.conn.framing.unframe r.rbuf).1 = false) (cut : s.Cut)
    (xlate : s.conn.sseXlate = r.conn.sseXlate) (staged : s.staged = r.staged) :
    Standing f x (reads ++ [read]) atEof pieces [] said s := by
  have heard := live.heard
  have none : r.conn.framing.adds r.rbuf = [] := by
    unfold Framing.adds
    rw [broken, if_neg Bool.false_ne_true]
  rw [none, heard_nil] at heard
  have kept : Written s pieces [] said := by
    refine live.written.kept placed staged fun told => ?_
    rw [live.fresh] at told
    cases told
  refine .of_cut kept ?_ ?_ (fun some => absurd rfl some) cut (Or.inl (live.broken.mp broken))
  · rw [heard, List.append_nil, List.append_nil, live.text]
  · rw [heard, xlate]

/-- The translator refuses the read: what it wrote before goes out as it is. -/
theorem refuses (fed : (r.conn.heard (r.conn.framing.adds r.rbuf)).1 = false) (cut : s.Cut)
    (xlate : s.conn.sseXlate = (r.conn.heard (r.conn.framing.adds r.rbuf)).2.1)
    (staged : s.staged =
      r.staged ++ (r.conn.heard (r.conn.framing.adds r.rbuf)).2.2) :
    Standing f x (reads ++ [read]) atEof pieces
      (r.conn.heard (r.conn.framing.adds r.rbuf)).2.2 said s := by
  have failed : (behind f x (reads ++ [read])).1.translation.failed = true := by
    rw [live.heard]
    exact heard_refused fed
  have kept := @Written.more r s pieces said live.written placed live.fresh []
    (r.conn.heard (r.conn.framing.adds r.rbuf)).2.2
    (staged.trans (by rw [List.flatMap_nil, List.append_nil]))
  rw [List.append_nil] at kept
  refine .of_cut kept ?_ ?_ (fun _ => failed) cut (Or.inr (Or.inl failed))
  · rw [live.heard, live.text]
  · rw [live.heard, xlate]

/-- The stream goes on, or its end comes before it is complete. -/
theorem goes
    (ok : (r.conn.framing.unframe r.rbuf).1 = true)
    (fed : (r.conn.heard (r.conn.framing.adds r.rbuf)).1 = true)
    (more : (r.conn.framing.unframe r.rbuf).2.1.streamComplete atEof = false)
    (closing : s.conn.closeAfterResp = atEof) (ended : s.conn.streamEnded = atEof)
    (xlate : s.conn.sseXlate = (r.conn.heard (r.conn.framing.adds r.rbuf)).2.1)
    (staged : s.staged = r.staged ++ framed r.conn.streamChunkedOut
      (r.conn.heard (r.conn.framing.adds r.rbuf)).2.2) :
    Standing f x (reads ++ [read]) atEof
      (pieces ++ [(r.conn.heard (r.conn.framing.adds r.rbuf)).2.2]) [] said s := by
  have kept := @Written.more r s pieces said live.written placed live.fresh [_] []
    (staged.trans (by rw [List.flatMap_singleton, List.append_nil]))
  have still : (s.conn.streamEnded && !s.conn.closeAfterResp) = false := by
    rw [closing, ended, Bool.and_not_self]
  have unfinished : f.finishes (reads ++ [read]).flatten atEof = false := by
    rw [← live.complete atEof]
    exact more
  refine ⟨kept, ?_, fun _ => ?_, fun some => absurd rfl some, ?_, ?_, ?_⟩
  · rw [still, streamed_behind, live.heard, List.flatten_append, List.flatten_singleton,
      live.text, if_neg Bool.false_ne_true]
  · rw [live.heard, xlate]
  · unfold CutShort
    rw [closing, live.unbroken ok, live.unfailed fed, unfinished]
    simp
  · rw [closing, ended]
    exact id
  · rw [closing, ended, unfinished]
    intro no
    rw [no]
    simp

/-- The body is complete and the translator is not: the stream is cut. -/
theorem cutsShort
    (complete : (r.conn.framing.unframe r.rbuf).2.1.streamComplete atEof = true)
    (finished : (r.conn.heard (r.conn.framing.adds r.rbuf)).2.1.finish.1 = false)
    (cut : s.Cut) (xlate : s.conn.sseXlate = (r.conn.heard (r.conn.framing.adds r.rbuf)).2.1)
    (staged : s.staged = r.staged ++ framed r.conn.streamChunkedOut
      (r.conn.heard (r.conn.framing.adds r.rbuf)).2.2) :
    Standing f x (reads ++ [read]) atEof
      (pieces ++ [(r.conn.heard (r.conn.framing.adds r.rbuf)).2.2]) [] said s := by
  have kept := @Written.more r s pieces said live.written placed live.fresh [_] []
    (staged.trans (by rw [List.flatMap_singleton, List.append_nil]))
  refine .of_cut kept ?_ ?_ (fun some => absurd rfl some) cut ?_
  · rw [live.heard, List.flatten_append, List.flatten_singleton, live.text, List.append_nil]
  · rw [live.heard, xlate]
  · have whole := live.complete atEof
    rw [complete] at whole
    refine Or.inr (Or.inr ⟨List.concat_ne_nil _ _, Or.inr whole.symm, fun both => ?_⟩)
    rw [live.heard, finished] at both
    cases both.2

/-- The body is complete and so is the translation: its end is written. -/
theorem ends
    (ok : (r.conn.framing.unframe r.rbuf).1 = true)
    (fed : (r.conn.heard (r.conn.framing.adds r.rbuf)).1 = true)
    (whole : (r.conn.framing.unframe r.rbuf).2.1.streamComplete atEof = true)
    (finished : (r.conn.heard (r.conn.framing.adds r.rbuf)).2.1.finish.1 = true)
    (closing : s.conn.closeAfterResp = r.conn.closeAfterResp)
    (ended : s.conn.streamEnded = true)
    (staged : s.staged = r.staged ++ framed r.conn.streamChunkedOut
        (r.conn.heard (r.conn.framing.adds r.rbuf)).2.2 ++
      framed r.conn.streamChunkedOut
        (r.conn.heard (r.conn.framing.adds r.rbuf)).2.1.finish.2.2) :
    Standing f x (reads ++ [read]) atEof
      (pieces ++ [(r.conn.heard (r.conn.framing.adds r.rbuf)).2.2,
        (r.conn.heard (r.conn.framing.adds r.rbuf)).2.1.finish.2.2]) [] said s := by
  have kept := @Written.more r s pieces said live.written placed live.fresh [_, _] []
    (staged.trans (by
      rw [List.flatMap_cons, List.flatMap_singleton, List.append_nil, List.append_assoc]))
  rw [live.keeps] at closing
  have told : (s.conn.streamEnded && !s.conn.closeAfterResp) = true := by
    rw [closing, ended]
    rfl
  have complete : f.finishes (reads ++ [read]).flatten atEof = true := by
    rw [← live.complete atEof, whole]
  have accepted : (behind f x (reads ++ [read])).1.finish.1 = true := by
    rw [live.heard]
    exact finished
  refine ⟨kept, ?_, fun no => ?_, fun some => absurd rfl some, ?_, fun _ => ended, ?_⟩
  · rw [told, streamed_behind, live.heard, List.flatten_append, live.text, if_pos rfl]
    simp only [List.flatten_cons, List.flatten_nil, List.append_nil, List.append_assoc]
  · rw [told] at no
    cases no
  · unfold CutShort
    rw [closing, live.unbroken ok, live.unfailed fed, complete, accepted]
    simp
  · rw [ended, complete]
    exact fun _ => ⟨fun _ => ⟨List.concat_ne_nil _ _, rfl⟩, fun _ => rfl⟩

end Live

/-- A stream that goes on stands behind one more read, however it turns. -/
theorem Standing.live (standing : Standing f x reads false pieces raw said r)
    (reads' : Reading f x reads read r) (placed : Placed r s) (turns : Turns r atEof s)
    (open' : r.conn.streamEnded = false) (fresh : r.conn.streamTerminated = false) :
    ∃ pieces' raw', Standing f x (reads ++ [read]) atEof pieces' raw' said s := by
  have live := standing.isLive reads' open' fresh
  cases turns with
  | broken broken cut xlate staged => exact ⟨_, _, live.breaks placed broken cut xlate staged⟩
  | refused _ fed cut xlate staged => exact ⟨_, _, live.refuses placed fed cut xlate staged⟩
  | goesOn ok fed open'' closing ended xlate staged =>
      rw [live.keeps, open', Bool.not_false, Bool.and_true, Bool.false_or] at closing
      rw [open', Bool.not_false, Bool.and_true, Bool.false_or] at ended
      have more := open''.resolve_left (by rw [open']; exact Bool.false_ne_true)
      exact ⟨_, _, live.goes placed ok fed more closing ended xlate staged⟩
  | unfinished _ _ last finished cut xlate staged =>
      exact ⟨_, _, live.cutsShort placed last.1 finished cut xlate staged⟩
  | ends ok fed last finished closing ended staged =>
      exact ⟨_, _, live.ends placed ok fed last.1 finished closing ended staged⟩

end Steps

/-- A translated stream behind some reads, and where `eof` says so behind the venue's end
of it. -/
structure Translated (f : Framing) (x : AnthropicToOpenAiSse) (chunkedOut : Bool)
    (reads : List Bytes) (eof : Bool) (pieces : List Bytes) (raw said : Bytes)
    (r : StreamRelay) : Prop where
  standing : Standing f x reads eof pieces raw said r
  place : f.after [] reads = (r.conn.framing, r.rbuf)
  flag : r.conn.streamChunkedOut = chunkedOut
  translates : r.conn.sseTranslating = true
  terminated : r.conn.streamTerminated = true ↔
    r.conn.streamEnded = true ∧ r.conn.closeAfterResp = false

variable (note : StreamConn → Bytes)

/-- A flush leaves a stream where it stands. -/
theorem Standing.flush {f : Framing} {x : AnthropicToOpenAiSse} {reads : List Bytes}
    {eof : Bool} {pieces : List Bytes} {raw said : Bytes} {r : StreamRelay}
    (standing : Standing f x reads eof pieces raw said r) :
    Flushed r (r.flush note) ∧
      ∃ said', Standing f x reads eof pieces raw said' (r.flush note) := by
  obtain ⟨written, text, xlate, refused, closing, cut, ended⟩ := standing
  have spec := flush_spec note written fun some =>
    closing.mpr (Or.inr (Or.inl (refused some)))
  obtain ⟨flushed, said', written'⟩ := spec
  refine ⟨flushed, said', written', ?_, ?_, refused, ?_, ?_, ?_⟩
  · rw [flushed.ended, flushed.closing, text]
  · rw [flushed.ended, flushed.closing, flushed.xlate]
    exact xlate
  · rw [flushed.closing]
    exact closing
  · rw [flushed.ended, flushed.closing]
    exact cut
  · rw [flushed.ended, flushed.closing]
    exact ended

/-- A step of a translated stream, with what it read. -/
theorem Translated.step {f : Framing} {x : AnthropicToOpenAiSse} {chunkedOut : Bool}
    {reads pieces : List Bytes} {raw said : Bytes} {r : StreamRelay}
    (translated : Translated f x chunkedOut reads false pieces raw said r)
    (sound : f.chunkdec.Sound) (read : Bytes) (atEof : Bool) (now : Int) :
    ∃ pieces' raw' said', Translated f x chunkedOut (reads ++ [read]) atEof pieces' raw' said'
      (({ r with rbuf := r.rbuf ++ read }.stepped atEof now).flush note) := by
  obtain ⟨standing, place, flag, translates, terminated⟩ := translated
  have place' := f.after_concat [] reads read
  rw [place] at place'
  have reads' := reading x sound place read (r := { r with rbuf := r.rbuf ++ read }) rfl rfl
  have standing' : Standing f x reads false pieces raw said { r with rbuf := r.rbuf ++ read } :=
    ⟨⟨standing.written.staged, standing.written.clean, standing.written.silent,
      standing.written.comment⟩, standing.text, standing.xlate, standing.refused,
      standing.closing, standing.cut, standing.ended⟩
  obtain ⟨placed, turns⟩ := @stepped_turns { r with rbuf := r.rbuf ++ read } translates atEof now
  generalize { r with rbuf := r.rbuf ++ read }.stepped atEof now = s at *
  have next : ∃ pieces' raw', Standing f x (reads ++ [read]) atEof pieces' raw' said s := by
    cases closes : r.conn.closeAfterResp with
    | true =>
        have fresh : r.conn.streamTerminated = false := by
          by_contra told
          have keeps := (terminated.mp (Bool.eq_true_of_not_eq_false told)).2
          rw [closes] at keeps
          cases keeps
        exact ⟨pieces, raw, standing'.closed reads' placed turns closes fresh⟩
    | false =>
        cases ends : r.conn.streamEnded with
        | true => exact ⟨pieces, raw, standing'.told reads' placed turns ends closes⟩
        | false =>
            have fresh : r.conn.streamTerminated = false := by
              by_contra told
              have live := (terminated.mp (Bool.eq_true_of_not_eq_false told)).1
              rw [ends] at live
              cases live
            exact standing'.live reads' placed turns ends fresh
  obtain ⟨pieces', raw', next⟩ := next
  obtain ⟨flushed, said', last⟩ := next.flush note
  refine ⟨pieces', raw', said', last, ?_, ?_, ?_, ?_⟩
  · rw [place', flushed.framing, flushed.rbuf, placed.framing, placed.rbuf]
  · rw [flushed.chunkedOut, placed.chunkedOut]
    exact flag
  · rw [flushed.translating, placed.translating]
  · rw [flushed.closing, flushed.ended]
    exact flushed.terminated

theorem Translated.pumpAll {f : Framing} {x : AnthropicToOpenAiSse} {chunkedOut : Bool}
    {seen pieces : List Bytes} {raw said : Bytes} {r : StreamRelay}
    (translated : Translated f x chunkedOut seen false pieces raw said r)
    (sound : f.chunkdec.Sound) (reads : List (Bytes × Int)) :
    ∃ pieces' raw' said', Translated f x chunkedOut (seen ++ reads.map Prod.fst) false
      pieces' raw' said' (r.pumpAll note reads) := by
  induction reads generalizing seen pieces raw said r with
  | nil =>
      refine ⟨pieces, raw, said, ?_⟩
      rw [List.map_nil, List.append_nil]
      exact translated
  | cons read reads inductionHypothesis =>
      obtain ⟨_, _, _, next⟩ := translated.step note sound read.1 false read.2
      obtain ⟨pieces', raw', said', last⟩ := inductionHypothesis next
      refine ⟨pieces', raw', said', ?_⟩
      rw [List.map_cons, ← List.singleton_append, ← List.append_assoc]
      exact last

/-- The translator of a request's stream. -/
def translatorOf (q : StreamRequest) (clock : Int) : AnthropicToOpenAiSse :=
  .reset (-1) q.wantsUsage clock

theorem translated_begun {q : StreamRequest} (translates : q.translating = true)
    (h : Http.ResponseHead) (clock : Int) :
    Translated (venueFraming h) (translatorOf q clock) (q.http11 && q.keepAlive) []
      false [] [] [] (begun q h clock) := by
  have xlate : (begun q h clock).conn.sseXlate = translatorOf q clock := by
    unfold begun StreamConn.beginStream translatorOf
    dsimp only
    rw [translates, if_pos rfl]
  have begins : (venueFraming h).breaks [] = false := by
    unfold Framing.breaks
    rw [ChunkDecoder.run_nil]
    exact Bool.and_false _
  have fresh : (begun q h clock).conn.streamTerminated = false := rfl
  have open' : (begun q h clock).conn.streamEnded = false := rfl
  have keeps : (begun q h clock).conn.closeAfterResp = false := rfl
  refine ⟨⟨⟨?_, ?_, fun _ => rfl, fun some => absurd rfl some⟩, ?_, fun _ => xlate,
    fun some => absurd rfl some, ?_, ?_, ?_⟩, rfl, rfl, translates, ?_⟩
  · rw [fresh, framed_nil, if_neg Bool.false_ne_true]
    rfl
  · rw [fresh]
    exact fun no => absurd no Bool.false_ne_true
  · rw [open', Bool.false_and]
    rfl
  · unfold CutShort
    rw [keeps, List.flatten_nil, begins]
    simp [behind, fedOf, Framing.bodies, AnthropicToOpenAiSse.feedAll,
      translatorOf, AnthropicToOpenAiSse.reset]
  · rw [keeps]
    exact fun no => absurd no Bool.false_ne_true
  · rw [open']
    exact fun _ => ⟨fun no => absurd no Bool.false_ne_true, fun both => absurd rfl both.1⟩
  · rw [fresh, open']
    exact ⟨fun no => absurd no Bool.false_ne_true, fun both => absurd both.1 Bool.false_ne_true⟩

/-- What the client of a translated stream was sent behind some reads: `body` in its
framing, `raw` outside of it, and what a sink said. -/
structure Retold (f : Framing) (x : AnthropicToOpenAiSse) (chunkedOut : Bool)
    (reads : List Bytes) (eof : Bool) (body raw said : Bytes) (s : StreamRelay) : Prop where
  text : body ++ raw = x.streamed (fedOf (f.bodies [] reads)) s.conn.streamTerminated
  plain : chunkedOut = false → s.staged = body ++ raw ++ said
  chunked : chunkedOut = true → s.conn.streamTerminated = true →
    ∃ e : Encoding, s.staged = e.render ∧ e.payload = body ++ said
  unfinished : chunkedOut = true → s.conn.streamTerminated = false →
    ∃ chunks : List Chunk, s.staged = chunks.flatMap Chunk.render ++ raw ∧
      (chunks.flatMap fun c => c.data) = body
  refused : raw ≠ [] → (behind f x reads).1.translation.failed = true
  comment : said ≠ [] → s.conn.streamTerminated = true ∧ IsComment said
  terminated : s.conn.streamTerminated =
    (f.finishes reads.flatten eof && (behind f x reads).1.finish.1)
  closing : s.conn.closeAfterResp = true ↔ CutShort f (behind f x reads).1 reads eof

theorem Translated.retold {f : Framing} {x : AnthropicToOpenAiSse} {chunkedOut : Bool}
    {reads pieces : List Bytes} {eof : Bool} {raw said : Bytes} {s : StreamRelay}
    (translated : Translated f x chunkedOut reads eof pieces raw said s) (some : reads ≠ []) :
    Retold f x chunkedOut reads eof pieces.flatten raw said s := by
  obtain ⟨⟨written, text, xlate, refused, closing, cut, ended⟩, place, flag, translates,
    terminated⟩ := translated
  have told : s.conn.streamTerminated =
      (s.conn.streamEnded && !s.conn.closeAfterResp) := by
    rw [Bool.eq_iff_iff, terminated, Bool.and_eq_true, Bool.not_eq_true']
  have ends : s.conn.streamTerminated =
      (f.finishes reads.flatten eof && (behind f x reads).1.finish.1) := by
    rw [Bool.eq_iff_iff, terminated, Bool.and_eq_true]
    constructor
    · rintro ⟨live, keeps⟩
      have finished := ((ended keeps).mp live).2
      refine ⟨finished, ?_⟩
      by_contra refuses
      rw [closing.mpr (Or.inr (Or.inr ⟨some, Or.inr finished, fun both => refuses both.2⟩))]
        at keeps
      cases keeps
    · rintro ⟨finished, accepted⟩
      have keeps : s.conn.closeAfterResp = false := by
        by_contra closes
        rcases closing.mp (Bool.eq_true_of_not_eq_false closes) with breaks | failed | ⟨-, -, no⟩
        · rw [finishes_unbroken finished] at breaks
          cases breaks
        · rw [AnthropicToOpenAiSse.finish_failed failed] at accepted
          cases accepted
        · exact no ⟨finished, accepted⟩
      exact ⟨(ended keeps).mpr ⟨some, finished⟩, keeps⟩
  obtain ⟨staged, clean, silent, comment⟩ := written
  rw [flag] at staged
  constructor
  case text => rw [told, text]
  case plain =>
    intro plain
    rw [staged, plain, flatMap_framed_false, framed_false]
    unfold ending
    rw [if_neg Bool.false_ne_true, ite_self, List.append_nil]
  case chunked =>
    intro chunked over'
    refine ⟨Encoding.ofChunks (chunksOf (pieces ++ [said])), ?_, ?_⟩
    · rw [staged, chunked, over', if_pos rfl, (clean over').2.2, Encoding.render_ofChunks,
        ← flatMap_framed, List.flatMap_append, List.flatMap_singleton, List.append_nil,
        List.append_assoc]
      rfl
    · rw [Encoding.payload_ofChunks, chunksOf_data, List.flatten_append, List.flatten_singleton]
  case unfinished =>
    intro chunked open'
    refine ⟨chunksOf pieces, ?_, chunksOf_data _⟩
    rw [staged, chunked, open', silent open', framed_nil, if_neg Bool.false_ne_true,
      flatMap_framed, List.append_nil, List.append_nil]
  case refused => exact refused
  case comment =>
    intro speaks
    refine ⟨?_, (comment speaks).1⟩
    by_contra open'
    exact speaks (silent (Bool.eq_false_of_not_eq_true open'))
  case terminated => exact ends
  case closing => exact closing

/-- A read of nothing adds nothing. -/
theorem fedOf_nothing {f : Framing} (sound : f.chunkdec.Sound) (reads : List Bytes) :
    fedOf (f.bodies [] (reads ++ [[]])) = fedOf (f.bodies [] reads) := by
  have progress := Framing.progress_after sound reads
  have next := progress.step []
  simp only [List.append_nil] at next
  have none : (f.after [] reads).1.adds (f.after [] reads).2 = [] := by
    by_cases ok : ((f.after [] reads).1.unframe (f.after [] reads).2).1 = true
    · have unbroken : f.breaks reads.flatten = false := by
        by_contra breaks
        rw [next.broken.mpr (Bool.eq_true_of_not_eq_false breaks)] at ok
        cases ok
      have same := next.whole unbroken
      rw [← progress.whole unbroken] at same
      exact List.append_right_eq_self.mp same
    · unfold Framing.adds
      rw [if_neg ok]
  have reads' := reading (r := {
    conn := { framing := (f.after [] reads).1 }
    rbuf := (f.after [] reads).2 }) {} sound rfl [] rfl (List.append_nil _).symm
  have fed := reads'.fed
  rw [if_pos none, List.append_nil] at fed
  exact fed

theorem Retold.nothing {f : Framing} {x : AnthropicToOpenAiSse} {chunkedOut eof : Bool}
    {reads : List Bytes} {body raw said : Bytes} {s : StreamRelay} (sound : f.chunkdec.Sound)
    (some : reads ≠ [])
    (retold : Retold f x chunkedOut (reads ++ [[]]) eof body raw said s) :
    Retold f x chunkedOut reads eof body raw said s := by
  have same := fedOf_nothing sound reads
  have behind' : behind f x (reads ++ [[]]) = behind f x reads := by
    unfold behind
    rw [same]
  have flat : (reads ++ [[]]).flatten = reads.flatten := by
    rw [List.flatten_append, List.flatten_singleton, List.append_nil]
  obtain ⟨text, plain, chunked, unfinished, refused, comment, terminated, closing⟩ := retold
  unfold CutShort at closing
  rw [behind', flat] at closing
  rw [same] at text
  rw [behind'] at refused
  rw [behind', flat] at terminated
  refine ⟨text, plain, chunked, unfinished, refused, comment, terminated, ?_⟩
  unfold CutShort
  rw [closing]
  simp [some]

theorem stream_retold {q : StreamRequest} {h : Http.ResponseHead} {clock : Int}
    {first : Bytes × Int} {rest : List (Bytes × Int)} {eof : Option Int}
    (translates : q.translating = true) :
    ∃ body raw said,
      Retold (venueFraming h) (translatorOf q clock) (q.http11 && q.keepAlive)
        ((first :: rest).map Prod.fst) eof.isSome body raw said
        ((begun q h clock).stream note (first :: rest) eof) := by
  have sound : (venueFraming h).chunkdec.Sound := ChunkDecoder.sound_fresh
  have some : (first :: rest).map Prod.fst ≠ [] := List.cons_ne_nil _ _
  obtain ⟨pieces, raw, said, pumped⟩ :=
    (translated_begun translates h clock).pumpAll note sound (first :: rest)
  rw [List.nil_append] at pumped
  cases eof with
  | none => exact ⟨_, raw, said, pumped.retold some⟩
  | some now =>
      obtain ⟨pieces', raw', said', last⟩ := pumped.step note sound [] true now
      have retold := (last.retold (List.concat_ne_nil _ _)).nothing sound some
      simp only [List.append_nil] at retold
      exact ⟨_, raw', said', retold⟩

/-- A translated stream, whatever its reads: what its client is sent are the frames the
translator told of the venue's body, with `[DONE]` wherever the stream ended cleanly. -/
theorem stream_retells (q : StreamRequest) (h : Http.ResponseHead) (clock : Int)
    (first : Bytes × Int) (rest : List (Bytes × Int)) (eof : Option Int)
    (translates : q.translating = true) :
    ∃ body raw said, ∃ frames : List SseTranslation.Frame,
      Retold (venueFraming h) (translatorOf q clock) (q.http11 && q.keepAlive)
        ((first :: rest).map Prod.fst) eof.isSome body raw said
        ((begun q h clock).stream note (first :: rest) eof) ∧
      body ++ raw = frames.flatMap (fun f => ascii "data: " ++ f.payload ++ ascii "\n\n") ∧
      (∀ f ∈ frames,
        (f = .done ∧ f.payload = ascii "[DONE]" ∨
          Json.Writes f.payload (Json.IsObject (f.parts.map Json.Part.field))) ∧
        ∀ c ∈ f.payload, ¬ c < 0x20) ∧
      Transition.Guarded (SseTranslation.Allowed false q.wantsUsage) frames ∧
      (((begun q h clock).stream note (first :: rest) eof).conn.streamTerminated = true →
        frames.any SseTranslation.Frame.isDone = true) := by
  obtain ⟨body, raw, said, retold⟩ := stream_retold note translates
  generalize (begun q h clock).stream note (first :: rest) eof = s at *
  have quiet : false = true → (translatorOf q clock).translation.QuietAll
      ((translatorOf q clock).heardAll
        (fedOf ((venueFraming h).bodies [] ((first :: rest).map Prod.fst)))) :=
    fun no => absurd no Bool.false_ne_true
  obtain ⟨last, told⟩ := AnthropicToOpenAiSse.told_stream (-1) q.wantsUsage clock
    (fedOf ((venueFraming h).bodies [] ((first :: rest).map Prod.fst)))
    s.conn.streamTerminated quiet
  refine ⟨body, raw, said, _, retold, ?_, ?_, told.guarded, fun ends => ?_⟩
  · rw [retold.text]
    exact AnthropicToOpenAiSse.streamed_eq _ _ _
  · intro f member
    have spans := told.spans f member
    exact ⟨SseTranslation.Frame.payload_writes spans,
      SseTranslation.Frame.payload_printable spans⟩
  · have accepted := retold.terminated
    rw [ends] at accepted
    rw [ends]
    exact AnthropicToOpenAiSse.told_done (Bool.and_eq_true_iff.mp accepted.symm).2

/-- An event of the venue in two reads, to a client that reads chunks. -/
theorem stream_retells_stop :
    ∃ body raw said, ∃ frames : List SseTranslation.Frame,
      Retold (venueFraming { body := .untilClose }) (translatorOf { translating := true } 0) true
        [ascii "data: \x7b\"type\":\"message_", ascii "stop\"\x7d\n\n"] true body raw said
        ((begun { translating := true } { body := .untilClose } 0).stream (fun _ => [])
          [(ascii "data: \x7b\"type\":\"message_", 1), (ascii "stop\"\x7d\n\n", 2)] (some 3)) ∧
      body ++ raw = frames.flatMap (fun f => ascii "data: " ++ f.payload ++ ascii "\n\n") ∧
      (∀ f ∈ frames,
        (f = .done ∧ f.payload = ascii "[DONE]" ∨
          Json.Writes f.payload (Json.IsObject (f.parts.map Json.Part.field))) ∧
        ∀ c ∈ f.payload, ¬ c < 0x20) ∧
      Transition.Guarded (SseTranslation.Allowed false false) frames ∧
      (((begun { translating := true } { body := .untilClose } 0).stream (fun _ => [])
          [(ascii "data: \x7b\"type\":\"message_", 1), (ascii "stop\"\x7d\n\n", 2)]
          (some 3)).conn.streamTerminated = true →
        frames.any SseTranslation.Frame.isDone = true) :=
  stream_retells (fun _ => []) { translating := true } { body := .untilClose } 0
    (ascii "data: \x7b\"type\":\"message_", 1) [(ascii "stop\"\x7d\n\n", 2)] (some 3) rfl

/-- A translated stream whose framing holds and whose lines and events are no longer than
the reader takes: what its client is sent is the translation of the venue's whole body,
however the venue framed it and however it came. -/
theorem stream_translates (q : StreamRequest) (h : Http.ResponseHead) (clock : Int)
    (first : Bytes × Int) (rest : List (Bytes × Int)) (eof : Option Int) (seen : Bytes)
    (translates : q.translating = true)
    (cuts : ((first :: rest).map Prod.fst).flatten = seen)
    (whole : (venueFraming h).breaks seen = false)
    (shortLines : ∀ line ∈ (EventStream.lines ((venueFraming h).bodyOf seen)).1 ++
      [(EventStream.lines ((venueFraming h).bodyOf seen)).2], line.length ≤ SseFrameReader.kMaxLine)
    (shortEvents : ∀ event ∈ EventStream.events ((venueFraming h).bodyOf seen),
      event.length < SseFrameReader.kMaxEvent) :
    ∃ body raw said,
      Retold (venueFraming h) (translatorOf q clock) (q.http11 && q.keepAlive)
        ((first :: rest).map Prod.fst) eof.isSome body raw said
        ((begun q h clock).stream note (first :: rest) eof) ∧
      body ++ raw =
        ((translatorOf q clock).translation.translate
            ((venueFraming h).bodyOf seen)).2 ++
          (if ((begun q h clock).stream note (first :: rest) eof).conn.streamTerminated then
            ((translatorOf q clock).translation.translate
              ((venueFraming h).bodyOf seen)).1.finishStream.2.2
          else []) ∧
      ((begun q h clock).stream note (first :: rest) eof).conn.streamTerminated =
        ((venueFraming h).finishes seen eof.isSome &&
          ((translatorOf q clock).translation.translate
            ((venueFraming h).bodyOf seen)).1.finishStream.1) := by
  obtain ⟨body, raw, said, retold⟩ := stream_retold note translates
  have sound : (venueFraming h).chunkdec.Sound := ChunkDecoder.sound_fresh
  have progress := Framing.progress_after sound ((first :: rest).map Prod.fst)
  rw [cuts] at progress
  have fed : (fedOf ((venueFraming h).bodies [] ((first :: rest).map Prod.fst))).flatten =
      (venueFraming h).bodyOf seen := by
    unfold fedOf
    rw [List.flatten_filter_ne_nil, progress.whole whole]
  have translated : (((translatorOf q clock).feedAll _).1.translation,
        ((translatorOf q clock).feedAll _).2) =
      (translatorOf q clock).translation.translate ((venueFraming h).bodyOf seen) :=
    AnthropicToOpenAiSse.feedAll_reset (-1) q.wantsUsage clock fed shortLines shortEvents
  have text := retold.text
  have terminated := retold.terminated
  rw [cuts] at terminated
  rw [streamed_behind] at text
  unfold behind at text terminated
  rw [← translated]
  exact ⟨body, raw, said, retold, text, terminated⟩

/-- The same event, cut elsewhere and with the venue's own length. -/
theorem stream_translates_stop :
    ∃ body raw said,
      Retold (venueFraming { body := .length, contentLength := 31 })
        (translatorOf { translating := true } 0) true
        [ascii "data: \x7b\"ty", ascii "pe\":\"message_stop\"\x7d\n\n"] false body raw said
        ((begun { translating := true } { body := .length, contentLength := 31 } 0).stream
          (fun _ => []) [(ascii "data: \x7b\"ty", 1), (ascii "pe\":\"message_stop\"\x7d\n\n", 2)]
          none) ∧
      body ++ raw =
        ((translatorOf { translating := true } 0).translation.translate
            ((venueFraming { body := .length, contentLength := 31 }).bodyOf
              (ascii "data: \x7b\"type\":\"message_stop\"\x7d\n\n"))).2 ++
          (if ((begun { translating := true } { body := .length, contentLength := 31 } 0).stream
              (fun _ => [])
              [(ascii "data: \x7b\"ty", 1), (ascii "pe\":\"message_stop\"\x7d\n\n", 2)]
              none).conn.streamTerminated then
            ((translatorOf { translating := true } 0).translation.translate
              ((venueFraming { body := .length, contentLength := 31 }).bodyOf
                (ascii "data: \x7b\"type\":\"message_stop\"\x7d\n\n"))).1.finishStream.2.2
          else []) ∧
      ((begun { translating := true } { body := .length, contentLength := 31 } 0).stream
          (fun _ => []) [(ascii "data: \x7b\"ty", 1), (ascii "pe\":\"message_stop\"\x7d\n\n", 2)]
          none).conn.streamTerminated =
        ((venueFraming { body := .length, contentLength := 31 }).finishes
            (ascii "data: \x7b\"type\":\"message_stop\"\x7d\n\n") false &&
          ((translatorOf { translating := true } 0).translation.translate
            ((venueFraming { body := .length, contentLength := 31 }).bodyOf
              (ascii "data: \x7b\"type\":\"message_stop\"\x7d\n\n"))).1.finishStream.1) :=
  stream_translates (fun _ => []) { translating := true }
    { body := .length, contentLength := 31 } 0 (ascii "data: \x7b\"ty", 1)
    [(ascii "pe\":\"message_stop\"\x7d\n\n", 2)] none
    (ascii "data: \x7b\"type\":\"message_stop\"\x7d\n\n") rfl (by decide) (by decide)
    (List.forall_mem_iff_forall_getElem.mpr (by decide))
    (List.forall_mem_iff_forall_getElem.mpr (by decide))

end StreamRelay

end Gateway
end Llmbridge
