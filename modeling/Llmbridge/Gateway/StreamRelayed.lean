import Llmbridge.Gateway.StreamFraming

/-!
# What a streamed client is sent

Every step writes whole pieces, each framed for the client, and the pieces together are
what the venue's body says.
-/

namespace Llmbridge
namespace Gateway

open Rfc8259 (Byte Bytes ascii)
open Http (Body ChunkDecoder)
open Http1 (Chunk Encoding crlf)

/-! ## One step -/

namespace StreamConn

/-- What no step touches. -/
structure Same (c d : StreamConn) : Prop where
  chunkedOut : d.streamChunkedOut = c.streamChunkedOut
  terminated : d.streamTerminated = c.streamTerminated
  closing : d.closeAfterResp = c.closeAfterResp
  translating : d.sseTranslating = c.sseTranslating

theorem Same.refl (c : StreamConn) : Same c c :=
  ⟨rfl, rfl, rfl, rfl⟩

/-- Where a step that writes nothing more leaves a stream. -/
def endedBy (c : StreamConn) (atEof : Bool) : Bool :=
  c.streamEnded || c.framing.streamComplete atEof

theorem keepLast_nil (tail : Bytes) : keepLast tail [] = tail := by
  unfold keepLast
  simp

@[simp] theorem stampForward_rest (c : StreamConn) (sseIn : Bytes) (now : Int) :
    Same c (c.stampForward sseIn now) ∧ (c.stampForward sseIn now).framing = c.framing ∧
      (c.stampForward sseIn now).streamEnded = c.streamEnded ∧
      (c.stampForward sseIn now).streamTail = c.streamTail :=
  ⟨⟨rfl, rfl, rfl, rfl⟩, rfl, rfl, rfl⟩

/-- What a forwarding step does. -/
structure Forwards (c : StreamConn) (sseIn : Bytes) (atEof : Bool) (out : Bytes)
    (result : StreamStep × StreamConn × Bytes) : Prop where
  same : Same c result.2.1
  framing : result.2.1.framing = c.framing
  ended : result.2.1.streamEnded = c.endedBy atEof
  tail : result.2.1.streamTail = keepLast c.streamTail sseIn
  step : (result.1 = .corrupt ∨ result.1 = .failed) ↔ atEof = true ∧ c.endedBy atEof = false
  written : result.2.2 = out ++ framed c.streamChunkedOut sseIn

theorem outcome_cut (c : StreamConn) (atEof : Bool) :
    (c.outcome atEof = .corrupt ∨ c.outcome atEof = .failed) ↔
      atEof = true ∧ c.streamEnded = false := by
  unfold outcome
  cases atEof <;> cases c.streamEnded <;> decide

theorem forward_spec (c : StreamConn) (sseIn out : Bytes) (atEof : Bool) (now : Int) :
    Forwards c sseIn atEof out (c.forward sseIn out atEof now) := by
  have begun : ∃ d : StreamConn,
      (if sseIn = [] then (c, out)
        else
          ({ ({ c with streamUsage := c.streamUsage.feed sseIn }).stampForward sseIn now with
              streamTail := keepLast
                (({ c with streamUsage := c.streamUsage.feed sseIn }).stampForward sseIn
                  now).streamTail sseIn },
            chunkWrap (({ c with streamUsage := c.streamUsage.feed sseIn }).stampForward sseIn
              now).streamChunkedOut (out ++ sseIn) out.length)) =
        (d, out ++ framed c.streamChunkedOut sseIn) ∧
      Same c d ∧ d.framing = c.framing ∧ d.streamEnded = c.streamEnded ∧
      d.streamTail = keepLast c.streamTail sseIn := by
    by_cases none : sseIn = []
    · subst none
      refine ⟨c, ?_, Same.refl c, rfl, rfl, (keepLast_nil _).symm⟩
      rw [if_pos rfl, framed_nil, List.append_nil]
    · rw [if_neg none, chunkWrap_append]
      exact ⟨_, rfl, ⟨rfl, rfl, rfl, rfl⟩, rfl, rfl, rfl⟩
  obtain ⟨d, is, same, framing, ended, tail⟩ := begun
  unfold forward
  dsimp only at is ⊢
  rw [is]
  dsimp only
  rw [framing, ended]
  by_cases last : c.framing.streamComplete atEof = true ∧ c.streamEnded = false
  · rw [if_pos last]
    refine ⟨⟨same.chunkedOut, same.terminated, same.closing, same.translating⟩, rfl, ?_,
      tail, ?_, rfl⟩
    · simp [endedBy, last.1]
    · simp [endedBy, last.1]
  · rw [if_neg last]
    have settled : c.endedBy atEof = c.streamEnded := by
      unfold endedBy
      cases live : c.streamEnded with
      | true => rfl
      | false => simpa [live] using last
    refine ⟨same, framing, by rw [settled]; exact ended, tail, ?_, rfl⟩
    rw [settled, ← ended]
    exact outcome_cut d atEof

/-- A read given to the translator; an empty one is not. -/
def heard (c : StreamConn) (sseIn : Bytes) : Bool × AnthropicToOpenAiSse × Bytes :=
  if sseIn = [] then (true, c.sseXlate, []) else c.sseXlate.feed sseIn

/-- What a translating step does: it is refused by the translator, goes on, is refused at
the end, or ends. -/
inductive Translates (c : StreamConn) (sseIn : Bytes) (atEof : Bool) (out : Bytes)
    (result : StreamStep × StreamConn × Bytes) : Prop where
  | refused
      (fed : (c.heard sseIn).1 = false)
      (step : result.1 = .failed)
      (ended : result.2.1.streamEnded = c.streamEnded)
      (xlate : result.2.1.sseXlate = (c.heard sseIn).2.1)
      (written : result.2.2 = out ++ (c.heard sseIn).2.2)
  | goesOn
      (fed : (c.heard sseIn).1 = true)
      (open' : c.endedBy atEof = c.streamEnded)
      (step : (result.1 = .corrupt ∨ result.1 = .failed) ↔ atEof = true ∧ c.streamEnded = false)
      (ended : result.2.1.streamEnded = c.streamEnded)
      (xlate : result.2.1.sseXlate = (c.heard sseIn).2.1)
      (written : result.2.2 = out ++ framed c.streamChunkedOut (c.heard sseIn).2.2)
  | unfinished
      (fed : (c.heard sseIn).1 = true)
      (last : c.framing.streamComplete atEof = true ∧ c.streamEnded = false)
      (finished : (c.heard sseIn).2.1.finish.1 = false)
      (step : result.1 = .failed)
      (ended : result.2.1.streamEnded = c.streamEnded)
      (xlate : result.2.1.sseXlate = (c.heard sseIn).2.1)
      (written : result.2.2 = out ++ framed c.streamChunkedOut (c.heard sseIn).2.2)
  | ends
      (fed : (c.heard sseIn).1 = true)
      (last : c.framing.streamComplete atEof = true ∧ c.streamEnded = false)
      (finished : (c.heard sseIn).2.1.finish.1 = true)
      (step : result.1 = .ended)
      (ended : result.2.1.streamEnded = true)
      (written : result.2.2 = out ++ framed c.streamChunkedOut (c.heard sseIn).2.2 ++
        framed c.streamChunkedOut (c.heard sseIn).2.1.finish.2.2)

theorem finishStream_refused {t : SseTranslation} (refused : t.finishStream.1 = false) :
    t.finishStream = (false, t, []) := by
  unfold SseTranslation.finishStream at refused ⊢
  by_cases failed : (t.failed || !(t.done || t.finish.isSome)) = true
  · rw [if_pos failed]
  rw [if_neg failed] at refused
  by_cases done : t.done = true
  · rw [if_pos done] at refused
    cases refused
  · rw [if_neg done] at refused
    generalize (if t.finishEmitted = true then (t, []) else t.emitFinish t.finish) = emitted
      at refused
    obtain ⟨u, finish⟩ := emitted
    cases refused

theorem finish_refused {x : AnthropicToOpenAiSse} (refused : x.finish.1 = false) :
    x.finish = (false, x, []) := by
  unfold AnthropicToOpenAiSse.finish at refused ⊢
  rw [finishStream_refused refused]

theorem translate_spec (c : StreamConn) (sseIn out : Bytes) (atEof : Bool) (now : Int) :
    Translates c sseIn atEof out (c.translate sseIn out atEof now) ∧
      Same c (c.translate sseIn out atEof now).2.1 ∧
      (c.translate sseIn out atEof now).2.1.framing = c.framing := by
  have reads : (if sseIn = [] then (true, c.sseXlate, []) else c.sseXlate.feed sseIn) =
      c.heard sseIn := rfl
  unfold translate
  rw [reads]
  generalize heard : c.heard sseIn = result
  obtain ⟨fed, xlate, text⟩ := result
  dsimp only
  cases fed with
  | false =>
      rw [if_pos rfl]
      refine ⟨.refused ?_ rfl rfl ?_ ?_, ⟨rfl, rfl, rfl, rfl⟩, rfl⟩ <;> rw [heard]
  | true =>
      rw [if_neg (by decide), chunkWrap_append]
      by_cases last : c.framing.streamComplete atEof = true ∧ c.streamEnded = false
      · have last' : (stampTranslated { c with sseXlate := xlate } sseIn now).framing.streamComplete
            atEof = true ∧
            (stampTranslated { c with sseXlate := xlate } sseIn now).streamEnded = false := last
        rw [if_pos last']
        have same : (stampTranslated { c with sseXlate := xlate } sseIn now).sseXlate = xlate := rfl
        rw [same]
        cases finished : xlate.finish.1 with
        | false =>
            have whole := finish_refused finished
            rw [whole]
            dsimp only
            rw [if_pos rfl, List.append_nil]
            refine ⟨.unfinished ?_ last ?_ rfl rfl ?_ ?_, ⟨rfl, rfl, rfl, rfl⟩, rfl⟩ <;>
              rw [heard]
            exact finished
        | true =>
            have whole : xlate.finish = (true, xlate.finish.2.1, xlate.finish.2.2) := by
              rw [← finished]
            rw [whole]
            dsimp only
            rw [if_neg (by decide), chunkWrap_append]
            refine ⟨.ends ?_ last ?_ rfl rfl ?_, ⟨rfl, rfl, rfl, rfl⟩, rfl⟩ <;> rw [heard]
            · exact finished
            · rfl
      · have last' : ¬ ((stampTranslated { c with sseXlate := xlate } sseIn
            now).framing.streamComplete atEof = true ∧
            (stampTranslated { c with sseXlate := xlate } sseIn now).streamEnded = false) := last
        rw [if_neg last']
        refine ⟨.goesOn ?_ ?_ (outcome_cut _ atEof) rfl ?_ ?_, ⟨rfl, rfl, rfl, rfl⟩, rfl⟩
        · rw [heard]
        · unfold endedBy
          cases live : c.streamEnded with
          | true => rfl
          | false => simpa [live] using last
        · rw [heard]
          rfl
        · rw [heard]

/-! ## The end -/

/-- A note as one SSE comment that dispatches nothing. -/
def IsComment (said : Bytes) : Prop :=
  ∃ text, said = ascii ": " ++ text ++ ascii "\n\n" ∧ text.length ≤ kReplyNoteMax ∧
    ∀ ch ∈ text, ch ≠ 0x0d ∧ ch ≠ 0x0a ∧ ch ≠ 0

/-- What the sink adds to a stream's end. -/
theorem sinkNote_spec (c : StreamConn) (note out : Bytes) :
    ∃ said, c.sinkNote note out = out ++ framed c.streamChunkedOut said ∧
      (said ≠ [] → IsComment said ∧
        (c.sseTranslating = false → endsBlankLine c.streamTail = true)) := by
  unfold sinkNote
  by_cases dropped : note = [] ∨ (c.noteRefusal note).isSome = true
  · refine ⟨[], ?_, fun some => absurd rfl some⟩
    rw [if_pos dropped, framed_nil, List.append_nil]
  · refine ⟨ascii ": " ++ note ++ ascii "\n\n", ?_, fun _ => ?_⟩
    · rw [if_neg dropped, chunkWrap_append]
    · have kept := (not_or.mp dropped).2
      unfold noteRefusal at kept
      split at kept
      · exact absurd rfl kept
      rename_i short
      split at kept
      · exact absurd rfl kept
      rename_i clean
      split at kept
      · exact absurd rfl kept
      rename_i blank
      refine ⟨⟨note, rfl, Nat.le_of_not_lt short, fun ch member => ?_⟩, fun forwards => ?_⟩
      · have := List.any_eq_false.mp (Bool.eq_false_of_not_eq_true clean) ch member
        simpa [not_or] using this
      · simpa [forwards] using blank

end StreamConn

namespace StreamRelay

open StreamConn (IsComment endsBlankLine)

/-- The terminating chunk, where the client's framing has one. -/
def ending (chunkedOut : Bool) : Bytes :=
  if chunkedOut then ascii "0\r\n\r\n" else []

/-- What was staged: whole pieces, then what a refused read left unframed, then at a
clean end the sink's note and the end. -/
structure Written (r : StreamRelay) (pieces : List Bytes) (raw said : Bytes) : Prop where
  staged : r.staged = pieces.flatMap (framed r.conn.streamChunkedOut) ++ raw ++
    (framed r.conn.streamChunkedOut said ++
      if r.conn.streamTerminated then ending r.conn.streamChunkedOut else [])
  clean : r.conn.streamTerminated = true →
    r.conn.streamEnded = true ∧ r.conn.closeAfterResp = false ∧ raw = []
  silent : r.conn.streamTerminated = false → said = []
  comment : said ≠ [] → IsComment said ∧
    (r.conn.sseTranslating = false → endsBlankLine r.conn.streamTail = true)

variable (note : StreamConn → Bytes)

/-- What a flush leaves as it was. -/
structure Flushed (r s : StreamRelay) : Prop where
  framing : s.conn.framing = r.conn.framing
  rbuf : s.rbuf = r.rbuf
  chunkedOut : s.conn.streamChunkedOut = r.conn.streamChunkedOut
  translating : s.conn.sseTranslating = r.conn.sseTranslating
  xlate : s.conn.sseXlate = r.conn.sseXlate
  ended : s.conn.streamEnded = r.conn.streamEnded
  closing : s.conn.closeAfterResp = r.conn.closeAfterResp
  tail : s.conn.streamTail = r.conn.streamTail
  terminated : s.conn.streamTerminated = true ↔
    r.conn.streamEnded = true ∧ r.conn.closeAfterResp = false

theorem flush_spec {r : StreamRelay} {pieces : List Bytes} {raw said : Bytes}
    (written : Written r pieces raw said)
    (cut : raw ≠ [] → r.conn.closeAfterResp = true) :
    Flushed r (r.flush note) ∧ ∃ said', Written (r.flush note) pieces raw said' := by
  obtain ⟨staged, clean, silent, comment⟩ := written
  unfold flush
  by_cases ends : r.conn.streamEnded = true ∧ r.conn.streamTerminated = false ∧
      r.conn.closeAfterResp = false
  · obtain ⟨ended, fresh, keeps⟩ := ends
    have noRaw : raw = [] := by
      by_contra some
      have closes := cut some
      rw [keeps] at closes
      cases closes
    obtain ⟨said', adds, is⟩ := r.conn.sinkNote_spec (note r.conn) r.staged
    rw [if_pos ⟨ended, fresh, keeps⟩]
    unfold StreamConn.streamTerminate
    dsimp only
    refine ⟨⟨rfl, rfl, rfl, rfl, rfl, rfl, rfl, rfl, fun _ => ⟨ended, keeps⟩, fun _ => rfl⟩,
      said', ?_, fun _ => ⟨ended, keeps, noRaw⟩, fun no => ?_, is⟩
    · have before : r.staged = pieces.flatMap (framed r.conn.streamChunkedOut) := by
        rw [staged, silent fresh, fresh, noRaw, framed_nil, if_neg Bool.false_ne_true]
        simp only [List.append_nil]
      rw [adds, before, noRaw, List.append_nil]
      dsimp only
      rw [if_pos rfl]
      unfold chunkTerminate ending
      split
      · simp only [List.append_assoc]
      · rw [List.append_nil]
    · cases no
  · rw [if_neg ends]
    refine ⟨⟨rfl, rfl, rfl, rfl, rfl, rfl, rfl, rfl, fun is => ?_, fun is => ?_⟩, said, staged,
      clean, silent, comment⟩
    · exact ⟨(clean is).1, (clean is).2.1⟩
    · by_contra no
      exact ends ⟨is.1, Bool.eq_false_of_not_eq_true no, is.2⟩

/-! ## A step of the relay -/

/-- The stream that a step hands to its half. -/
def entering (r : StreamRelay) (now : Int) : StreamConn :=
  let c := { r.conn with framing := (r.conn.framing.unframe r.rbuf).2.1 }
  if (r.conn.framing.unframe r.rbuf).2.2.2 = [] then c else c.noteGap now

theorem entering_same (r : StreamRelay) (now : Int) : StreamConn.Same r.conn (r.entering now) ∧
    (r.entering now).framing = (r.conn.framing.unframe r.rbuf).2.1 ∧
    (r.entering now).streamEnded = r.conn.streamEnded ∧
    (r.entering now).sseXlate = r.conn.sseXlate ∧
    (r.entering now).streamTail = r.conn.streamTail := by
  unfold entering
  dsimp only
  split <;> exact ⟨⟨rfl, rfl, rfl, rfl⟩, rfl, rfl, rfl, rfl⟩

/-- What a half's answer does to the stream. -/
def concluded (result : StreamStep × StreamConn × Bytes) (rbuf : Bytes) : StreamRelay where
  conn := if result.1 = .corrupt ∨ result.1 = .failed then result.2.1.streamTruncate
    else result.2.1
  rbuf := rbuf
  staged := result.2.2

theorem stepped_broken {r : StreamRelay} {atEof : Bool} {now : Int}
    (broken : (r.conn.framing.unframe r.rbuf).1 = false) :
    r.stepped atEof now =
      { conn := { r.conn with
          framing := (r.conn.framing.unframe r.rbuf).2.1
          streamEnded := true
          closeAfterResp := true }
        rbuf := (r.conn.framing.unframe r.rbuf).2.2.1
        staged := r.staged } := by
  unfold stepped StreamConn.streamStep
  dsimp only
  rw [broken, if_pos rfl]
  rfl

theorem stepped_whole {r : StreamRelay} {atEof : Bool} {now : Int}
    (ok : (r.conn.framing.unframe r.rbuf).1 = true) :
    r.stepped atEof now = concluded
      (if (r.entering now).sseTranslating then
        (r.entering now).translate (r.conn.framing.unframe r.rbuf).2.2.2 r.staged atEof now
      else (r.entering now).forward (r.conn.framing.unframe r.rbuf).2.2.2 r.staged atEof now)
      (r.conn.framing.unframe r.rbuf).2.2.1 := by
  unfold stepped StreamConn.streamStep
  dsimp only
  rw [ok, if_neg Bool.true_eq_false.mp]
  rfl

/-! ## Forwarded streams -/

/-- The last four bytes, in front of which a stream holds zeros. -/
def lastFour (bytes : Bytes) : Bytes :=
  (List.replicate 4 0 ++ bytes).drop bytes.length

theorem keepLast_lastFour (bytes more : Bytes) :
    StreamConn.keepLast (lastFour bytes) more = lastFour (bytes ++ more) := by
  unfold StreamConn.keepLast lastFour
  rw [← List.append_assoc]
  generalize kept : List.replicate 4 (0 : Byte) ++ bytes = front
  have size : front.length = bytes.length + 4 := by
    rw [← kept, List.length_append, List.length_replicate, Nat.add_comm]
  have first : (front.drop bytes.length).drop (min more.length 4) =
      front.drop (bytes ++ more).length := by
    rw [List.drop_drop, List.length_append]
    by_cases short : more.length ≤ 4
    · rw [Nat.min_eq_left short]
    · rw [Nat.min_eq_right (by omega), List.drop_of_length_le (by omega),
        List.drop_of_length_le (by omega)]
  have second : more.length - min more.length 4 = (bytes ++ more).length - front.length := by
    rw [size, List.length_append]
    omega
  rw [List.drop_append, first, second]

/-- What a step of a forwarded stream does. -/
structure Steps (r : StreamRelay) (atEof : Bool) (s : StreamRelay) : Prop where
  framing : s.conn.framing = (r.conn.framing.unframe r.rbuf).2.1
  rbuf : s.rbuf = (r.conn.framing.unframe r.rbuf).2.2.1
  same : s.conn.streamChunkedOut = r.conn.streamChunkedOut ∧
    s.conn.streamTerminated = r.conn.streamTerminated ∧ s.conn.sseTranslating = false
  tail : s.conn.streamTail =
    StreamConn.keepLast r.conn.streamTail (r.conn.framing.adds r.rbuf)
  staged : s.staged = r.staged ++
    framed r.conn.streamChunkedOut (r.conn.framing.adds r.rbuf)
  closing : s.conn.closeAfterResp = true ↔ r.conn.closeAfterResp = true ∨
    (r.conn.framing.unframe r.rbuf).1 = false ∨
      (atEof = true ∧ r.conn.streamEnded = false ∧
        (r.conn.framing.unframe r.rbuf).2.1.streamComplete atEof = false)
  ended : s.conn.closeAfterResp = false → (s.conn.streamEnded = true ↔
    r.conn.streamEnded = true ∨
      (r.conn.framing.unframe r.rbuf).2.1.streamComplete atEof = true)

theorem stepped_spec {r : StreamRelay} (forwards : r.conn.sseTranslating = false)
    (atEof : Bool) (now : Int) : Steps r atEof (r.stepped atEof now) := by
  cases ok : (r.conn.framing.unframe r.rbuf).1 with
  | false =>
      have adds : r.conn.framing.adds r.rbuf = [] := by
        unfold Framing.adds
        rw [ok, if_neg Bool.false_ne_true]
      rw [stepped_broken ok]
      constructor
      case framing => rfl
      case rbuf => rfl
      case same => exact ⟨rfl, rfl, forwards⟩
      case tail => rw [adds, StreamConn.keepLast_nil]
      case staged => rw [adds, framed_nil, List.append_nil]
      case closing => exact ⟨fun _ => Or.inr (Or.inl ok), fun _ => rfl⟩
      case ended => exact fun no => absurd no (Bool.true_eq_false.mp)
  | true =>
      have adds : r.conn.framing.adds r.rbuf = (r.conn.framing.unframe r.rbuf).2.2.2 := by
        unfold Framing.adds
        rw [ok, if_pos rfl]
      obtain ⟨same, framing, ended, -, tail⟩ := r.entering_same now
      have spec := (r.entering now).forward_spec (r.conn.framing.unframe r.rbuf).2.2.2
        r.staged atEof now
      rw [stepped_whole ok, same.translating, forwards, if_neg Bool.false_ne_true]
      generalize (r.entering now).forward (r.conn.framing.unframe r.rbuf).2.2.2 r.staged atEof
        now = result at spec
      have sums : (r.entering now).endedBy atEof = (r.conn.streamEnded ||
          (r.conn.framing.unframe r.rbuf).2.1.streamComplete atEof) := by
        unfold StreamConn.endedBy
        rw [framing, ended]
      obtain ⟨same', framing', ended', tail', step, written⟩ := spec
      rw [framing] at framing'
      rw [sums] at ended' step
      rw [tail, ← adds] at tail'
      rw [same.chunkedOut, ← adds] at written
      have flags := same'.chunkedOut.trans same.chunkedOut
      have terminated := same'.terminated.trans same.terminated
      have closing := same'.closing.trans same.closing
      have translating := (same'.translating.trans same.translating).trans forwards
      unfold concluded
      by_cases cut : result.1 = .corrupt ∨ result.1 = .failed
      · rw [if_pos cut]
        obtain ⟨eof, live⟩ := step.mp cut
        obtain ⟨fresh, incomplete⟩ := Bool.or_eq_false_iff.mp live
        exact ⟨framing', rfl, ⟨flags, terminated, translating⟩, tail', written,
          ⟨fun _ => Or.inr (Or.inr ⟨eof, fresh, incomplete⟩), fun _ => rfl⟩,
          fun no => absurd no Bool.true_eq_false.mp⟩
      · rw [if_neg cut]
        refine ⟨framing', rfl, ⟨flags, terminated, translating⟩, tail', written, ?_, ?_⟩
        · dsimp only
          rw [closing]
          constructor
          · exact Or.inl
          · rintro (closes | broken | ⟨eof, fresh, incomplete⟩)
            · exact closes
            · rw [ok] at broken
              cases broken
            · exact absurd (step.mpr ⟨eof, Bool.or_eq_false_iff.mpr ⟨fresh, incomplete⟩⟩) cut
        · intro _
          dsimp only
          rw [ended', Bool.or_eq_true]

/-- A forwarded stream behind some reads, and where `eof` says so behind the venue's end
of it. -/
structure Forwarded (f : Framing) (chunkedOut : Bool) (reads : List Bytes) (eof : Bool)
    (said : Bytes) (r : StreamRelay) : Prop where
  written : Written r (f.bodies [] reads) [] said
  place : f.after [] reads = (r.conn.framing, r.rbuf)
  flag : r.conn.streamChunkedOut = chunkedOut
  forwards : r.conn.sseTranslating = false
  tail : r.conn.streamTail = lastFour (f.bodies [] reads).flatten
  closing : r.conn.closeAfterResp = true ↔
    f.breaks reads.flatten = true ∨ (eof = true ∧ f.finishes reads.flatten eof = false)
  ended : r.conn.closeAfterResp = false →
    (r.conn.streamEnded = true ↔ reads ≠ [] ∧ f.finishes reads.flatten eof = true)
  terminated : r.conn.streamTerminated = true ↔
    r.conn.streamEnded = true ∧ r.conn.closeAfterResp = false

namespace Forwarded

section Next

variable {f : Framing} {chunkedOut : Bool} {reads : List Bytes} {said : Bytes}
  {r s : StreamRelay} {read : Bytes} {atEof : Bool}
  (forwarded : Forwarded f chunkedOut reads false said r)
  (next : Framing.Next f reads read r.conn.framing (r.rbuf ++ read))
  (steps : Steps { r with rbuf := r.rbuf ++ read } atEof s)
include forwarded

/-- A stream that ended cleanly has all of its body. -/
theorem finished (ended : r.conn.streamEnded = true) (keeps : r.conn.closeAfterResp = false) :
    f.finishes reads.flatten false = true :=
  ((forwarded.ended keeps).mp ended).2

include next

/-- Behind the end of the body a read is whole and adds nothing. -/
theorem still (told : r.conn.streamTerminated = true) :
    (r.conn.framing.unframe (r.rbuf ++ read)).1 = true ∧
      r.conn.framing.adds (r.rbuf ++ read) = [] :=
  next.still (forwarded.finished (forwarded.terminated.mp told).1
    (forwarded.terminated.mp told).2)

include steps

/-- The connection closes where the framing broke or the venue ended too early. -/
theorem closes : s.conn.closeAfterResp = true ↔ f.breaks (reads.flatten ++ read) = true ∨
    (atEof = true ∧ f.finishes (reads.flatten ++ read) atEof = false) := by
  have closing := steps.closing
  dsimp only at closing
  rw [closing, next.broken, next.complete, forwarded.closing]
  constructor
  · rintro ((breaks | no) | breaks | ⟨eof, -, unfinished⟩)
    · exact Or.inl (Framing.breaks_more read breaks)
    · cases no.1
    · exact Or.inl breaks
    · exact Or.inr ⟨eof, unfinished⟩
  · rintro (breaks | ⟨eof, unfinished⟩)
    · exact Or.inr (Or.inl breaks)
    · cases live : r.conn.streamEnded with
      | false => exact Or.inr (Or.inr ⟨eof, rfl, unfinished⟩)
      | true =>
          cases keeps : r.conn.closeAfterResp with
          | true => exact Or.inl (forwarded.closing.mp keeps)
          | false =>
              have finished :=
                Framing.finishes_more read atEof (forwarded.finished live keeps)
              rw [unfinished] at finished
              cases finished

/-- The stream ends where its body is complete. -/
theorem ends (keeps : s.conn.closeAfterResp = false) :
    s.conn.streamEnded = true ↔ f.finishes (reads.flatten ++ read) atEof = true := by
  have ended := steps.ended keeps
  dsimp only at ended
  rw [ended, next.complete]
  have kept : r.conn.closeAfterResp = false := by
    by_contra closes
    have cut := steps.closing.mpr (Or.inl (Bool.eq_true_of_not_eq_false closes))
    rw [keeps] at cut
    cases cut
  constructor
  · rintro (live | finished)
    · exact Framing.finishes_more read atEof (forwarded.finished live kept)
    · exact finished
  · exact Or.inr

/-- A stream that was told to end stays clean. -/
theorem clean (told : r.conn.streamTerminated = true) :
    s.conn.streamEnded = true ∧ s.conn.closeAfterResp = false := by
  obtain ⟨live, keeps⟩ := forwarded.terminated.mp told
  have whole := Framing.finishes_more read atEof (forwarded.finished live keeps)
  have kept : s.conn.closeAfterResp = false := by
    by_contra cut
    rcases steps.closing.mp (Bool.eq_true_of_not_eq_false cut) with closes | breaks | ⟨-, no, -⟩
    · dsimp only at closes
      rw [keeps] at closes
      cases closes
    · dsimp only at breaks
      rw [(forwarded.still next told).1] at breaks
      cases breaks
    · dsimp only at no
      rw [live] at no
      cases no
  exact ⟨(forwarded.ends next steps kept).mpr whole, kept⟩

/-- What a step staged: the pieces so far, and the read's. -/
theorem staged : Written s (f.bodies [] (reads ++ [read])) [] said := by
  have clean := forwarded.clean next steps
  obtain ⟨filled, -, silent, comment⟩ := forwarded.written
  obtain ⟨-, -, ⟨chunkedOut', terminated', -⟩, tail', staged, -, -⟩ := steps
  dsimp only at chunkedOut' terminated' tail' staged
  have bodies := next.flatMap_bodies (framed_nil r.conn.streamChunkedOut)
  constructor
  case staged =>
    rw [staged, filled, chunkedOut', terminated', bodies]
    cases told : r.conn.streamTerminated with
    | true =>
        rw [(forwarded.still next told).2, framed_nil]
        simp only [List.append_nil]
    | false =>
        rw [silent told, framed_nil, if_neg Bool.false_ne_true]
        simp only [List.append_nil]
  case clean =>
    intro told
    rw [terminated'] at told
    exact ⟨(clean told).1, (clean told).2, rfl⟩
  case silent =>
    intro fresh
    rw [terminated'] at fresh
    exact silent fresh
  case comment =>
    intro some
    refine ⟨(comment some).1, fun _ => ?_⟩
    have told : r.conn.streamTerminated = true := by
      by_contra fresh
      exact some (silent (Bool.eq_false_of_not_eq_true fresh))
    rw [tail', (forwarded.still next told).2, StreamConn.keepLast_nil]
    exact (comment some).2 forwarded.forwards

end Next

/-- A step of a forwarded stream, with what it read. -/
theorem step {f : Framing} {chunkedOut : Bool} {reads : List Bytes} {said : Bytes}
    {r : StreamRelay} (forwarded : Forwarded f chunkedOut reads false said r)
    (sound : f.chunkdec.Sound) (read : Bytes) (atEof : Bool) (now : Int) :
    ∃ said', Forwarded f chunkedOut (reads ++ [read]) atEof said'
      (({ r with rbuf := r.rbuf ++ read }.stepped atEof now).flush note) := by
  have next := Framing.next sound forwarded.place read
  have steps := @stepped_spec { r with rbuf := r.rbuf ++ read } forwarded.forwards atEof now
  generalize { r with rbuf := r.rbuf ++ read }.stepped atEof now = s at *
  have written := forwarded.staged next steps
  have closes := forwarded.closes next steps
  have ends := forwarded.ends next steps
  obtain ⟨framing, rbuf, ⟨chunkedOut', -, translating'⟩, tail', -, -, -⟩ := steps
  dsimp only at framing rbuf chunkedOut' tail'
  have place := f.after_concat [] reads read
  rw [forwarded.place] at place
  have whole : (f.bodies [] (reads ++ [read])).flatten =
      (f.bodies [] reads).flatten ++ r.conn.framing.adds (r.rbuf ++ read) := by
    have grows := @Framing.Next.flatMap_bodies _ _ _ _ _ next id rfl
    rw [List.flatMap_id, List.flatMap_id] at grows
    exact grows
  obtain ⟨flushed, said', written'⟩ := flush_spec note written fun some => absurd rfl some
  generalize s.flush note = t at *
  refine ⟨said', written', ?_, ?_, ?_, ?_, ?_, ?_, ?_⟩
  · rw [place, flushed.framing, flushed.rbuf, framing, rbuf]
  · rw [flushed.chunkedOut, chunkedOut', forwarded.flag]
  · rw [flushed.translating, translating']
  · rw [flushed.tail, tail', forwarded.tail, keepLast_lastFour, whole]
  · rw [flushed.closing, List.flatten_append, List.flatten_singleton]
    exact closes
  · rw [flushed.closing, flushed.ended, List.flatten_append, List.flatten_singleton]
    intro keeps
    rw [ends keeps]
    exact ⟨fun finished => ⟨List.concat_ne_nil _ _, finished⟩, fun both => both.2⟩
  · rw [flushed.closing, flushed.ended]
    exact flushed.terminated

end Forwarded

theorem Forwarded.pumpAll {f : Framing} {chunkedOut : Bool} {seen : List Bytes} {said : Bytes}
    {r : StreamRelay} (forwarded : Forwarded f chunkedOut seen false said r)
    (sound : f.chunkdec.Sound) (reads : List (Bytes × Int)) :
    ∃ said', Forwarded f chunkedOut (seen ++ reads.map Prod.fst) false said'
      (r.pumpAll note reads) := by
  induction reads generalizing seen said r with
  | nil =>
      refine ⟨said, ?_⟩
      rw [List.map_nil, List.append_nil]
      exact forwarded
  | cons read reads inductionHypothesis =>
      obtain ⟨said', next⟩ := forwarded.step note sound read.1 false read.2
      obtain ⟨said'', last⟩ := inductionHypothesis next
      refine ⟨said'', ?_⟩
      rw [List.map_cons, ← List.singleton_append, ← List.append_assoc]
      exact last

/-- A stream that begins, before its first read. -/
def begun (q : StreamRequest) (h : Http.ResponseHead) (clock : Int) : StreamRelay where
  conn := StreamConn.beginStream q h clock

/-- The venue's framing as its head says it. -/
def venueFraming (h : Http.ResponseHead) : Framing where
  streamBody := h.body
  streamLeft := h.contentLength

theorem forwarded_begun {q : StreamRequest} (forwards : q.translating = false)
    (h : Http.ResponseHead) (clock : Int) :
    Forwarded (venueFraming h) (q.http11 && q.keepAlive) [] false [] (begun q h clock) where
  written := by
    constructor
    case staged =>
      have silent : (begun q h clock).conn.streamTerminated = false := rfl
      rw [silent, framed_nil, if_neg Bool.false_ne_true]
      rfl
    case clean => exact fun no => absurd no Bool.false_ne_true
    case silent => exact fun _ => rfl
    case comment => exact fun some => absurd rfl some
  place := rfl
  flag := rfl
  forwards := forwards
  tail := rfl
  closing := by
    have whole : (venueFraming h).breaks (([] : List Bytes)).flatten = false := by
      unfold Framing.breaks
      rw [List.flatten_nil, ChunkDecoder.run_nil]
      exact Bool.and_false _
    rw [whole]
    exact ⟨fun no => absurd no Bool.false_ne_true,
      fun no => no.elim (absurd · Bool.false_ne_true) fun both => absurd both.1 Bool.false_ne_true⟩
  ended := fun _ => ⟨fun no => absurd no Bool.false_ne_true, fun both => absurd rfl both.1⟩
  terminated :=
    ⟨fun no => absurd no Bool.false_ne_true, fun both => absurd both.1 Bool.false_ne_true⟩

/-- What the client of a forwarded stream was sent of `seen`, the venue's bytes: `body`
of the venue and what a sink said. -/
structure Delivered (f : Framing) (chunkedOut : Bool) (seen : Bytes) (eof : Bool)
    (body said : Bytes) (s : StreamRelay) : Prop where
  whole : f.breaks seen = false → body = f.bodyOf seen
  front : body <+: f.bodyOf seen
  plain : chunkedOut = false → s.staged = body ++ said
  chunked : chunkedOut = true → f.finishes seen eof = true →
    ∃ e : Encoding, s.staged = e.render ∧ e.payload = body ++ said
  unfinished : chunkedOut = true → f.finishes seen eof = false →
    ∃ chunks : List Chunk, s.staged = chunks.flatMap Chunk.render ∧
      (chunks.flatMap fun c => c.data) = body
  comment : said ≠ [] → f.finishes seen eof = true ∧ IsComment said ∧
    endsBlankLine (lastFour body) = true
  terminated : s.conn.streamTerminated = f.finishes seen eof
  closing : s.conn.closeAfterResp = (f.breaks seen || (eof && !f.finishes seen eof))
  past : s.rbuf = if f.streamBody = .length then seen.drop f.streamLeft else []

/-- What breaks the framing does not reach the end of a body. -/
theorem finishes_unbroken {f : Framing} {bytes : Bytes} {eof : Bool}
    (finished : f.finishes bytes eof = true) : f.breaks bytes = false := by
  unfold Framing.finishes Framing.reaches at finished
  unfold Framing.breaks
  cases kind : f.streamBody with
  | chunked =>
      have done : (f.chunkdec.run bytes).1.st = .done := by
        simpa [kind, ChunkDecoder.isDone] using finished
      simp [ChunkDecoder.failed, done]
  | length => rfl
  | none => rfl
  | untilClose => rfl

theorem Forwarded.delivered {f : Framing} {chunkedOut : Bool} {reads : List Bytes} {eof : Bool}
    {said : Bytes} {s : StreamRelay} (forwarded : Forwarded f chunkedOut reads eof said s)
    (sound : f.chunkdec.Sound) (some : reads ≠ []) :
    Delivered f chunkedOut reads.flatten eof (f.bodies [] reads).flatten said s := by
  obtain ⟨written, place, flag, forwards, tail, closing, ended, terminated⟩ := forwarded
  obtain ⟨staged, clean, silent, comment⟩ := written
  have progress := Framing.progress_after sound reads
  rw [place] at progress
  dsimp only at progress
  have told : s.conn.streamTerminated = f.finishes reads.flatten eof := by
    rw [Bool.eq_iff_iff, terminated]
    constructor
    · rintro ⟨live, keeps⟩
      exact ((ended keeps).mp live).2
    · intro finished
      have keeps : s.conn.closeAfterResp = false := by
        by_contra cut
        rcases closing.mp (Bool.eq_true_of_not_eq_false cut) with breaks | ⟨-, unfinished⟩
        · rw [finishes_unbroken finished] at breaks
          cases breaks
        · rw [finished] at unfinished
          cases unfinished
      exact ⟨(ended keeps).mpr ⟨some, finished⟩, keeps⟩
  rw [flag, told, List.append_nil] at staged
  rw [told] at silent
  constructor
  case whole => exact progress.whole
  case front => exact progress.front
  case plain =>
    intro plain
    rw [staged, plain, flatMap_framed_false, framed_false]
    unfold ending
    rw [if_neg Bool.false_ne_true, ite_self, List.append_nil]
  case chunked =>
    intro chunked finished
    refine ⟨Encoding.ofChunks (chunksOf (f.bodies [] reads ++ [said])), ?_, ?_⟩
    · rw [staged, chunked, finished, if_pos rfl, Encoding.render_ofChunks, ← flatMap_framed,
        List.flatMap_append, List.flatMap_singleton, List.append_assoc]
      rfl
    · rw [Encoding.payload_ofChunks, chunksOf_data, List.flatten_append, List.flatten_singleton]
  case unfinished =>
    intro chunked unfinished
    refine ⟨chunksOf (f.bodies [] reads), ?_, chunksOf_data _⟩
    rw [staged, chunked, unfinished, silent unfinished, framed_nil, if_neg Bool.false_ne_true,
      flatMap_framed, List.append_nil, List.append_nil]
  case comment =>
    intro some
    have finished : f.finishes reads.flatten eof = true := by
      by_contra unfinished
      exact some (silent (Bool.eq_false_of_not_eq_true unfinished))
    rw [← tail]
    exact ⟨finished, (comment some).1, (comment some).2 forwards⟩
  case terminated => exact told
  case closing =>
    rw [Bool.eq_iff_iff, closing, Bool.or_eq_true, Bool.and_eq_true, Bool.not_eq_true']
  case past => exact progress.left

/-- A forwarded stream, whatever its reads: its client is sent the venue's body, and
where the client reads chunks an encoding of it that ends exactly where the body did. -/
theorem stream_delivers (q : StreamRequest) (h : Http.ResponseHead) (clock : Int)
    (first : Bytes × Int) (rest : List (Bytes × Int)) (eof : Option Int)
    (forwards : q.translating = false) :
    ∃ body said,
      Delivered (venueFraming h) (q.http11 && q.keepAlive)
        ((first :: rest).map Prod.fst).flatten eof.isSome body said
        ((begun q h clock).stream note (first :: rest) eof) := by
  have sound : (venueFraming h).chunkdec.Sound := ChunkDecoder.sound_fresh
  obtain ⟨said, pumped⟩ :=
    (forwarded_begun forwards h clock).pumpAll note sound (first :: rest)
  rw [List.nil_append] at pumped
  cases eof with
  | none =>
      exact ⟨_, said, pumped.delivered sound (List.cons_ne_nil _ _)⟩
  | some now =>
      obtain ⟨said', last⟩ := pumped.step note sound [] true now
      have delivered := last.delivered sound (List.concat_ne_nil _ _)
      rw [List.flatten_append, List.flatten_singleton, List.append_nil] at delivered
      simp only [List.append_nil] at delivered
      exact ⟨_, said', delivered⟩

/-- Two reads that cut the venue's chunk, to a client that reads chunks. -/
theorem stream_delivers_chunked :
    ∃ body said,
      Delivered (venueFraming { body := .chunked }) true
        (ascii "3\r\nab" ++ (ascii "c\r\n0\r\n\r\n" ++ [])) false body said
        ((begun {} { body := .chunked } 0).stream (fun _ => ascii "v1")
          [(ascii "3\r\nab", 1), (ascii "c\r\n0\r\n\r\n", 2)] none) :=
  stream_delivers (fun _ => ascii "v1") {} { body := .chunked } 0 (ascii "3\r\nab", 1)
    [(ascii "c\r\n0\r\n\r\n", 2)] none rfl

example :
    ((begun {} { body := .chunked } 0).stream (fun _ => ascii "v1")
        [(ascii "3\r\nab", 1), (ascii "\n\r\n0\r\n\r\n", 2)] none).staged =
      ascii "2\r\nab\r\n1\r\n\n\r\n0\r\n\r\n" := by
  decide +kernel

end StreamRelay

end Gateway
end Llmbridge
