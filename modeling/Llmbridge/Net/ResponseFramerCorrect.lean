import Llmbridge.Net.ChunkSteps
import Llmbridge.Net.ParseResponse

/-!
# Reading a response

A response read as it arrives is the response read at once: what the framer keeps
between reads is what the bytes read so far determine.
-/

namespace Llmbridge
namespace Http

open Rfc8259 (Byte Bytes substr ascii)
open Http1 (crlf find)

/-! ## Heads -/

theorem parseResponseHead_append
    {buf : Bytes} {n : Nat} (found : find (crlf ++ crlf) buf = some n) (out : ResponseHead)
    (headRequest : Bool) (more : Bytes) :
    parseResponseHead (buf ++ more) out headRequest = parseResponseHead buf out headRequest := by
  have fits := Http1.find_le found (by decide)
  have same : (buf ++ more).take n = buf.take n :=
    List.take_append_of_le_length (by omega)
  unfold parseResponseHead
  rw [found, Http1.find_append found (by decide) more]
  dsimp only
  rw [same]

/-- Where a head is not complete, nothing is kept of it. -/
theorem parseResponseHead_needMore
    {buf : Bytes} {headRequest : Bool}
    (more : (parseResponseHead buf {} headRequest).1 = .needMore) :
    (parseResponseHead buf {} headRequest).2 = {} ∧ find (crlf ++ crlf) buf = none := by
  unfold parseResponseHead at more ⊢
  cases found : find (crlf ++ crlf) buf with
  | none => exact ⟨rfl, rfl⟩
  | some n =>
      rw [found] at more
      dsimp only at more
      repeat' split at more
      all_goals cases more

theorem find_of_complete
    {buf : Bytes} {headRequest : Bool}
    (complete : (parseResponseHead buf {} headRequest).1 = .complete) :
    ∃ n, find (crlf ++ crlf) buf = some n := by
  unfold parseResponseHead at complete
  cases found : find (crlf ++ crlf) buf with
  | none =>
      rw [found] at complete
      dsimp only at complete
      split at complete <;> cases complete
  | some n => exact ⟨n, rfl⟩

/-- A complete head stays what it is. -/
theorem parseResponseHead_complete
    {buf : Bytes} {headRequest : Bool} {h : ResponseHead}
    (complete : parseResponseHead buf {} headRequest = (.complete, h)) (more : Bytes) :
    parseResponseHead (buf ++ more) {} headRequest = (.complete, h) ∧
      h.headerLen ≤ buf.length := by
  obtain ⟨n, found⟩ := find_of_complete (congrArg Prod.fst complete)
  obtain ⟨start, lines, accepted⟩ := accepted_of_complete complete
  exact ⟨(parseResponseHead_append found {} headRequest more).trans complete,
    accepted.buffered⟩

/-- A refused head stays refused. -/
theorem parseResponseHead_error
    {buf : Bytes} {headRequest : Bool}
    (refused : (parseResponseHead buf {} headRequest).1 = .error) (more : Bytes) :
    (parseResponseHead (buf ++ more) {} headRequest).1 = .error := by
  cases found : find (crlf ++ crlf) buf with
  | some n => rw [parseResponseHead_append found, refused]
  | none =>
      have long : kMaxHeaderLen < buf.length := by
        unfold parseResponseHead at refused
        rw [found] at refused
        dsimp only at refused
        by_contra short
        rw [if_neg short] at refused
        cases refused
      unfold parseResponseHead
      cases later : find (crlf ++ crlf) (buf ++ more) with
      | none =>
          dsimp only
          rw [if_pos]
          rw [List.length_append]
          omega
      | some n =>
          have beyond := Http1.find_beyond found later
          have size : (crlf ++ crlf).length = 4 := rfl
          dsimp only
          rw [if_pos]
          omega

/-! ## Bodies -/

/-- The decoder over the bytes behind the head. -/
def decoded (h : ResponseHead) (buf : Bytes) : ChunkDecoder × Bytes :=
  ChunkDecoder.run {} (buf.drop h.headerLen)

/-- What the decoder keeps once it has read the buffer. -/
def caughtUp (h : ResponseHead) (buf : Bytes) : ResponseDecoder :=
  if h.body = .chunked ∧ 200 ≤ h.status then
    { dec := (decoded h buf).1, body := (decoded h buf).2, fed := (decoded h buf).1.consumed }
  else {}

/-- The message of a buffer, by its head. -/
def framed (h : ResponseHead) (buf : Bytes) : ParsedResponse :=
  if h.status < 200 ∨ h.body = .untilClose then { head := h, status := .error }
  else if h.body ≠ .chunked then
    let len := if h.body = .length then h.contentLength else 0
    if buf.length < h.headerLen + len then { head := h }
    else
      { head := h
        body := substr buf h.headerLen len
        totalLen := h.headerLen + len
        status := .complete }
  else if (decoded h buf).1.failed ∨ kMaxBodyLen < (decoded h buf).2.length then
    { head := h, status := .error }
  else if (decoded h buf).1.isDone = false then { head := h }
  else
    { head := h
      body := (decoded h buf).2
      totalLen := h.headerLen + (decoded h buf).1.consumed
      status := .complete }

theorem decoded_append {h : ResponseHead} {buf : Bytes} (inside : h.headerLen ≤ buf.length)
    (more : Bytes) :
    decoded h (buf ++ more) =
      (((decoded h buf).1.run more).1,
        (decoded h buf).2 ++ ((decoded h buf).1.run more).2) := by
  unfold decoded
  rw [List.drop_append_of_le_length inside, ChunkDecoder.run_append]

theorem decoded_front (h : ResponseHead) (buf : Bytes) :
    decoded h (buf.take h.headerLen) = ({}, []) := by
  unfold decoded
  rw [List.drop_take, Nat.sub_self, List.take_zero]
  rfl

theorem caughtUp_front (h : ResponseHead) (buf : Bytes) :
    caughtUp h (buf.take h.headerLen) = {} := by
  unfold caughtUp
  rw [decoded_front]
  split <;> rfl

theorem decoded_sound (h : ResponseHead) (buf : Bytes) : (decoded h buf).1.Sound := by
  obtain ⟨shows, -, sound⟩ :=
    ChunkDecoder.feed_shown {} (buf.drop h.headerLen) ChunkDecoder.sound_fresh
  by_cases stopped : (decoded h buf).1.st = .error
  · apply ChunkDecoder.sound_of_st
    rw [stopped]
    decide
  · have alive : (decoded h buf).1.failed = false := by
      simpa [ChunkDecoder.failed] using stopped
    have same := ChunkDecoder.eq_of_shown shows.symm alive
    rw [show (decoded h buf).1 = _ from same]
    exact sound

/-- One more read, from what the reads before it left. -/
theorem frameResponseBody_caughtUp
    {h : ResponseHead} {buf : Bytes} (inside : h.headerLen ≤ buf.length)
    (live : h.body = .chunked → ¬ (decoded h buf).1.Settled)
    (short : (decoded h buf).2.length ≤ kMaxBodyLen) (more : Bytes) :
    (frameResponseBody (buf ++ more) (caughtUp h buf) { head := h }).1 =
        framed h (buf ++ more) ∧
      ((framed h (buf ++ more)).status = .needMore →
        (frameResponseBody (buf ++ more) (caughtUp h buf) { head := h }).2 =
          caughtUp h (buf ++ more)) := by
  unfold frameResponseBody framed
  dsimp only
  by_cases early : h.status < 200 ∨ h.body = .untilClose
  · rw [if_pos early, if_pos early]
    exact ⟨rfl, fun wants => (by cases wants)⟩
  · rw [if_neg early, if_neg early]
    by_cases plain : h.body ≠ .chunked
    · rw [if_pos plain, if_pos plain]
      have kept : ∀ buf, caughtUp h buf = {} := fun buf => if_neg fun both => plain both.1
      rw [kept, kept]
      generalize (if h.body = .length then h.contentLength else 0) = len
      by_cases part : (buf ++ more).length < h.headerLen + len
      · rw [if_pos part, if_pos part]
        exact ⟨rfl, fun _ => rfl⟩
      · rw [if_neg part, if_neg part]
        exact ⟨rfl, fun _ => rfl⟩
    · rw [if_neg plain, if_neg plain]
      have chunked : h.body = .chunked := not_not.mp plain
      have final : 200 ≤ h.status := Nat.le_of_not_lt fun less => early (Or.inl less)
      have kept : ∀ buf, caughtUp h buf =
          { dec := (decoded h buf).1, body := (decoded h buf).2,
            fed := (decoded h buf).1.consumed } := fun buf => if_pos ⟨chunked, final⟩
      have counted : (decoded h buf).1.consumed = (buf.drop h.headerLen).length := by
        have all := (ChunkDecoder.run_consumed {} (buf.drop h.headerLen)).2 (live chunked)
        rw [show (decoded h buf).1.consumed = _ from all]
        exact Nat.zero_add _
      have undone : (decoded h buf).1.isDone = false := by
        simpa [ChunkDecoder.isDone] using (not_or.mp (live chunked)).1
      have behind : (buf ++ more).drop h.headerLen = buf.drop h.headerLen ++ more :=
        List.drop_append_of_le_length inside
      rw [kept, kept, decoded_append inside]
      dsimp only
      rw [behind, counted, List.length_append]
      by_cases none : more = []
      · subst none
        have alive : (decoded h buf).1.failed = false := by
          simpa [ChunkDecoder.failed] using (not_or.mp (live chunked)).2
        simp only [ChunkDecoder.run_nil, List.append_nil, List.length_nil, Nat.add_zero,
          Nat.lt_irrefl, and_false, if_false, undone, alive, if_true,
          Bool.false_eq_true, false_or]
        rw [if_neg (Nat.not_lt.mpr short), if_neg (Nat.not_lt.mpr short)]
        exact ⟨rfl, fun _ => by rw [counted]⟩
      · have pos := List.length_pos_iff.mpr none
        obtain ⟨shows, outs, -⟩ :=
          ChunkDecoder.feed_shown (decoded h buf).1 more (decoded_sound h buf)
        have more' : (decoded h buf).1.isDone = false ∧
            (buf.drop h.headerLen).length < (buf.drop h.headerLen).length + more.length :=
          ⟨undone, by omega⟩
        rw [if_pos more', List.drop_left, if_pos more']
        have verdict : ((decoded h buf).1.feed more).1.failed =
            ((decoded h buf).1.run more).1.failed := by
          unfold ChunkDecoder.failed
          rw [← ChunkDecoder.shown_st, shows, ChunkDecoder.shown_st]
        generalize (decoded h buf).1.feed more = fed at shows outs verdict ⊢
        obtain ⟨next, out⟩ := fed
        dsimp only at shows outs verdict ⊢
        subst outs
        by_cases alive : next.failed = false
        · have same := ChunkDecoder.eq_of_shown shows alive
          subst same
          rw [if_neg (by simp [alive])]
          by_cases long : kMaxBodyLen <
              ((decoded h buf).2 ++ ((decoded h buf).1.run more).2).length
          · rw [if_pos long, if_pos (Or.inr long)]
            exact ⟨rfl, fun wants => (by cases wants)⟩
          · have accepted : ¬ (((decoded h buf).1.run more).1.failed = true ∨ kMaxBodyLen <
                ((decoded h buf).2 ++ ((decoded h buf).1.run more).2).length) := by
              rw [alive]
              exact not_or.mpr ⟨Bool.false_ne_true, long⟩
            rw [if_neg long, if_neg accepted]
            by_cases undone : ((decoded h buf).1.run more).1.isDone = false
            · rw [if_pos undone, if_pos undone]
              exact ⟨rfl, fun _ => rfl⟩
            · rw [if_neg undone, if_neg undone]
              exact ⟨rfl, fun wants => (by cases wants)⟩
        · have stopped : next.failed = true := Bool.eq_true_of_not_eq_false alive
          rw [if_pos ⟨more', stopped⟩, if_pos (Or.inl (verdict.symm.trans stopped))]
          exact ⟨rfl, fun wants => (by cases wants)⟩

/-- A message read at once. -/
theorem frameResponseBody_fresh {h : ResponseHead} {buf : Bytes}
    (inside : h.headerLen ≤ buf.length) :
    (frameResponseBody buf {} { head := h }).1 = framed h buf ∧
      ((framed h buf).status = .needMore →
        (frameResponseBody buf {} { head := h }).2 = caughtUp h buf) := by
  have short : h.headerLen ≤ (buf.take h.headerLen).length := by
    rw [List.length_take]
    omega
  have one := frameResponseBody_caughtUp short (fun _ => by rw [decoded_front]; decide)
    (by rw [decoded_front]; exact Nat.zero_le _) (buf.drop h.headerLen)
  rwa [List.take_append_drop, caughtUp_front] at one

theorem status_of_framed {h : ResponseHead} {buf : Bytes} (chunked : h.body = .chunked)
    (final : 200 ≤ h.status) (wants : (framed h buf).status = .needMore) :
    ¬ (decoded h buf).1.Settled ∧ (decoded h buf).2.length ≤ kMaxBodyLen := by
  unfold framed at wants
  rw [if_neg (by simp [chunked]; omega), if_neg (by simp [chunked])] at wants
  by_cases refused : (decoded h buf).1.failed = true ∨ kMaxBodyLen < (decoded h buf).2.length
  · rw [if_pos refused] at wants
    cases wants
  · rw [if_neg refused] at wants
    obtain ⟨alive, short⟩ := not_or.mp refused
    by_cases undone : (decoded h buf).1.isDone = false
    · refine ⟨?_, Nat.le_of_not_lt short⟩
      apply not_or.mpr
      constructor
      · simpa [ChunkDecoder.isDone] using undone
      · simpa [ChunkDecoder.failed] using alive
    · rw [if_neg undone] at wants
      cases wants

/-- A read after one that wanted more. -/
theorem frameResponseBody_onward
    {h : ResponseHead} {buf : Bytes} (inside : h.headerLen ≤ buf.length)
    (wants : (framed h buf).status = .needMore) (more : Bytes) :
    (frameResponseBody (buf ++ more) (caughtUp h buf) { head := h }).1 =
        framed h (buf ++ more) ∧
      ((framed h (buf ++ more)).status = .needMore →
        (frameResponseBody (buf ++ more) (caughtUp h buf) { head := h }).2 =
          caughtUp h (buf ++ more)) := by
  by_cases reads : h.body = .chunked ∧ 200 ≤ h.status
  · obtain ⟨live, short⟩ := status_of_framed reads.1 reads.2 wants
    exact frameResponseBody_caughtUp inside (fun _ => live) short more
  · have kept : ∀ buf, caughtUp h buf = {} := fun buf => if_neg reads
    rw [kept, kept]
    have fresh := @frameResponseBody_fresh h (buf ++ more) (by rw [List.length_append]; omega)
    rwa [kept] at fresh

/-- A complete message stays what it is, and a refused one stays refused. -/
theorem framed_append {h : ResponseHead} {buf : Bytes} (inside : h.headerLen ≤ buf.length)
    (more : Bytes) :
    ((framed h buf).status = .complete → framed h (buf ++ more) = framed h buf) ∧
      ((framed h buf).status = .error → (framed h (buf ++ more)).status = .error) := by
  unfold framed
  by_cases early : h.status < 200 ∨ h.body = .untilClose
  · rw [if_pos early, if_pos early]
    exact ⟨fun _ => rfl, fun _ => rfl⟩
  · rw [if_neg early, if_neg early]
    by_cases plain : h.body ≠ .chunked
    · rw [if_pos plain, if_pos plain]
      generalize (if h.body = .length then h.contentLength else 0) = len
      dsimp only
      by_cases part : buf.length < h.headerLen + len
      · rw [if_pos part]
        exact ⟨fun whole => (by cases whole), fun refused => (by cases refused)⟩
      · have same : substr (buf ++ more) h.headerLen len = substr buf h.headerLen len := by
          unfold substr
          rw [List.drop_append_of_le_length inside, List.take_append_of_le_length]
          rw [List.length_drop]
          omega
        rw [if_neg part, if_neg (by rw [List.length_append]; omega), same]
        exact ⟨fun _ => rfl, fun refused => (by cases refused)⟩
    · rw [if_neg plain, if_neg plain, decoded_append inside]
      dsimp only
      generalize decoded h buf = d
      obtain ⟨dec, out⟩ := d
      dsimp only
      by_cases refused : dec.failed = true ∨ kMaxBodyLen < out.length
      · have still : (dec.run more).1.failed = true ∨
            kMaxBodyLen < (out ++ (dec.run more).2).length := by
          rcases refused with failed | long
          · left
            have stopped : dec.st = .error := by simpa [ChunkDecoder.failed] using failed
            rw [ChunkDecoder.run_settled (Or.inr stopped)]
            exact failed
          · right
            rw [List.length_append]
            omega
        rw [if_pos refused, if_pos still]
        exact ⟨fun _ => rfl, fun _ => rfl⟩
      · rw [if_neg refused]
        by_cases undone : dec.isDone = false
        · rw [if_pos undone]
          exact ⟨fun whole => (by cases whole), fun refused => (by cases refused)⟩
        · have ends : dec.st = .done := by simpa [ChunkDecoder.isDone] using undone
          rw [ChunkDecoder.run_settled (Or.inl ends), List.append_nil, if_neg refused]
          exact ⟨fun _ => rfl, fun refused => by rw [if_neg undone] at refused; cases refused⟩

/-- A chunked message that is complete: what its decoder holds. -/
structure Held (h : ResponseHead) (answer : ParsedResponse × ResponseDecoder) : Prop where
  ends : answer.2.dec.isDone = true
  short : answer.2.body.length ≤ kMaxBodyLen
  message : answer.1 =
    { head := h
      body := answer.2.body
      totalLen := h.headerLen + answer.2.dec.consumed
      status := .complete }

theorem held_of_complete
    {h : ResponseHead} {buf : Bytes} {st : ResponseDecoder} (chunked : h.body = .chunked)
    (complete : (frameResponseBody buf st { head := h }).1.status = .complete) :
    200 ≤ h.status ∧ Held h (frameResponseBody buf st { head := h }) := by
  unfold frameResponseBody at complete ⊢
  dsimp only at complete ⊢
  by_cases early : h.status < 200 ∨ h.body = .untilClose
  · rw [if_pos early] at complete
    cases complete
  · refine ⟨Nat.le_of_not_lt fun less => early (Or.inl less), ?_⟩
    have notPlain : ¬ h.body ≠ .chunked := not_not.mpr chunked
    rw [if_neg early, if_neg notPlain] at complete ⊢
    generalize (if st.dec.isDone = false ∧ st.fed < (buf.drop h.headerLen).length then
      st.dec.feed ((buf.drop h.headerLen).drop st.fed) else (st.dec, [])) = fed at complete ⊢
    by_cases refused : (st.dec.isDone = false ∧ st.fed < (buf.drop h.headerLen).length) ∧
        fed.1.failed = true
    · rw [if_pos refused] at complete
      cases complete
    · rw [if_neg refused] at complete ⊢
      generalize (if st.dec.isDone = false ∧ st.fed < (buf.drop h.headerLen).length then
        ({ dec := fed.1, body := st.body ++ fed.2, fed := fed.1.consumed } : ResponseDecoder)
        else { dec := fed.1, body := st.body ++ fed.2, fed := st.fed }) = next at complete ⊢
      by_cases long : kMaxBodyLen < next.body.length
      · rw [if_pos long] at complete
        cases complete
      · rw [if_neg long] at complete ⊢
        by_cases undone : next.dec.isDone = false
        · rw [if_pos undone] at complete
          cases complete
        · rw [if_neg undone]
          exact ⟨Bool.eq_true_of_not_eq_false undone, Nat.le_of_not_lt long, rfl⟩

theorem frameResponseBody_held
    {h : ResponseHead} {answer : ParsedResponse × ResponseDecoder} (chunked : h.body = .chunked)
    (final : 200 ≤ h.status) (held : Held h answer) (buf : Bytes) :
    (frameResponseBody buf answer.2 { head := h }).1 = answer.1 := by
  have early : ¬ (h.status < 200 ∨ h.body = .untilClose) := by
    rw [chunked]
    rintro (less | closes)
    · omega
    · cases closes
  have undone : ¬ answer.2.dec.isDone = false := by
    rw [held.ends]
    decide
  have none : ¬ (answer.2.dec.isDone = false ∧ answer.2.fed < (buf.drop h.headerLen).length) :=
    fun both => undone both.1
  unfold frameResponseBody
  dsimp only
  rw [if_neg early, if_neg (not_not.mpr chunked), if_neg none]
  dsimp only
  rw [if_neg (fun both => none both.1), if_neg none, List.append_nil,
    if_neg (Nat.not_lt.mpr held.short), if_neg undone]
  exact held.message.symm

/-- A message complete in the buffer is the answer for longer buffers too. -/
theorem frameResponseBody_still
    {h : ResponseHead} {buf : Bytes} {st : ResponseDecoder} (inside : h.headerLen ≤ buf.length)
    (complete : (frameResponseBody buf st { head := h }).1.status = .complete) (more : Bytes) :
    (frameResponseBody (buf ++ more) (frameResponseBody buf st { head := h }).2
      { head := h }).1 = (frameResponseBody buf st { head := h }).1 := by
  by_cases chunked : h.body = .chunked
  · obtain ⟨final, held⟩ := held_of_complete chunked complete
    exact frameResponseBody_held chunked final held (buf ++ more)
  · have plain : ∀ (buf : Bytes) (st : ResponseDecoder),
        (frameResponseBody buf st { head := h }).1 = framed h buf := by
      intro buf st
      unfold frameResponseBody framed
      dsimp only
      rw [if_pos (show h.body ≠ .chunked from chunked)]
      split
      · rfl
      · generalize (if h.body = .length then h.contentLength else 0) = len
        split <;> rfl
    rw [plain] at complete
    rw [plain, plain]
    exact (framed_append inside more).1 complete

/-! ## Reads -/

/-- The answer for a whole buffer, by its head. -/
theorem parseResponse_eq (buf : Bytes) (headRequest : Bool) :
    (parseResponse buf {} headRequest).1 =
      (if (parseResponseHead buf {} headRequest).1 = .complete then
        framed (parseResponseHead buf {} headRequest).2 buf
      else
        { head := (parseResponseHead buf {} headRequest).2
          status := (parseResponseHead buf {} headRequest).1 }) := by
  unfold parseResponse
  cases verdict : parseResponseHead buf {} headRequest with
  | mk status h =>
      cases status with
      | needMore => rfl
      | error => rfl
      | complete =>
          obtain ⟨-, inside⟩ := parseResponseHead_complete verdict []
          exact (frameResponseBody_fresh inside).1

namespace ResponseFramer

/-- `head`, then `message` once the head is complete: one read. -/
def read (f : ResponseFramer) (buf : Bytes) (headRequest : Bool) :
    ParsedResponse × ResponseFramer :=
  let (s, f) := f.head buf headRequest
  if s = .complete then f.message buf else ({ status := s }, f)

/-- A read of each buffer, up to the first that is complete or refused. -/
def readAll (f : ResponseFramer) (headRequest : Bool) :
    List Bytes → ParsedResponse × ResponseFramer
  | [] => ({}, f)
  | buf :: rest =>
      let (r, f) := f.read buf headRequest
      if r.status = .needMore then f.readAll headRequest rest else (r, f)

/-- What a framer keeps while it wants more than `buf`. -/
inductive Reached (headRequest : Bool) (buf : Bytes) : ResponseFramer → Prop
  | waiting (more : (parseResponseHead buf {} headRequest).1 = .needMore) :
      Reached headRequest buf {}
  | headed (h : ResponseHead)
      (complete : parseResponseHead buf {} headRequest = (.complete, h))
      (wants : (framed h buf).status = .needMore) :
      Reached headRequest buf { r := { head := h }, dec := caughtUp h buf, haveHead := true }

/-- What a read answers, against the whole buffer read at once. -/
structure Answers (headRequest : Bool) (buf : Bytes) (answer : ParsedResponse × ResponseFramer) :
    Prop where
  status : answer.1.status = (parseResponse buf {} headRequest).1.status
  whole : answer.1.status = .complete → answer.1 = (parseResponse buf {} headRequest).1
  still : answer.1.status = .complete →
    ∀ more, (answer.2.read (buf ++ more) headRequest).1 = answer.1
  onward : answer.1.status = .needMore → Reached headRequest buf answer.2

theorem message_answers
    {headRequest : Bool} {buf : Bytes} {h : ResponseHead} {st : ResponseDecoder}
    (verdict : parseResponseHead buf {} headRequest = (.complete, h))
    (answer : (frameResponseBody buf st { head := h }).1 = framed h buf)
    (kept : (framed h buf).status = .needMore →
      (frameResponseBody buf st { head := h }).2 = caughtUp h buf) :
    Answers headRequest buf
      (message { r := { head := h }, dec := st, haveHead := true } buf) := by
  have once := parseResponse_eq buf headRequest
  rw [verdict, if_pos rfl] at once
  obtain ⟨-, inside⟩ := parseResponseHead_complete verdict []
  unfold ResponseFramer.message
  dsimp only at once ⊢
  constructor
  · exact congrArg ParsedResponse.status (answer.trans once.symm)
  · exact fun _ => answer.trans once.symm
  · intro complete more
    exact frameResponseBody_still inside complete more
  · intro wants
    dsimp only at wants ⊢
    rw [answer] at wants
    rw [kept wants]
    exact Reached.headed h verdict wants

theorem read_answers
    {headRequest : Bool} {buf : Bytes} {f : ResponseFramer} (reached : Reached headRequest buf f)
    (more : Bytes) : Answers headRequest (buf ++ more) (f.read (buf ++ more) headRequest) := by
  have once := parseResponse_eq (buf ++ more) headRequest
  cases reached with
  | waiting unfinished =>
      unfold ResponseFramer.read ResponseFramer.head
      dsimp only
      rw [if_neg Bool.false_ne_true]
      cases verdict : parseResponseHead (buf ++ more) {} headRequest with
      | mk status h =>
          rw [verdict] at once
          dsimp only at once ⊢
          cases status with
          | needMore =>
              have kept := parseResponseHead_needMore (congrArg Prod.fst verdict)
              rw [verdict] at kept
              rw [if_neg (by decide)] at once ⊢
              obtain ⟨rfl, -⟩ := kept
              exact ⟨by rw [once], fun whole => (by cases whole), fun whole => (by cases whole),
                fun _ => Reached.waiting (congrArg Prod.fst verdict)⟩
          | error =>
              rw [if_neg (by decide)] at once ⊢
              exact ⟨by rw [once], fun whole => (by cases whole), fun whole => (by cases whole),
                fun wants => (by cases wants)⟩
          | complete =>
              obtain ⟨-, inside⟩ := parseResponseHead_complete verdict []
              obtain ⟨answer, kept⟩ := frameResponseBody_fresh inside
              rw [if_pos rfl]
              exact message_answers verdict answer kept
  | headed h complete wants =>
      obtain ⟨verdict, inside⟩ := parseResponseHead_complete complete more
      obtain ⟨answer, kept⟩ := frameResponseBody_onward inside wants more
      exact message_answers verdict answer kept

/-! ## Growing buffers -/

/-- An answer that is complete or refused stays what it is. -/
theorem parseResponse_append (buf more : Bytes) (headRequest : Bool) :
    ((parseResponse buf {} headRequest).1.status = .complete →
      (parseResponse (buf ++ more) {} headRequest).1 = (parseResponse buf {} headRequest).1) ∧
    ((parseResponse buf {} headRequest).1.status = .error →
      (parseResponse (buf ++ more) {} headRequest).1.status = .error) := by
  rw [parseResponse_eq, parseResponse_eq]
  cases verdict : parseResponseHead buf {} headRequest with
  | mk status h =>
      cases status with
      | needMore =>
          dsimp only
          rw [if_neg (by decide)]
          exact ⟨fun whole => (by cases whole), fun refused => (by cases refused)⟩
      | error =>
          have refused := parseResponseHead_error (congrArg Prod.fst verdict) more
          dsimp only
          rw [if_neg (by decide), if_neg (by rw [refused]; decide)]
          exact ⟨fun whole => (by cases whole), fun _ => refused⟩
      | complete =>
          obtain ⟨later, inside⟩ := parseResponseHead_complete verdict more
          rw [later, if_pos rfl, if_pos rfl]
          exact framed_append inside more

/-- What reads of growing buffers end with. -/
structure Ends (headRequest : Bool) (last : Bytes) (answer : ParsedResponse × ResponseFramer) :
    Prop where
  status : answer.1.status = (parseResponse last {} headRequest).1.status
  whole : answer.1.status = .complete → answer.1 = (parseResponse last {} headRequest).1
  still : answer.1.status = .complete →
    ∀ more, (answer.2.read (last ++ more) headRequest).1 = answer.1

theorem readAll_ends
    {headRequest : Bool} {buf last : Bytes} {f : ResponseFramer} {buffers : List Bytes}
    (reached : Reached headRequest buf f) (grow : (buf :: buffers).Pairwise (· <+: ·))
    (ends : buffers.getLast? = some last) :
    Ends headRequest last (f.readAll headRequest buffers) := by
  induction buffers generalizing buf f with
  | nil => cases ends
  | cons next buffers inductionHypothesis =>
      obtain ⟨below, onward⟩ := List.pairwise_cons.mp grow
      obtain ⟨more, rfl⟩ := below next List.mem_cons_self
      have answers := read_answers reached more
      have behind : ∃ rest, last = buf ++ more ++ rest := by
        cases buffers with
        | nil =>
            rw [List.getLast?_singleton, Option.some.injEq] at ends
            exact ⟨[], by rw [ends, List.append_nil]⟩
        | cons b buffers =>
            rw [List.getLast?_cons_cons] at ends
            have longer := (List.pairwise_cons.mp onward).1 last (List.mem_of_getLast? ends)
            obtain ⟨rest, same⟩ := longer
            exact ⟨rest, same.symm⟩
      unfold readAll
      dsimp only
      by_cases wants : (f.read (buf ++ more) headRequest).1.status = .needMore
      · rw [if_pos wants]
        cases buffers with
        | nil =>
            rw [List.getLast?_singleton, Option.some.injEq] at ends
            subst ends
            have missing : (parseResponse (buf ++ more) {} headRequest).1.status = .needMore :=
              answers.status.symm.trans wants
            exact ⟨missing.symm, fun whole => (by cases whole), fun whole => (by cases whole)⟩
        | cons b buffers =>
            rw [List.getLast?_cons_cons] at ends
            exact inductionHypothesis (answers.onward wants) onward ends
      · rw [if_neg wants]
        obtain ⟨rest, rfl⟩ := behind
        obtain ⟨same, refused⟩ := parseResponse_append (buf ++ more) rest headRequest
        cases found : (f.read (buf ++ more) headRequest).1.status with
        | needMore => exact absurd found wants
        | error =>
            have wrong := answers.status.symm.trans found
            exact ⟨found.trans (refused wrong).symm,
              fun whole => (by rw [found] at whole; cases whole),
              fun whole => (by rw [found] at whole; cases whole)⟩
        | complete =>
            have right := same (answers.status.symm.trans found)
            refine ⟨?_, fun whole => (answers.whole whole).trans right.symm, ?_⟩
            · rw [right]
              exact answers.status
            · intro whole further
              rw [List.append_assoc]
              exact answers.still whole (rest ++ further)

/-- A response read as it arrives ends with the answer for the whole of it, and stays
with it. -/
theorem readAll_parseResponse
    (headRequest : Bool) (buf : Bytes) (buffers : List Bytes)
    (grow : buffers.Pairwise (· <+: ·)) (ends : buffers.getLast? = some buf) :
    Ends headRequest buf (readAll {} headRequest buffers) ∧
      ∀ more, (parseResponse buf {} headRequest).1.status = .complete →
        (parseResponse (buf ++ more) {} headRequest).1 =
          (parseResponse buf {} headRequest).1 := by
  have start : Reached headRequest [] {} := Reached.waiting rfl
  have growing : ([] :: buffers).Pairwise (· <+: ·) :=
    List.pairwise_cons.mpr ⟨fun b _ => List.nil_prefix, grow⟩
  exact ⟨readAll_ends start growing ends,
    fun more => (parseResponse_append buf more headRequest).1⟩

/-- A chunked reply in two reads. -/
theorem readAll_parseResponse_chunked :
    let front := ascii "HTTP/1.1 200 OK\r\nTransfer-Encoding: chunked\r\n\r\n2\r\n"
    let whole := front ++ ascii "hi\r\n0\r\n\r\n"
    Ends false whole (readAll {} false [front, whole]) ∧
      ∀ more, (parseResponse whole {} false).1.status = .complete →
        (parseResponse (whole ++ more) {} false).1 = (parseResponse whole {} false).1 :=
  readAll_parseResponse false _ _ (by simp) rfl

end ResponseFramer

end Http
end Llmbridge
