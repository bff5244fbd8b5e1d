import Llmbridge.Provider.SseOutput
import Llmbridge.Provider.SseCorrect

/-!
# The frames that an event writes

Every event of the upstream appends whole frames.  Which ones it appends is read off
the event and the state in front of it.
-/

namespace Llmbridge

open Rfc8259 (Byte Bytes ascii)
open OpenAi (Usage decimal sanitized Envelope.start Envelope.choice Envelope.endChoice
  Envelope.close)

namespace SseTranslation

/-! ## Chunks -/

/-- Who writes the next chunk, and when. -/
def stamp (t : SseTranslation) : Stamp where
  id := t.id
  created :=
    if t.created.isEmpty then decimal (if 0 ≤ t.createdSecs then t.createdSecs else t.clock)
    else t.created
  model := t.model

/-- The next chunk. -/
def chunk (t : SseTranslation) (delta : Delta) (finish : Option Bytes) : Frame :=
  .chunk t.stamp delta (finish.getD []) t.includeUsage

/-- The stamp is set. -/
def stamped (t : SseTranslation) : SseTranslation :=
  { t with created := t.stamp.created }

/-- The creation time is stamped once. -/
theorem ensureCreated_eq (t : SseTranslation) : t.ensureCreated = t.stamped := by
  unfold ensureCreated stamped stamp
  split
  · rfl
  · rfl

/-- A number has a digit. -/
theorem digits_isEmpty (n : Nat) : (OpenAi.digits n).isEmpty = false :=
  List.isEmpty_eq_false_iff.mpr (Rfc8259.decimalDigits_ne_nil n)

/-- So has one with a sign. -/
theorem decimal_isEmpty (v : Int) : (decimal v).isEmpty = false := by
  unfold decimal
  split
  · rfl
  · exact digits_isEmpty v.natAbs

@[simp] theorem stamped_stamp (t : SseTranslation) : t.stamped.stamp = t.stamp := by
  unfold stamped stamp
  split
  · simp [decimal_isEmpty]
  · simp

/-- What `emit_chunk` writes is one frame. -/
theorem emitChunk_eq (t : SseTranslation) (delta : Delta) (finish : Option Bytes) :
    t.emitChunk delta.text finish = (t.stamped, (t.chunk delta finish).text) := by
  have same := stamped_stamp t
  simp only [stamp, Stamp.mk.injEq] at same
  simp only [emitChunk, ensureCreated_eq, emitHead, emitTail, chunk, Frame.text, Frame.payload,
    List.append_assoc]
  rfl

/-- The role's chunk, when none was written. -/
def roleFrames (t : SseTranslation) : List Frame :=
  if t.roleEmitted then [] else [t.chunk .role none]

/-- The finish chunk, when none was written. -/
def finishFrames (t : SseTranslation) (finish : Option Bytes) : List Frame :=
  if t.finishEmitted then [] else [t.chunk .empty finish]

/-- The usage chunk, when it is wanted and none was written. -/
def usageFrames (t : SseTranslation) : List Frame :=
  if !t.includeUsage || t.usageEmitted then [] else [.usage t.stamp t.usage]

/-- The end of the stream. -/
def doneFrames (t : SseTranslation) : List Frame :=
  if t.done then [] else t.usageFrames ++ [.done]

/-- The text that these frames are. -/
def textOf (frames : List Frame) : Bytes :=
  frames.flatMap Frame.text

@[simp] theorem textOf_nil : textOf [] = [] := rfl

@[simp] theorem textOf_singleton (f : Frame) : textOf [f] = f.text :=
  List.flatMap_singleton ..

@[simp] theorem textOf_append (first second : List Frame) :
    textOf (first ++ second) = textOf first ++ textOf second :=
  List.flatMap_append

/-- The state behind the role's chunk. -/
def spoken (t : SseTranslation) : SseTranslation :=
  if t.roleEmitted then t else { t.stamped with roleEmitted := true }

/-- The role is announced with its frames. -/
theorem emitRole_eq (t : SseTranslation) : t.emitRole = (t.spoken, textOf t.roleFrames) := by
  unfold emitRole spoken roleFrames
  split
  · rfl
  · have written := emitChunk_eq t .role none
    rw [Delta.text] at written
    rw [textOf_singleton, written]

/-- The state behind the finish chunk. -/
def finished (t : SseTranslation) : SseTranslation :=
  if t.finishEmitted then t else { t.stamped with finishEmitted := true }

/-- The finish reason is told with its frame, once. -/
theorem emitFinish_eq (t : SseTranslation) (finish : Option Bytes) :
    (if t.finishEmitted then (t, []) else t.emitFinish finish) =
      (t.finished, textOf (t.finishFrames finish)) := by
  unfold emitFinish finished finishFrames
  split
  · rfl
  · have written := emitChunk_eq t .empty finish
    rw [Delta.text] at written
    rw [textOf_singleton, written]

/-- The state behind the usage chunk. -/
def counted (t : SseTranslation) : SseTranslation :=
  if !t.includeUsage || t.usageEmitted then t else { t.stamped with usageEmitted := true }

/-- The usage is told with its frame. -/
theorem emitUsage_eq (t : SseTranslation) : t.emitUsage = (t.counted, textOf t.usageFrames) := by
  unfold emitUsage counted usageFrames
  split
  · rfl
  · rw [ensureCreated_eq, textOf_singleton]
    simp only [Frame.text, Frame.payload, List.append_assoc]
    rfl

/-- The state behind the end of the stream. -/
def ended (t : SseTranslation) : SseTranslation :=
  if t.done then t else { t.counted with done := true }

/-- The end is told with its frame. -/
theorem emitDone_eq (t : SseTranslation) : t.emitDone = (t.ended, textOf t.doneFrames) := by
  unfold emitDone ended doneFrames
  split
  · rfl
  · rw [emitUsage_eq, textOf_append, textOf_singleton]
    rfl

/-! ## Events -/

@[simp] theorem spoken_stamp (t : SseTranslation) : t.spoken.stamp = t.stamp := by
  unfold spoken
  split
  · rfl
  · exact stamped_stamp t

@[simp] theorem spoken_includeUsage (t : SseTranslation) :
    t.spoken.includeUsage = t.includeUsage := by
  unfold spoken
  split
  · rfl
  · rfl

@[simp] theorem spoken_chunk (t : SseTranslation) (delta : Delta) (finish : Option Bytes) :
    t.spoken.chunk delta finish = t.chunk delta finish := by
  simp [chunk]

@[simp] theorem stamped_roleFrames (t : SseTranslation) : t.stamped.roleFrames = t.roleFrames := by
  have same := stamped_stamp t
  unfold roleFrames chunk
  rw [same]
  rfl

@[simp] theorem finished_stamp (t : SseTranslation) : t.finished.stamp = t.stamp := by
  unfold finished
  split
  · rfl
  · exact stamped_stamp t

@[simp] theorem finished_doneFrames (t : SseTranslation) :
    t.finished.doneFrames = t.doneFrames := by
  have same := finished_stamp t
  unfold doneFrames usageFrames
  rw [same]
  unfold finished
  split
  · rfl
  · rfl

/-- A state and the frames that led to it, as a state and their text. -/
def written (result : SseTranslation × List Frame) : SseTranslation × Bytes :=
  (result.1, textOf result.2)

/-- The end: a finish chunk when there was none, and `[DONE]`. -/
def tellClose (t : SseTranslation) (finish : Option Bytes) : SseTranslation × List Frame :=
  (t.finished.ended, t.finishFrames finish ++ t.doneFrames)

/-- Closing tells the role, the finish reason and the usage. -/
theorem close_eq (t : SseTranslation) (finish : Option Bytes) :
    (let (t, finish) := if t.finishEmitted then (t, []) else t.emitFinish finish
      let (t, done) := t.emitDone
      (t, finish ++ done)) = written (t.tellClose finish) := by
  rw [emitFinish_eq]
  dsimp only
  rw [emitDone_eq, finished_doneFrames, written, tellClose, textOf_append]

/-- `[DONE]`. -/
def tellDone (t : SseTranslation) : SseTranslation × List Frame :=
  if t.toolOpen then (t, []) else t.tellClose (some (t.finish.getD t.defaultFinish))

/-- What `[DONE]` makes the stream tell. -/
theorem onDone_eq (t : SseTranslation) : t.onDone = written t.tellDone := by
  unfold onDone tellDone
  split
  · rfl
  · exact close_eq t _

/-- `message_stop`. -/
def tellStop (t : SseTranslation) : SseTranslation × List Frame :=
  ({ t with toolOpen := false } : SseTranslation).tellClose
    (some (t.finish.getD t.defaultFinish))

/-- What `message_stop` makes it tell. -/
theorem onMessageStop_eq (t : SseTranslation) : t.onMessageStop = written t.tellStop :=
  close_eq { t with toolOpen := false } _

/-- The state that `message_start` makes, in front of its chunk. -/
def begun (t : SseTranslation) (v : Json.Value) : SseTranslation :=
  match v.find (ascii "message") with
  | some m => t.startMessage m
  | none => t

/-- `message_start`. -/
def tellStart (t : SseTranslation) (v : Json.Value) : SseTranslation × List Frame :=
  if (t.begun v).failed then (t.begun v, [])
  else ((t.begun v).stamped.spoken, (t.begun v).roleFrames)

/-- What `message_start` makes it tell. -/
theorem onMessageStart_eq (t : SseTranslation) (v : Json.Value) :
    t.onMessageStart v = written (t.tellStart v) := by
  unfold onMessageStart tellStart
  change (if (t.begun v).failed then (t.begun v, []) else (t.begun v).ensureCreated.emitRole) = _
  split
  · rfl
  · rw [ensureCreated_eq, emitRole_eq, stamped_roleFrames]
    rfl

/-- A fragment of a call's arguments, when it is one. -/
def tellArguments (t : SseTranslation) (ord : Nat) (frag : Bytes) :
    SseTranslation × List Frame :=
  if frag.isEmpty then (t, []) else (t.stamped, [t.chunk (.arguments ord (sanitized frag)) none])

/-- What a fragment of arguments makes it tell. -/
theorem emitToolArgs_eq (t : SseTranslation) (ord : Nat) (frag : Bytes) :
    t.emitToolArgs ord frag = written (t.tellArguments ord frag) := by
  unfold emitToolArgs tellArguments
  split
  · rfl
  · rw [written, textOf_singleton]
    exact emitChunk_eq t (.arguments ord (sanitized frag)) none

/-- Text, behind the role. -/
def tellText (t : SseTranslation) (text : Bytes) : SseTranslation × List Frame :=
  ({ t.spoken.stamped with contentStarted := true },
    t.roleFrames ++ [t.chunk (.content (sanitized text)) none])

/-- `content_block_delta`. -/
def tellDelta (t : SseTranslation) (v : Json.Value) : SseTranslation × List Frame :=
  match v.find (ascii "delta") with
  | none => (t, [])
  | some d =>
      if (d.strOr (ascii "type")).bytes = ascii "input_json_delta" then
        match t.toolOrdinalFor (parseBlockIndex v) with
        | some ord => t.tellArguments ord (d.strOr (ascii "partial_json")).bytes
        | none => (t, [])
      else if (d.strOr (ascii "type")).bytes = ascii "text_delta" then
        t.tellText (d.strOr (ascii "text")).bytes
      else (t, [])

/-- What `content_block_delta` makes it tell. -/
theorem onBlockDelta_eq (t : SseTranslation) (v : Json.Value) :
    t.onBlockDelta v = written (t.tellDelta v) := by
  unfold onBlockDelta tellDelta
  cases v.find (ascii "delta") with
  | none => rfl
  | some d =>
      dsimp only
      split
      · cases t.toolOrdinalFor (parseBlockIndex v) with
        | none => rfl
        | some ord => exact emitToolArgs_eq t ord _
      · split
        · have text := emitChunk_eq t.spoken (.content (sanitized (d.strOr (ascii "text")).bytes))
            none
          rw [Delta.text, spoken_chunk] at text
          rw [emitRole_eq]
          dsimp only
          rw [text, written, tellText, textOf_append, textOf_singleton]
        · rfl

/-- `message_delta`. -/
def tellMessage (t : SseTranslation) (v : Json.Value) : SseTranslation × List Frame :=
  if (t.stop (stopReason v)).failed then (t.stop (stopReason v), [])
  else
    let t := (t.stop (stopReason v)).mergeUsage v
    if t.finish.isSome then (t.finished, t.finishFrames t.finish) else (t, [])

/-- What `message_delta` makes it tell. -/
theorem onMessageDelta_eq (t : SseTranslation) (v : Json.Value) :
    t.onMessageDelta v = written (t.tellMessage v) := by
  unfold onMessageDelta tellMessage
  dsimp only
  split
  · rfl
  · generalize (t.stop (stopReason v)).mergeUsage v = u
    have finish := emitFinish_eq u u.finish
    cases stated : u.finish.isSome with
    | false => rfl
    | true =>
        rw [Bool.true_and, if_pos rfl, written, ← finish]
        cases u.finishEmitted with
        | false => rfl
        | true => rfl

/-- A `content_block_start` opens a call for the block. -/
def Callable (t : SseTranslation) (v b : Json.Value) : Prop :=
  (b.strOr (ascii "type")).bytes = ascii "tool_use" ∧
    (b.strOr (ascii "name")).bytes.isEmpty = false ∧ t.nextToolOrd < kMaxBlocks ∧
    0 ≤ parseBlockIndex v ∧ (parseBlockIndex v).toNat < kMaxBlocks

instance (t : SseTranslation) (v b : Json.Value) : Decidable (t.Callable v b) :=
  inferInstanceAs (Decidable (_ ∧ _ ∧ _ ∧ _ ∧ _))

/-- A call, behind the role. -/
def tellCall (t : SseTranslation) (idx : Nat) (id name : Bytes) : SseTranslation × List Frame :=
  ({ (t.openBlock idx).spoken.stamped with contentStarted := true },
    t.roleFrames ++ [t.chunk (.call t.nextToolOrd (sanitized id) (sanitized name)) none])

/-- `content_block_start`. -/
def tellBlock (t : SseTranslation) (v : Json.Value) : SseTranslation × List Frame :=
  match v.find (ascii "content_block") with
  | none => (t, [])
  | some b =>
      if t.Callable v b then
        t.tellCall (parseBlockIndex v).toNat (b.strOr (ascii "id")).bytes
          (b.strOr (ascii "name")).bytes
      else (t, [])

/-- When a block opens a call. -/
theorem callable_iff (t : SseTranslation) (v b : Json.Value) :
    t.Callable v b ↔
      ¬ ((b.strOr (ascii "type")).bytes ≠ ascii "tool_use" ∨
        (b.strOr (ascii "name")).bytes.isEmpty = true ∨ kMaxBlocks ≤ t.nextToolOrd ∨
        parseBlockIndex v < 0 ∨ kMaxBlocks ≤ (parseBlockIndex v).toNat) := by
  unfold Callable
  simp only [not_or, ne_eq, not_not, not_le, not_lt, Bool.not_eq_true]

/-- What `content_block_start` makes it tell. -/
theorem onBlockStart_eq (t : SseTranslation) (v : Json.Value) :
    t.onBlockStart v = written (t.tellBlock v) := by
  unfold onBlockStart tellBlock
  cases v.find (ascii "content_block") with
  | none => rfl
  | some b =>
      dsimp only
      by_cases callable : t.Callable v b
      · rw [if_pos callable, if_neg ((callable_iff t v b).mp callable)]
        have call := emitChunk_eq (t.openBlock (parseBlockIndex v).toNat).spoken
          (.call t.nextToolOrd (sanitized (b.strOr (ascii "id")).bytes)
            (sanitized (b.strOr (ascii "name")).bytes)) none
        rw [Delta.text, spoken_chunk] at call
        rw [emitRole_eq]
        dsimp only
        rw [emitToolOpen, call, written, tellCall, textOf_append, textOf_singleton]
        rfl
      · rw [if_neg callable, if_pos (by rwa [callable_iff, not_not] at callable)]
        rfl

/-- A parsed event. -/
def tellEvent (t : SseTranslation) (v : Json.Value) : SseTranslation × List Frame :=
  let type := (v.strOr (ascii "type")).bytes
  if type = ascii "error" then ({ t with failed := true }, [])
  else if type = ascii "message_start" then t.tellStart v
  else if type = ascii "content_block_delta" then t.tellDelta v
  else if type = ascii "message_delta" then t.tellMessage v
  else if type = ascii "message_stop" then t.tellStop
  else if type = ascii "content_block_start" then t.tellBlock v
  else (t, [])

/-- What any event makes it tell. -/
theorem onEvent_eq (t : SseTranslation) (v : Json.Value) :
    t.onEvent v = written (t.tellEvent v) := by
  unfold onEvent tellEvent
  dsimp only
  split
  · rfl
  split
  · exact onMessageStart_eq t v
  split
  · exact onBlockDelta_eq t v
  split
  · exact onMessageDelta_eq t v
  split
  · exact onMessageStop_eq t
  split
  · exact onBlockStart_eq t v
  · rfl

/-- The event that data hold, when they are one. -/
def eventOf (data : Bytes) : Option Json.Value :=
  let (v, ok) := Json.parse data .unique
  if ok = false ∨ v.type ≠ .object then none else some v

/-- The data of an event. -/
def tell (t : SseTranslation) (data : Bytes) : SseTranslation × List Frame :=
  if data = ascii "[DONE]" then t.tellDone
  else
    match eventOf data with
    | some v => t.tellEvent v
    | none => (t, [])

/-- `dispatch` writes the frames that the event tells. -/
theorem dispatch_eq (t : SseTranslation) (data : Bytes) :
    t.dispatch data = written (t.tell data) := by
  unfold dispatch tell eventOf
  split
  · exact onDone_eq t
  · dsimp only
    split
    · rfl
    · exact onEvent_eq t _

/-! ## Streams -/

/-- Events in turn, up to the first that settles the translation. -/
def tellAll (t : SseTranslation) : List Bytes → SseTranslation × List Frame
  | [] => (t, [])
  | data :: rest =>
      if t.settled then (t, [])
      else (((t.tell data).1.tellAll rest).1,
        (t.tell data).2 ++ ((t.tell data).1.tellAll rest).2)

/-- What events in turn make it tell. -/
theorem dispatchAll_eq (t : SseTranslation) (found : List Bytes) :
    t.dispatchAll found = written (t.tellAll found) := by
  induction found generalizing t with
  | nil => rfl
  | cons data rest inductionHypothesis =>
      rw [dispatchAll, tellAll]
      split
      · rfl
      · rw [dispatch_eq, written]
        dsimp only
        rw [inductionHypothesis, written, written, textOf_append]

/-- The end of the upstream. -/
def tellFinish (t : SseTranslation) : SseTranslation × List Frame :=
  if !t.failed && !t.done && t.finish.isSome then t.tellClose t.finish else (t, [])

/-- `finish` answers for a stream that ended or has a stop_reason. -/
theorem finishStream_eq (t : SseTranslation) :
    t.finishStream = (!t.failed && (t.done || t.finish.isSome), written t.tellFinish) := by
  have closed := close_eq t t.finish
  unfold finishStream tellFinish
  cases t.failed with
  | true => rfl
  | false =>
      cases t.done with
      | true => rfl
      | false =>
          cases t.finish.isSome with
          | false => rfl
          | true => exact congrArg (fun result => (true, result)) closed

end SseTranslation

namespace AnthropicToOpenAiSse

open SseTranslation

/-- The data that the loop of `feed` hands to `dispatch`. -/
def heardLoop : Nat → AnthropicToOpenAiSse → List Bytes
  | 0, _ => []
  | rounds + 1, x =>
      match x.frames.next with
      | (.event data, frames) =>
          data ::
            if (x.translation.dispatch data).1.settled then []
            else heardLoop rounds ⟨frames, (x.translation.dispatch data).1⟩
      | (.fail, _) => []
      | (.more, _) => []

/-- The data that one `feed` hands to `dispatch`. -/
def heard (x : AnthropicToOpenAiSse) (bytes : Bytes) : List Bytes :=
  if x.translation.settled then []
  else heardLoop (bytes.length + 1) ⟨x.frames.feed bytes, x.translation⟩

/-- The data that the pieces hand to `dispatch`. -/
def heardAll (x : AnthropicToOpenAiSse) : List Bytes → List Bytes
  | [] => []
  | piece :: rest => x.heard piece ++ (x.feed piece).2.1.heardAll rest

/-- The translation behind these events, or the same failed by the reader. -/
def Behind (t : SseTranslation) (found : List Bytes) (last : SseTranslation) (out : Bytes) :
    Prop :=
  out = (t.dispatchAll found).2 ∧
    (last = (t.dispatchAll found).1 ∨ last = { (t.dispatchAll found).1 with failed := true })

/-- The loop tells what it has heard. -/
theorem feedLoop_behind (rounds : Nat) (x : AnthropicToOpenAiSse)
    (live : x.translation.settled = false) :
    Behind x.translation (heardLoop rounds x) (feedLoop rounds x).2.1.translation
      (feedLoop rounds x).2.2 := by
  induction rounds generalizing x with
  | zero => exact ⟨rfl, Or.inl rfl⟩
  | succ rounds inductionHypothesis =>
      rw [heardLoop, feedLoop]
      obtain ⟨step, frames⟩ := x.frames.next
      cases step with
      | more => exact ⟨rfl, Or.inl rfl⟩
      | fail => exact ⟨rfl, Or.inr rfl⟩
      | event data =>
          dsimp only
          unfold Behind
          rw [dispatchAll_cons live]
          generalize x.translation.dispatch data = result
          cases failed : result.1.failed with
          | true =>
              have settled : result.1.settled = true := by simp [settled, failed]
              rw [if_pos rfl, if_pos settled, dispatchAll_settled settled, List.append_nil]
              exact ⟨rfl, Or.inl rfl⟩
          | false =>
              rw [if_neg Bool.false_ne_true]
              cases done : result.1.done with
              | true =>
                  have settled : result.1.settled = true := by simp [settled, done]
                  rw [if_pos rfl, if_pos settled, dispatchAll_settled settled, List.append_nil]
                  exact ⟨rfl, Or.inl rfl⟩
              | false =>
                  have live' : result.1.settled = false := by simp [settled, failed, done]
                  rw [if_neg Bool.false_ne_true, if_neg (by simp [live'])]
                  obtain ⟨text, state⟩ := inductionHypothesis ⟨frames, result.1⟩ live'
                  exact ⟨congrArg (result.2 ++ ·) text, state⟩

/-- A read tells what it has heard. -/
theorem feed_behind (x : AnthropicToOpenAiSse) (bytes : Bytes) :
    Behind x.translation (x.heard bytes) (x.feed bytes).2.1.translation (x.feed bytes).2.2 := by
  unfold heard
  cases settled : x.translation.settled with
  | true =>
      rw [feed_settled settled bytes]
      exact ⟨rfl, Or.inl rfl⟩
  | false =>
      obtain ⟨failed, done⟩ := Bool.or_eq_false_iff.mp settled
      rw [if_neg Bool.false_ne_true, feed, failed, done, if_neg Bool.false_ne_true,
        if_neg Bool.false_ne_true]
      exact feedLoop_behind (bytes.length + 1) ⟨x.frames.feed bytes, x.translation⟩ settled

/-- A settled stream hears nothing more. -/
theorem heardAll_settled {x : AnthropicToOpenAiSse} (settled : x.translation.settled = true)
    (pieces : List Bytes) : x.heardAll pieces = [] := by
  induction pieces with
  | nil => rfl
  | cons piece rest inductionHypothesis =>
      rw [heardAll, heard, if_pos settled, feed_settled settled, inductionHypothesis]
      rfl

/-- Pieces in turn are the events that they make. -/
theorem feedAll_behind (x : AnthropicToOpenAiSse) (pieces : List Bytes) :
    Behind x.translation (x.heardAll pieces) (x.feedAll pieces).1.translation
      (x.feedAll pieces).2 := by
  induction pieces generalizing x with
  | nil => exact ⟨rfl, Or.inl rfl⟩
  | cons piece rest inductionHypothesis =>
      have first := feed_behind x piece
      have others := inductionHypothesis (x.feed piece).2.1
      rw [heardAll, feedAll_cons]
      unfold Behind at first others ⊢
      rw [dispatchAll_append]
      obtain ⟨text, same | failed⟩ := first
      · rw [same] at others
        rw [text]
        exact ⟨congrArg ((x.translation.dispatchAll (x.heard piece)).2 ++ ·) others.1,
          others.2⟩
      · have settled : (x.feed piece).2.1.translation.settled = true := by
          rw [failed]
          rfl
        rw [heardAll_settled settled, feedAll_settled settled, text]
        exact ⟨rfl, Or.inr failed⟩

/-- All that a stream's pieces append, and `finish` where it is `closing`. -/
def streamed (x : AnthropicToOpenAiSse) (pieces : List Bytes) (closing : Bool) : Bytes :=
  (x.feedAll pieces).2 ++ if closing then (x.feedAll pieces).1.finish.2.2 else []

/-- The frames of a stream. -/
def told (x : AnthropicToOpenAiSse) (pieces : List Bytes) (closing : Bool) : List Frame :=
  (x.translation.tellAll (x.heardAll pieces)).2 ++
    if closing then (x.feedAll pieces).1.translation.tellFinish.2 else []

/-- A stream is the text of its frames. -/
theorem streamed_eq (x : AnthropicToOpenAiSse) (pieces : List Bytes) (closing : Bool) :
    x.streamed pieces closing = textOf (x.told pieces closing) := by
  have behind := (feedAll_behind x pieces).1
  have closed := congrArg (fun result => result.2.2)
    (x.feedAll pieces).1.translation.finishStream_eq
  rw [dispatchAll_eq] at behind
  unfold streamed told
  rw [textOf_append]
  cases closing with
  | false => exact congrArg (· ++ []) behind
  | true =>
      rw [if_pos rfl, if_pos rfl]
      exact congrArg₂ (· ++ ·) behind closed

end AnthropicToOpenAiSse
end Llmbridge
