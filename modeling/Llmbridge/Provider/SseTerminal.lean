import Llmbridge.Provider.SseWellFormed

/-!
# The finish chunk of a translated stream

Whether anything is said behind the finish chunk, and whether a call that the upstream
cut short is told as a whole one.
-/

namespace Llmbridge

open Rfc8259 (Byte Bytes ascii)
open Json (Value)
open Transition (Guarded)

namespace SseTranslation

/-- Behind a finish chunk, no chunk carries a role, text or a part of a call. -/
def Terminal (frames : List Frame) : Prop :=
  Guarded (fun front x => x.isRole = true ∨ x.speaks = true → front.any Frame.isFinish = false)
    frames

/-- The upstream says that the message is complete. -/
def Vouches (data : Bytes) : Prop :=
  ∃ v, eventOf data = some v ∧
    ((v.strOr (ascii "type")).bytes = ascii "message_stop" ∨
      (v.strOr (ascii "type")).bytes = ascii "message_delta" ∧ (stopReason v).isEmpty = false)

/-- The data open a call. -/
def OpensCall (t : SseTranslation) (data : Bytes) : Prop :=
  (t.tell data).2.any (fun f => f.opens.isSome) = true

/-- Behind each call opened, the upstream says that the message is complete. -/
def CallsVouched (t : SseTranslation) (found : List Bytes) : Prop :=
  ∀ front data back, found = front ++ data :: back → (t.tellAll front).1.settled = false →
    (t.tellAll front).1.OpensCall data → ∃ next ∈ back, Vouches next

/-- A finish reason was written when it was stated. -/
def Reported (t : SseTranslation) : Prop :=
  t.finish.isSome = true → t.finishEmitted = true

/-- A call is open, and nothing says that it is whole. -/
structure Pending (t : SseTranslation) : Prop where
  toolOpen : t.toolOpen = true
  unstated : t.finish = none
  live : t.done = false

variable {t : SseTranslation}

/-! ## Events that state no finish reason -/

/-- The flags that the end of the stream turns on are the same. -/
structure Keeps (t u : SseTranslation) : Prop where
  toolOpen : u.toolOpen = t.toolOpen
  finish : u.finish = t.finish
  done : u.done = t.done
  finishEmitted : u.finishEmitted = t.finishEmitted

/-- A stream keeps its calls where nothing is told. -/
theorem Keeps.refl (t : SseTranslation) : Keeps t t :=
  ⟨rfl, rfl, rfl, rfl⟩

/-- And over one step after the other. -/
theorem Keeps.trans {u w : SseTranslation} (first : Keeps t u) (second : Keeps u w) :
    Keeps t w where
  toolOpen := second.toolOpen.trans first.toolOpen
  finish := second.finish.trans first.finish
  done := second.done.trans first.done
  finishEmitted := second.finishEmitted.trans first.finishEmitted

/-- A pending call stays pending. -/
theorem Keeps.pending {u : SseTranslation} (keeps : Keeps t u) (pending : t.Pending) :
    u.Pending where
  toolOpen := keeps.toolOpen.trans pending.toolOpen
  unstated := keeps.finish.trans pending.unstated
  live := keeps.done.trans pending.live

/-- A reported end stays reported. -/
theorem Keeps.reported {u : SseTranslation} (keeps : Keeps t u) (reported : t.Reported) :
    u.Reported := by
  unfold Reported at reported ⊢
  rw [keeps.finish, keeps.finishEmitted]
  exact reported

/-- The time stamp keeps the calls. -/
theorem stamped_keeps (t : SseTranslation) : Keeps t t.stamped :=
  ⟨rfl, rfl, rfl, rfl⟩

/-- So does the role. -/
theorem spoken_keeps (t : SseTranslation) : Keeps t t.spoken := by
  unfold spoken
  split
  · exact Keeps.refl t
  · exact ⟨rfl, rfl, rfl, rfl⟩

/-- So does the begin of a message. -/
theorem begun_keeps (t : SseTranslation) (v : Value) : Keeps t (t.begun v) := by
  unfold begun
  cases v.find (ascii "message") with
  | none => exact Keeps.refl t
  | some m =>
      dsimp only
      by_cases overlong : Overlong m
      · rw [startMessage_overlong t overlong]
        exact ⟨rfl, rfl, rfl, rfl⟩
      · obtain ⟨id, counts, -, same⟩ := startMessage_eq t overlong
        rw [same]
        exact ⟨rfl, rfl, rfl, rfl⟩

/-- So does `message_start`. -/
theorem tellStart_keeps (t : SseTranslation) (v : Value) : Keeps t (t.tellStart v).1 := by
  unfold tellStart
  split
  · exact begun_keeps t v
  · exact (begun_keeps t v).trans ((stamped_keeps _).trans (spoken_keeps _))

/-- So does a fragment of arguments. -/
theorem tellArguments_keeps (t : SseTranslation) (ord : Nat) (frag : Bytes) :
    Keeps t (t.tellArguments ord frag).1 := by
  unfold tellArguments
  split
  · exact Keeps.refl t
  · exact stamped_keeps t

/-- So does a delta. -/
theorem tellDelta_keeps (t : SseTranslation) (v : Value) : Keeps t (t.tellDelta v).1 := by
  unfold tellDelta
  cases v.find (ascii "delta") with
  | none => exact Keeps.refl t
  | some d =>
      dsimp only
      split
      · cases t.toolOrdinalFor (parseBlockIndex v) with
        | none => exact Keeps.refl t
        | some ord => exact tellArguments_keeps t ord _
      split
      · have keeps := spoken_keeps t
        exact ⟨keeps.toolOpen, keeps.finish, keeps.done, keeps.finishEmitted⟩
      · exact Keeps.refl t

/-- So do the counts. -/
theorem mergeUsage_keeps (t : SseTranslation) (v : Value) : Keeps t (t.mergeUsage v) := by
  rw [mergeUsage_eq]
  exact ⟨rfl, rfl, rfl, rfl⟩

/-- A message that states nothing, with nothing stated before. -/
theorem tellMessage_keeps {v : Value} (empty : (stopReason v).isEmpty = true)
    (unstated : t.finish = none) : Keeps t (t.tellMessage v).1 := by
  have same : t.stop (stopReason v) = t := if_pos empty
  have merged := mergeUsage_keeps t v
  unfold tellMessage
  rw [same]
  split
  · exact Keeps.refl t
  · dsimp only
    rw [merged.finish, unstated, if_neg (by simp)]
    exact merged

/-- Events without a call. -/
theorem roleFrames_opens (t : SseTranslation) :
    t.roleFrames.any (fun f => f.opens.isSome) = false := by
  unfold roleFrames
  split
  · rfl
  · rfl

/-- `message_start` opens no call. -/
theorem tellStart_opens (t : SseTranslation) (v : Value) :
    (t.tellStart v).2.any (fun f => f.opens.isSome) = false := by
  unfold tellStart
  split
  · rfl
  · exact roleFrames_opens _

/-- Nor does a delta. -/
theorem tellDelta_opens (t : SseTranslation) (v : Value) :
    (t.tellDelta v).2.any (fun f => f.opens.isSome) = false := by
  unfold tellDelta
  cases v.find (ascii "delta") with
  | none => rfl
  | some d =>
      dsimp only
      split
      · cases t.toolOrdinalFor (parseBlockIndex v) with
        | none => rfl
        | some ord =>
            dsimp only [tellArguments]
            split
            · rfl
            · rfl
      split
      · dsimp only [tellText]
        rw [List.any_append, roleFrames_opens]
        rfl
      · rfl

/-- Nor does the finish reason. -/
theorem finishFrames_opens (t : SseTranslation) (finish : Option Bytes) :
    (t.finishFrames finish).any (fun f => f.opens.isSome) = false := by
  unfold finishFrames
  split
  · rfl
  · rfl

/-- Nor does `message_delta`. -/
theorem tellMessage_opens (t : SseTranslation) (v : Value) :
    (t.tellMessage v).2.any (fun f => f.opens.isSome) = false := by
  unfold tellMessage
  split
  · rfl
  · dsimp only
    split
    · exact finishFrames_opens _ _
    · rfl

/-- Nor does closing. -/
theorem tellClose_opens (t : SseTranslation) (finish : Option Bytes) :
    (t.tellClose finish).2.any (fun f => f.opens.isSome) = false := by
  unfold tellClose doneFrames usageFrames
  dsimp only
  rw [List.any_append, finishFrames_opens]
  split
  · rfl
  · split
    · rfl
    · rfl

/-! ## The end -/

/-- The end changes nothing of the finish reason. -/
theorem ended_finishEmitted (t : SseTranslation) :
    t.ended.finishEmitted = t.finishEmitted := by
  unfold ended counted
  split
  · rfl
  · dsimp only
    split
    · rfl
    · rfl

/-- A closed stream has reported its end. -/
theorem tellClose_reported (t : SseTranslation) (finish : Option Bytes) :
    (t.tellClose finish).1.Reported :=
  fun _ => (ended_finishEmitted t.finished).trans (finished_finishEmitted t)

/-- A finish reason is written with the event that states it. -/
theorem Reported.tellMessage (reported : t.Reported) (alive : t.failed = false) (v : Value) :
    (t.tellMessage v).1.Reported := by
  have refused : (t.stop (stopReason v)).failed = true → (t.stop (stopReason v)).Reported := by
    unfold SseTranslation.stop
    split
    · exact fun _ => reported
    split
    · exact fun _ => reported
    · intro failed
      exact absurd (alive.symm.trans failed) Bool.false_ne_true
  unfold SseTranslation.tellMessage
  split
  · rename_i failed
    exact refused failed
  · dsimp only
    split
    · exact fun _ => finished_finishEmitted _
    · rename_i unstated
      exact fun stated => absurd stated unstated

/-! ## Calls -/

/-- A call that is opened stays open, with nothing stated. -/
theorem tellCall_keeps (t : SseTranslation) (idx : Nat) (id name : Bytes) :
    (t.tellCall idx id name).1.toolOpen = true ∧ (t.tellCall idx id name).1.finish = t.finish ∧
      (t.tellCall idx id name).1.done = t.done ∧
      (t.tellCall idx id name).1.finishEmitted = t.finishEmitted := by
  have keeps := spoken_keeps (t.openBlock idx)
  exact ⟨keeps.toolOpen, keeps.finish, keeps.done, keeps.finishEmitted⟩

/-- A block leaves a reported end reported, or makes a call pending. -/
theorem Reported.tellBlock (reported : t.Reported) (v : Value) : (t.tellBlock v).1.Reported := by
  unfold SseTranslation.tellBlock
  cases v.find (ascii "content_block") with
  | none => exact reported
  | some b =>
      dsimp only
      split
      · obtain ⟨-, finish, -, finishEmitted⟩ := tellCall_keeps t (parseBlockIndex v).toNat
          (b.strOr (ascii "id")).bytes (b.strOr (ascii "name")).bytes
        unfold Reported at reported ⊢
        rw [finish, finishEmitted]
        exact reported
      · exact reported

/-- A block leaves a pending call pending. -/
theorem Pending.tellBlock (pending : t.Pending) (v : Value) : (t.tellBlock v).1.Pending := by
  unfold SseTranslation.tellBlock
  cases v.find (ascii "content_block") with
  | none => exact pending
  | some b =>
      dsimp only
      split
      · obtain ⟨toolOpen, finish, done, -⟩ := tellCall_keeps t (parseBlockIndex v).toNat
          (b.strOr (ascii "id")).bytes (b.strOr (ascii "name")).bytes
        exact ⟨toolOpen, finish.trans pending.unstated, done.trans pending.live⟩
      · exact pending

/-- The block that opens a call, and what it leaves. -/
theorem tellBlock_opens {v : Value}
    (opens : (t.tellBlock v).2.any (fun f => f.opens.isSome) = true) :
    (∃ b, v.find (ascii "content_block") = some b ∧ t.Callable v b) ∧
      (t.tellBlock v).1.toolOpen = true ∧ (t.tellBlock v).1.finish = t.finish ∧
      (t.tellBlock v).1.done = t.done := by
  unfold SseTranslation.tellBlock at opens ⊢
  cases found : v.find (ascii "content_block") with
  | none =>
      rw [found] at opens
      exact absurd opens Bool.false_ne_true
  | some b =>
      rw [found] at opens
      dsimp only at opens ⊢
      split at opens
      · rename_i callable
        rw [if_pos callable]
        obtain ⟨toolOpen, finish, done, -⟩ := tellCall_keeps t (parseBlockIndex v).toNat
          (b.strOr (ascii "id")).bytes (b.strOr (ascii "name")).bytes
        exact ⟨⟨b, rfl, callable⟩, toolOpen, finish, done⟩
      · exact absurd opens Bool.false_ne_true

/-! ## Events -/

/-- An event of a stream that has reported its end. -/
theorem Reported.tellEvent (reported : t.Reported) (alive : t.failed = false) (v : Value) :
    (t.tellEvent v).1.Reported := by
  unfold SseTranslation.tellEvent
  dsimp only
  split
  · exact reported
  split
  · exact (tellStart_keeps t v).reported reported
  split
  · exact (tellDelta_keeps t v).reported reported
  split
  · exact reported.tellMessage alive v
  split
  · exact tellClose_reported _ _
  split
  · exact reported.tellBlock v
  · exact reported

/-- A payload of one. -/
theorem Reported.tell (reported : t.Reported) (alive : t.failed = false) (data : Bytes) :
    (t.tell data).1.Reported := by
  unfold SseTranslation.tell
  split
  · unfold tellDone
    split
    · exact reported
    · exact tellClose_reported t _
  · cases eventOf data with
    | none => exact reported
    | some v => exact reported.tellEvent alive v

/-- A call that is open stays open until the upstream says that it is whole. -/
theorem Pending.tell (pending : t.Pending) {data : Bytes} (silent : ¬ Vouches data) :
    (t.tell data).1.Pending := by
  unfold SseTranslation.tell
  split
  · unfold tellDone
    rw [if_pos pending.toolOpen]
    exact pending
  · cases event : eventOf data with
    | none => exact pending
    | some v =>
        dsimp only [SseTranslation.tellEvent]
        split
        · exact ⟨pending.toolOpen, pending.unstated, pending.live⟩
        split
        · exact (tellStart_keeps t v).pending pending
        split
        · exact (tellDelta_keeps t v).pending pending
        split
        · rename_i type
          refine (tellMessage_keeps ?_ pending.unstated).pending pending
          cases stated : (stopReason v).isEmpty with
          | true => rfl
          | false => exact absurd ⟨v, event, Or.inr ⟨type, stated⟩⟩ silent
        split
        · rename_i type
          exact absurd ⟨v, event, Or.inl type⟩ silent
        split
        · exact pending.tellBlock v
        · exact pending

/-- Only a block opens a call. -/
theorem tellEvent_opens {v : Value}
    (opens : (t.tellEvent v).2.any (fun f => f.opens.isSome) = true) :
    (v.strOr (ascii "type")).bytes = ascii "content_block_start" ∧
      t.tellEvent v = t.tellBlock v := by
  unfold SseTranslation.tellEvent at opens ⊢
  dsimp only at opens ⊢
  split at opens
  · exact absurd opens Bool.false_ne_true
  split at opens
  · exact absurd ((tellStart_opens t v).symm.trans opens) Bool.false_ne_true
  split at opens
  · exact absurd ((tellDelta_opens t v).symm.trans opens) Bool.false_ne_true
  split at opens
  · exact absurd ((tellMessage_opens t v).symm.trans opens) Bool.false_ne_true
  split at opens
  · exact absurd ((tellClose_opens _ _).symm.trans opens) Bool.false_ne_true
  split at opens
  · rename_i error start delta message stop type
    rw [if_neg error, if_neg start, if_neg delta, if_neg message, if_neg stop, if_pos type]
    exact ⟨type, rfl⟩
  · exact absurd opens Bool.false_ne_true

/-- What opens a call adds to what was written, and leaves the call open. -/
theorem OpensCall.pending {data : Bytes} (opens : t.OpensCall data) :
    (data ≠ ascii "[DONE]" ∧ ∃ v, eventOf data = some v ∧ t.Adds v) ∧
      (t.finish = none → t.done = false → (t.tell data).1.Pending) := by
  unfold OpensCall at opens
  unfold SseTranslation.tell at opens ⊢
  split at opens
  · unfold tellDone at opens
    split at opens
    · exact absurd opens Bool.false_ne_true
    · rw [tellClose_opens] at opens
      exact absurd opens Bool.false_ne_true
  · rename_i other
    rw [if_neg other]
    cases event : eventOf data with
    | none =>
        rw [event] at opens
        exact absurd opens Bool.false_ne_true
    | some v =>
        rw [event] at opens
        dsimp only at opens ⊢
        obtain ⟨type, same⟩ := tellEvent_opens opens
        rw [same] at opens ⊢
        obtain ⟨⟨b, found, callable⟩, toolOpen, finish, done⟩ := tellBlock_opens opens
        exact ⟨⟨other, v, rfl, Or.inr (Or.inr ⟨type, b, found, callable⟩)⟩,
          fun unstated live => ⟨toolOpen, finish.trans unstated, done.trans live⟩⟩

/-! ## Streams -/

/-- Events in turn. -/
theorem tellAll_append (t : SseTranslation) (first second : List Bytes) :
    (t.tellAll (first ++ second)).1 = ((t.tellAll first).1.tellAll second).1 := by
  have appended := congrArg Prod.fst (dispatchAll_append t first second)
  rw [dispatchAll_eq, dispatchAll_eq, dispatchAll_eq] at appended
  exact appended

/-- Any events of one. -/
theorem Reported.tellAll (reported : t.Reported) (found : List Bytes) :
    (t.tellAll found).1.Reported := by
  induction found generalizing t with
  | nil => exact reported
  | cons data rest inductionHypothesis =>
      cases settled : t.settled with
      | true =>
          rw [SseTranslation.tellAll, if_pos settled]
          exact reported
      | false =>
          rw [tellAll_cons settled]
          exact inductionHypothesis (reported.tell (failed_of_live settled) data)

/-- Events that vouch for no call leave it pending. -/
theorem Pending.tellAll (pending : t.Pending) {found : List Bytes}
    (silent : ∀ data ∈ found, ¬ Vouches data) : (t.tellAll found).1.Pending := by
  induction found generalizing t with
  | nil => exact pending
  | cons data rest inductionHypothesis =>
      rw [List.forall_mem_cons] at silent
      cases settled : t.settled with
      | true =>
          rw [SseTranslation.tellAll, if_pos settled]
          exact pending
      | false =>
          rw [tellAll_cons settled]
          exact inductionHypothesis (pending.tell silent.1) silent.2

/-- One more event in front. -/
theorem QuietAll.cons {data : Bytes} {rest : List Bytes} (quiet : t.Quiet data)
    (others : (t.tell data).1.QuietAll rest) : t.QuietAll (data :: rest) := by
  intro front next back split reading
  cases front with
  | nil =>
      obtain rfl : data = next := List.head_eq_of_cons_eq split
      exact quiet
  | cons first front =>
      rw [List.cons_append, List.cons.injEq] at split
      obtain ⟨rfl, split⟩ := split
      cases settled : t.settled with
      | true =>
          rw [SseTranslation.tellAll, if_pos settled] at reading
          exact absurd (reading.symm.trans settled) Bool.false_ne_true
      | false =>
          rw [tellAll_cons settled] at reading ⊢
          exact others front next back split reading

/-- Nothing is quiet. -/
theorem QuietAll.nil : t.QuietAll [] := by
  intro front data back split
  exact absurd split.symm (List.append_ne_nil_of_right_ne_nil front (List.cons_ne_nil data back))

/-- A call that nothing vouched for is still open at the end. -/
theorem QuietAll.vouched {found : List Bytes} (quiet : t.QuietAll found) (reported : t.Reported)
    (complete : ¬ (t.tellAll found).1.Pending) : t.CallsVouched found := by
  intro front data back split reading opens
  by_contra silent
  simp only [not_exists, not_and] at silent
  apply complete
  rw [split, tellAll_append, tellAll_cons reading]
  apply Pending.tellAll _ silent
  have known : (t.tellAll front).1.Reported := reported.tellAll front
  obtain ⟨⟨other, v, event, adds⟩, leaves⟩ := opens.pending
  have unfinished : (t.tellAll front).1.finishEmitted = false :=
    Bool.eq_false_iff.mpr fun finished =>
      quiet front data back split reading finished other v event adds
  apply leaves
  · apply Option.not_isSome_iff_eq_none.mp
    exact fun stated => Bool.false_ne_true (unfinished.symm.trans (known stated))
  · exact (Bool.or_eq_false_iff.mp reading).2

end SseTranslation

namespace AnthropicToOpenAiSse

open SseTranslation

/-- The finish chunk ends what a stream says, and the stream is told as complete only
when the upstream vouched for each call. -/
structure FinishesLast (x : AnthropicToOpenAiSse) (pieces : List Bytes) (closing : Bool) :
    Prop where
  terminal : Terminal (x.told pieces closing)
  vouched : (x.told pieces closing).any Frame.isDone = true ∨
    (x.feedAll pieces).1.finish.1 = true → x.translation.CallsVouched (x.heardAll pieces)

/-- A stream with an open call neither ends nor is ended. -/
theorem feedAll_pending {x : AnthropicToOpenAiSse} {pieces : List Bytes}
    (pending : (x.translation.tellAll (x.heardAll pieces)).1.Pending) :
    ((x.feedAll pieces).1.translation).tellFinish.2 = [] ∧
      (x.feedAll pieces).1.finish.1 = false := by
  have state := (feedAll_behind x pieces).2
  rw [dispatchAll_eq] at state
  have unfinished : (x.feedAll pieces).1.translation.finish = none ∧
      (x.feedAll pieces).1.translation.done = false := by
    rcases state with same | failed
    · rw [same]
      exact ⟨pending.unstated, pending.live⟩
    · rw [failed]
      exact ⟨pending.unstated, pending.live⟩
  have answer : (x.feedAll pieces).1.finish.1 = (x.feedAll pieces).1.translation.finishStream.1 :=
    rfl
  rw [answer, finishStream_eq, tellFinish, unfinished.1, unfinished.2]
  simp

/-- Where nothing is added behind a finish chunk, the finish chunk is the last. -/
theorem finishesLast_of_quiet (createdSecs : Int) (includeUsage : Bool) (clock : Int)
    (pieces : List Bytes) (closing : Bool)
    (quiet : (reset createdSecs includeUsage clock).translation.QuietAll
      ((reset createdSecs includeUsage clock).heardAll pieces)) :
    (reset createdSecs includeUsage clock).streamed pieces closing =
        textOf ((reset createdSecs includeUsage clock).told pieces closing) ∧
      FinishesLast (reset createdSecs includeUsage clock) pieces closing := by
  obtain ⟨last, told⟩ := @told_stream true createdSecs includeUsage clock pieces
    closing fun _ => quiet
  refine ⟨streamed_eq _ pieces closing, ⟨told.guarded.mono fun front x allowed =>
    allowed.final rfl, ?_⟩⟩
  intro complete
  apply quiet.vouched (fun no => absurd no Bool.false_ne_true)
  intro pending
  obtain ⟨silent, unanswered⟩ := feedAll_pending pending
  rcases complete with written | answered
  · have heard := (@told_reset true createdSecs includeUsage clock).tellAll fun _ => quiet
    rw [List.nil_append] at heard
    unfold AnthropicToOpenAiSse.told at written
    rw [silent, ite_self, List.append_nil, heard.done, pending.live] at written
    exact Bool.false_ne_true written
  · exact Bool.false_ne_true (unanswered.symm.trans answered)

/-- A call, and the end of its message. -/
theorem finishesLast_of_quiet_call :
    (reset 7 true 0).streamed
          [ascii "data: \x7b\"type\":\"content_block_start\",\"index\":0,",
            ascii "\"content_block\":\x7b\"type\":\"tool_use\",\"name\":\"f\"\x7d\x7d\n\n",
            ascii "data: \x7b\"type\":\"message_stop\"\x7d\n\n"] true =
        textOf ((reset 7 true 0).told
          [ascii "data: \x7b\"type\":\"content_block_start\",\"index\":0,",
            ascii "\"content_block\":\x7b\"type\":\"tool_use\",\"name\":\"f\"\x7d\x7d\n\n",
            ascii "data: \x7b\"type\":\"message_stop\"\x7d\n\n"] true) ∧
      FinishesLast (reset 7 true 0)
        [ascii "data: \x7b\"type\":\"content_block_start\",\"index\":0,",
          ascii "\"content_block\":\x7b\"type\":\"tool_use\",\"name\":\"f\"\x7d\x7d\n\n",
          ascii "data: \x7b\"type\":\"message_stop\"\x7d\n\n"] true := by
  apply finishesLast_of_quiet
  have heard : (reset 7 true 0).heardAll
      [ascii "data: \x7b\"type\":\"content_block_start\",\"index\":0,",
        ascii "\"content_block\":\x7b\"type\":\"tool_use\",\"name\":\"f\"\x7d\x7d\n\n",
        ascii "data: \x7b\"type\":\"message_stop\"\x7d\n\n"] =
      [ascii ("\x7b\"type\":\"content_block_start\",\"index\":0," ++
          "\"content_block\":\x7b\"type\":\"tool_use\",\"name\":\"f\"\x7d\x7d"),
        ascii "\x7b\"type\":\"message_stop\"\x7d"] := by decide +kernel
  rw [heard]
  have unfinished : ((reset 7 true 0).translation.tell
        (ascii ("\x7b\"type\":\"content_block_start\",\"index\":0," ++
          "\"content_block\":\x7b\"type\":\"tool_use\",\"name\":\"f\"\x7d\x7d"))
      ).1.finishEmitted = false := by decide +kernel
  apply QuietAll.cons (fun no => absurd no Bool.false_ne_true)
  apply QuietAll.cons _ QuietAll.nil
  intro finished
  exact absurd (unfinished.symm.trans finished) Bool.false_ne_true

/-- A stop_reason, and behind it a call that is cut short. -/
def cutCall : List Bytes :=
  [ascii "data: \x7b\"type\":\"message_delta\",\"delta\":",
    ascii "\x7b\"stop_reason\":\"end_turn\"\x7d\x7d\n\n",
    ascii "data: \x7b\"type\":\"content_block_start\",\"index\":0,",
    ascii "\"content_block\":\x7b\"type\":\"tool_use\",\"name\":\"f\"\x7d\x7d\n\n"]

/-- The call is written behind the finish chunk, and the end of the upstream is answered
with `[DONE]`. -/
theorem cutCall_told_whole :
    ¬ Terminal ((reset 7 false 0).told cutCall true) ∧
      ¬ (((reset 7 false 0).told cutCall true).any Frame.isDone = true ∨
          ((reset 7 false 0).feedAll cutCall).1.finish.1 = true →
        (reset 7 false 0).translation.CallsVouched ((reset 7 false 0).heardAll cutCall)) := by
  have told : (reset 7 false 0).told cutCall true =
      [.chunk ⟨ascii "chatcmpl-llmbridge", ascii "7", []⟩ .empty (ascii "stop") false,
        .chunk ⟨ascii "chatcmpl-llmbridge", ascii "7", []⟩ .role [] false,
        .chunk ⟨ascii "chatcmpl-llmbridge", ascii "7", []⟩ (.call 0 [] (ascii "f")) [] false,
        .done] := by decide +kernel
  have heard : (reset 7 false 0).heardAll cutCall =
      [ascii ("\x7b\"type\":\"message_delta\",\"delta\":" ++
          "\x7b\"stop_reason\":\"end_turn\"\x7d\x7d"),
        ascii ("\x7b\"type\":\"content_block_start\",\"index\":0," ++
          "\"content_block\":\x7b\"type\":\"tool_use\",\"name\":\"f\"\x7d\x7d")] := by
    decide +kernel
  rw [told, heard]
  constructor
  · intro terminal
    have unfinished := terminal [_] _ _ rfl (Or.inl rfl)
    exact absurd unfinished (by decide)
  · intro vouched
    obtain ⟨next, member, -⟩ := vouched (Or.inl rfl) [_] _ [] rfl (by decide +kernel)
      (show List.any _ _ = true by decide +kernel)
    exact absurd member List.not_mem_nil

end AnthropicToOpenAiSse
end Llmbridge
