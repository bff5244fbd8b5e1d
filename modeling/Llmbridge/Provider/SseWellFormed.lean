import Llmbridge.Provider.SseWritten

/-!
# The translated stream is well formed

Whatever events the upstream sends, in whatever order, each frame is allowed behind
the frames in front of it.  The flags of the translation are what the frames say.
-/

namespace Llmbridge

open Rfc8259 (Byte Bytes ascii IsChars isPlain)
open Json (Value Spanned)
open OpenAi (sanitized)
open Translate (finishName_plain sanitized_chars strOr_chars)
open Transition (Guarded)

namespace SseTranslation

/-! ## What the flags say -/

/-- What some frames wrote. -/
structure Marks where
  role : Bool
  finish : Bool
  usage : Bool
  done : Bool
  calls : Nat

/-- One more frame. -/
def Marks.add (m : Marks) (x : Frame) : Marks where
  role := m.role || x.isRole
  finish := m.finish || x.isFinish
  usage := m.usage || x.isUsage
  done := m.done || x.isDone
  calls := m.calls + (if x.opens.isSome then 1 else 0)

/-- What the frames wrote. -/
def marksOf (frames : List Frame) : Marks where
  role := frames.any Frame.isRole
  finish := frames.any Frame.isFinish
  usage := frames.any Frame.isUsage
  done := frames.any Frame.isDone
  calls := opened frames

/-- What the translation says was written. -/
def marks (t : SseTranslation) : Marks where
  role := t.roleEmitted
  finish := t.finishEmitted
  usage := t.usageEmitted
  done := t.done
  calls := t.nextToolOrd

/-- The marks with one more frame. -/
theorem marksOf_concat (frames : List Frame) (x : Frame) :
    marksOf (frames ++ [x]) = (marksOf frames).add x := by
  have one : (List.filterMap Frame.opens [x]).length = if x.opens.isSome then 1 else 0 := by
    cases opens : x.opens with
    | none => simp [opens]
    | some ord => simp [opens]
  simp only [marksOf, Marks.add, opened, List.any_append, List.any_cons, List.any_nil,
    Bool.or_false, List.filterMap_append, List.length_append, one]

/-- What a translation keeps true of itself. -/
structure Sound (t : SseTranslation) : Prop where
  ended : t.usageEmitted = true → t.done = true
  blocks : ∀ ord, some ord ∈ t.blockToolOrd → ord < t.nextToolOrd
  spoke : 0 < t.nextToolOrd → t.roleEmitted = true
  stamp : t.stamp.Ok
  named : ∀ name ∈ t.finish, name.all isPlain = true ∧ name.isEmpty = false

/-- A translation that wrote these frames. -/
structure Told (strict includeUsage : Bool) (t : SseTranslation) (frames : List Frame) :
    Prop where
  wants : t.includeUsage = includeUsage
  guarded : Guarded (Allowed strict includeUsage) frames
  spans : ∀ f ∈ frames, f.Spans
  marks : marksOf frames = t.marks
  closed : frames.getLast?.any Frame.isUsage = false
  sound : t.Sound

variable {strict includeUsage : Bool} {t u : SseTranslation} {frames : List Frame}

namespace Told

/-- The role was told exactly where it is marked. -/
theorem role (told : Told strict includeUsage t frames) : frames.any Frame.isRole = t.roleEmitted :=
  congrArg Marks.role told.marks

/-- So was the finish reason. -/
theorem finish (told : Told strict includeUsage t frames) :
    frames.any Frame.isFinish = t.finishEmitted :=
  congrArg Marks.finish told.marks

/-- So were the counts. -/
theorem usage (told : Told strict includeUsage t frames) :
    frames.any Frame.isUsage = t.usageEmitted :=
  congrArg Marks.usage told.marks

/-- So was the end. -/
theorem done (told : Told strict includeUsage t frames) : frames.any Frame.isDone = t.done :=
  congrArg Marks.done told.marks

/-- As many calls were opened as are numbered. -/
theorem calls (told : Told strict includeUsage t frames) : opened frames = t.nextToolOrd :=
  congrArg Marks.calls told.marks

/-- Nothing was written. -/
theorem update (told : Told strict includeUsage t frames) (wants : u.includeUsage = t.includeUsage)
    (marks : u.marks = t.marks) (sound : u.Sound) : Told strict includeUsage u frames where
  wants := wants.trans told.wants
  guarded := told.guarded
  spans := told.spans
  marks := told.marks.trans marks.symm
  closed := told.closed
  sound := sound

/-- One more frame, and not the usage chunk. -/
theorem concat {x : Frame} (told : Told strict includeUsage t frames)
    (allowed : Allowed strict includeUsage frames x) (spans : x.Spans)
    (plain : x.isUsage = false) (wants : u.includeUsage = t.includeUsage)
    (marks : u.marks = t.marks.add x) (sound : u.Sound) :
    Told strict includeUsage u (frames ++ [x]) where
  wants := wants.trans told.wants
  guarded := told.guarded.concat allowed
  spans := List.forall_mem_append.mpr ⟨told.spans, List.forall_mem_singleton.mpr spans⟩
  marks := by rw [marksOf_concat, told.marks, marks]
  closed := by
    rw [List.getLast?_concat]
    exact plain
  sound := sound

/-- A chunk that the flags allow. -/
theorem allowed (told : Told strict includeUsage t frames) (live : t.done = false) {delta : Delta}
    {finish : Option Bytes}
    (roleOnce : (t.chunk delta finish).isRole = true → t.roleEmitted = false)
    (spoken : (t.chunk delta finish).speaks = true → t.roleEmitted = true)
    (inOrder : ∀ ord ∈ (t.chunk delta finish).opens, ord = t.nextToolOrd)
    (known : ∀ ord ∈ (t.chunk delta finish).continues, ord < t.nextToolOrd)
    (finishOnce : (t.chunk delta finish).isFinish = true → t.finishEmitted = false)
    (final : strict = true →
      (t.chunk delta finish).isRole = true ∨ (t.chunk delta finish).speaks = true →
        t.finishEmitted = false) :
    Allowed strict includeUsage frames (t.chunk delta finish) where
  live := by rwa [told.done]
  usageLast := by
    rw [told.closed]
    intro impossible
    cases impossible
  roleOnce := by rwa [told.role]
  spoken := by rwa [told.role]
  inOrder := by rwa [told.calls]
  known := by rwa [told.calls]
  finishOnce := by rwa [told.finish]
  usageOnce := by
    intro impossible
    cases impossible
  finished := by
    intro impossible
    cases impossible
  final := by rwa [told.finish]

end Told

/-! ## What each frame keeps -/

/-- A chunk leaves the translation sound. -/
theorem Sound.stamped (sound : t.Sound) : t.stamped.Sound where
  ended := sound.ended
  blocks := sound.blocks
  spoke := sound.spoke
  stamp := by
    rw [stamped_stamp]
    exact sound.stamp
  named := sound.named

/-- A stream stays sound that announces its role. -/
theorem Sound.speaking (sound : t.Sound) :
    ({ t.stamped with roleEmitted := true } : SseTranslation).Sound where
  ended := sound.ended
  blocks := sound.blocks
  spoke := fun _ => rfl
  stamp := sound.stamped.stamp
  named := sound.named

/-- And one that tells its finish reason. -/
theorem Sound.finishing (sound : t.Sound) :
    ({ t.stamped with finishEmitted := true } : SseTranslation).Sound where
  ended := sound.ended
  blocks := sound.blocks
  spoke := sound.spoke
  stamp := sound.stamped.stamp
  named := sound.named

/-- Behind the role it is marked. -/
theorem spoken_roleEmitted (t : SseTranslation) : t.spoken.roleEmitted = true := by
  unfold spoken
  split
  · assumption
  · rfl

/-- So is the finish reason behind it. -/
theorem finished_finishEmitted (t : SseTranslation) : t.finished.finishEmitted = true := by
  unfold finished
  split
  · assumption
  · rfl

/-- What stays as it is behind the role's chunk. -/
theorem spoken_rest (t : SseTranslation) :
    t.spoken.marks = { t.marks with role := true } ∧ t.spoken.done = t.done ∧
      t.spoken.finishEmitted = t.finishEmitted := by
  unfold spoken
  split
  · rename_i said
    exact ⟨by rw [marks, said], rfl, rfl⟩
  · exact ⟨rfl, rfl, rfl⟩

/-- The role changes no call and no finish reason. -/
theorem spoken_calls (t : SseTranslation) :
    t.spoken.blockToolOrd = t.blockToolOrd ∧ t.spoken.finish = t.finish := by
  unfold spoken
  split
  · exact ⟨rfl, rfl⟩
  · exact ⟨rfl, rfl⟩

/-- The finish reason ends nothing. -/
theorem finished_done (t : SseTranslation) : t.finished.done = t.done := by
  unfold finished
  split
  · rfl
  · rfl

namespace Told

/-- No byte is no escape. -/
theorem plain_nil : ([] : Bytes).all isPlain = true := rfl

/-- The role's chunk. -/
theorem spoken (told : Told strict includeUsage t frames) (live : t.done = false)
    (final : strict = true → t.roleEmitted = false → t.finishEmitted = false) :
    Told strict includeUsage t.spoken (frames ++ t.roleFrames) := by
  unfold SseTranslation.spoken roleFrames
  cases silent : t.roleEmitted with
  | true =>
      rw [if_pos rfl, if_pos rfl, List.append_nil]
      exact told
  | false =>
      rw [if_neg Bool.false_ne_true, if_neg Bool.false_ne_true]
      refine told.concat ?_ ?_ rfl rfl ?_ told.sound.speaking
      · exact told.allowed live (fun _ => silent) (fun no => absurd no Bool.false_ne_true)
          (fun _ no => absurd no (Option.not_mem_none _))
          (fun _ no => absurd no (Option.not_mem_none _))
          (fun no => absurd no Bool.false_ne_true) (fun wanted _ => final wanted silent)
      · exact ⟨told.sound.stamp, trivial, plain_nil⟩
      · simp [SseTranslation.marks, Marks.add, Frame.isRole, Frame.isFinish, Frame.isUsage,
          Frame.isDone, Frame.opens, chunk, SseTranslation.stamped]

/-- Text. -/
theorem text (told : Told strict includeUsage t frames) (live : t.done = false)
    (spoken : t.roleEmitted = true) (final : strict = true → t.finishEmitted = false)
    {text : Bytes} (chars : IsChars text) :
    Told strict includeUsage t.stamped (frames ++ [t.chunk (.content text) none]) := by
  refine told.concat ?_ ?_ rfl rfl ?_ told.sound.stamped
  · exact told.allowed live (fun no => absurd no Bool.false_ne_true) (fun _ => spoken)
      (fun _ no => absurd no (Option.not_mem_none _))
      (fun _ no => absurd no (Option.not_mem_none _))
      (fun no => absurd no Bool.false_ne_true) (fun wanted _ => final wanted)
  · exact ⟨told.sound.stamp, chars, plain_nil⟩
  · simp [SseTranslation.marks, Marks.add, Frame.isRole, Frame.isFinish, Frame.isUsage,
      Frame.isDone, Frame.opens, chunk, SseTranslation.stamped]

/-- A fragment of an open call's arguments. -/
theorem arguments (told : Told strict includeUsage t frames) (live : t.done = false) {ord : Nat}
    (known : ord < t.nextToolOrd) (final : strict = true → t.finishEmitted = false)
    {frag : Bytes} (chars : IsChars frag) :
    Told strict includeUsage t.stamped (frames ++ [t.chunk (.arguments ord frag) none]) := by
  refine told.concat ?_ ?_ rfl rfl ?_ told.sound.stamped
  · exact told.allowed live (fun no => absurd no Bool.false_ne_true)
      (fun _ => told.sound.spoke (Nat.zero_lt_of_lt known))
      (fun _ no => absurd no (Option.not_mem_none _))
      (fun _ same => Option.mem_some.mp same ▸ known)
      (fun no => absurd no Bool.false_ne_true) (fun wanted _ => final wanted)
  · exact ⟨told.sound.stamp, chars, plain_nil⟩
  · simp [SseTranslation.marks, Marks.add, Frame.isRole, Frame.isFinish, Frame.isUsage,
      Frame.isDone, Frame.opens, chunk, SseTranslation.stamped]

/-- The first chunk of a call. -/
theorem call (told : Told strict includeUsage t frames) (live : t.done = false)
    (spoken : t.roleEmitted = true) (final : strict = true → t.finishEmitted = false)
    {id name : Bytes} (idChars : IsChars id) (nameChars : IsChars name)
    {ord : Nat} (next : t.nextToolOrd = ord) (wants : u.includeUsage = t.includeUsage)
    (marks : u.marks = { t.marks with calls := ord + 1 }) (sound : u.Sound) :
    Told strict includeUsage u (frames ++ [t.chunk (.call ord id name) none]) := by
  subst next
  refine told.concat ?_ ?_ rfl wants ?_ sound
  · exact told.allowed live (fun no => absurd no Bool.false_ne_true) (fun _ => spoken)
      (fun _ same => (Option.mem_some.mp same).symm)
      (fun _ no => absurd no (Option.not_mem_none _))
      (fun no => absurd no Bool.false_ne_true) (fun wanted _ => final wanted)
  · exact ⟨told.sound.stamp, ⟨idChars, nameChars⟩, plain_nil⟩
  · rw [marks]
    simp [SseTranslation.marks, Marks.add, Frame.isRole, Frame.isFinish, Frame.isUsage,
      Frame.isDone, Frame.opens, chunk]

/-- The finish chunk. -/
theorem finished (told : Told strict includeUsage t frames) (live : t.done = false) {finish : Bytes}
    (plain : finish.all isPlain = true) (stated : finish.isEmpty = false) :
    Told strict includeUsage t.finished (frames ++ t.finishFrames (some finish)) := by
  unfold SseTranslation.finished finishFrames
  cases silent : t.finishEmitted with
  | true =>
      rw [if_pos rfl, if_pos rfl, List.append_nil]
      exact told
  | false =>
      rw [if_neg Bool.false_ne_true, if_neg Bool.false_ne_true]
      refine told.concat ?_ ?_ rfl rfl ?_ told.sound.finishing
      · exact told.allowed live (fun no => absurd no Bool.false_ne_true)
          (fun no => absurd no Bool.false_ne_true)
          (fun _ no => absurd no (Option.not_mem_none _))
          (fun _ no => absurd no (Option.not_mem_none _)) (fun _ => silent) (fun _ _ => silent)
      · exact ⟨told.sound.stamp, trivial, plain⟩
      · simp [SseTranslation.marks, Marks.add, Frame.isRole, Frame.isFinish, Frame.isUsage,
          Frame.isDone, Frame.opens, chunk, SseTranslation.stamped, stated]

/-- The usage chunk and `[DONE]` may be written. -/
theorem allowed_usage (told : Told strict includeUsage t frames) (live : t.done = false)
    (wanted : t.includeUsage = true) (counts : OpenAi.Usage) :
    Allowed strict includeUsage frames (.usage t.stamp counts) where
  live := by rwa [told.done]
  usageLast := by
    rw [told.closed]
    exact fun no => absurd no Bool.false_ne_true
  roleOnce := fun no => absurd no Bool.false_ne_true
  spoken := fun no => absurd no Bool.false_ne_true
  inOrder := fun _ no => absurd no (Option.not_mem_none _)
  known := fun _ no => absurd no (Option.not_mem_none _)
  finishOnce := fun no => absurd no Bool.false_ne_true
  usageOnce := by
    intro _
    rw [told.usage]
    exact ⟨told.wants.symm.trans wanted, Bool.eq_false_iff.mpr fun given =>
      Bool.false_ne_true (live.symm.trans (told.sound.ended given))⟩
  finished := fun no => absurd no Bool.false_ne_true
  final := fun _ no => absurd no (by simp [Frame.isRole, Frame.speaks])

/-- The end may be told behind the finish reason and the counts asked for. -/
theorem allowed_done {front : List Frame}
    (live : front.any Frame.isDone = false) (finished : front.any Frame.isFinish = true)
    (counted : includeUsage = true → front.getLast?.any Frame.isUsage = true) :
    Allowed strict includeUsage front .done where
  live := live
  usageLast := fun _ => rfl
  roleOnce := fun no => absurd no Bool.false_ne_true
  spoken := fun no => absurd no Bool.false_ne_true
  inOrder := fun _ no => absurd no (Option.not_mem_none _)
  known := fun _ no => absurd no (Option.not_mem_none _)
  finishOnce := fun no => absurd no Bool.false_ne_true
  usageOnce := fun no => absurd no Bool.false_ne_true
  finished := fun _ => ⟨finished, counted⟩
  final := fun _ no => absurd no (by simp [Frame.isRole, Frame.speaks])

/-- The usage chunk, when it is wanted, and `[DONE]`. -/
theorem ended (told : Told strict includeUsage t frames) (live : t.done = false)
    (finished : t.finishEmitted = true) :
    Told strict includeUsage t.ended (frames ++ t.doneFrames) := by
  have uncounted : t.usageEmitted = false := Bool.eq_false_iff.mpr fun given =>
    Bool.false_ne_true (live.symm.trans (told.sound.ended given))
  have sound := told.sound
  unfold SseTranslation.ended doneFrames counted usageFrames
  rw [live, uncounted, if_neg Bool.false_ne_true, if_neg Bool.false_ne_true, Bool.or_false]
  cases wanted : t.includeUsage with
  | false =>
      rw [if_pos Bool.not_false, if_pos Bool.not_false, List.nil_append]
      refine told.concat ?_ trivial rfl rfl ?_
        ⟨fun _ => rfl, sound.blocks, sound.spoke, sound.stamp, sound.named⟩
      · apply allowed_done (told.done.trans live) (told.finish.trans finished)
        rw [← told.wants, wanted]
        exact fun no => absurd no Bool.false_ne_true
      · simp [SseTranslation.marks, Marks.add, Frame.isRole, Frame.isFinish, Frame.isUsage,
          Frame.isDone, Frame.opens]
  | true =>
      rw [if_neg (by simp), if_neg (by simp), ← List.append_assoc]
      have usage := told.guarded.concat (told.allowed_usage live wanted t.usage)
      have counts : marksOf (frames ++ [.usage t.stamp t.usage]) =
          { t.marks with usage := true } := by
        rw [marksOf_concat, told.marks]
        simp [SseTranslation.marks, Marks.add, Frame.isRole, Frame.isFinish, Frame.isUsage,
          Frame.isDone, Frame.opens]
      refine ⟨told.wants, ?_, ?_, ?_, ?_, ⟨fun _ => rfl, sound.blocks, sound.spoke,
        sound.stamped.stamp,
        sound.named⟩⟩
      · apply usage.concat
        apply allowed_done
        · exact (congrArg Marks.done counts).trans live
        · exact (congrArg Marks.finish counts).trans finished
        · intro _
          rw [List.getLast?_concat]
          rfl
      · simp only [List.forall_mem_append, List.forall_mem_singleton]
        exact ⟨⟨told.spans, sound.stamp⟩, trivial⟩
      · rw [marksOf_concat, counts]
        simp [SseTranslation.marks, Marks.add, Frame.isRole, Frame.isFinish, Frame.isUsage,
          Frame.isDone, Frame.opens, SseTranslation.stamped]
      · rw [List.getLast?_concat]
        rfl

/-- The end: a finish chunk when there was none, and `[DONE]`. -/
theorem close (told : Told strict includeUsage t frames) (live : t.done = false) {finish : Bytes}
    (plain : finish.all isPlain = true) (stated : finish.isEmpty = false) :
    Told strict includeUsage (t.tellClose (some finish)).1
      (frames ++ (t.tellClose (some finish)).2) := by
  have finished := (told.finished live plain stated).ended ((finished_done t).trans live)
    (finished_finishEmitted t)
  rw [finished_doneFrames, List.append_assoc] at finished
  exact finished

end Told

/-! ## What each event keeps -/

/-- The default finish reason is a plain word. -/
theorem defaultFinish_named (t : SseTranslation) :
    t.defaultFinish.all isPlain = true ∧ t.defaultFinish.isEmpty = false := by
  unfold defaultFinish
  split
  · decide
  · decide

/-- The finish reason at the end of a stream is one. -/
theorem Sound.closing (sound : t.Sound) :
    (t.finish.getD t.defaultFinish).all isPlain = true ∧
      (t.finish.getD t.defaultFinish).isEmpty = false := by
  cases stated : t.finish with
  | none => exact defaultFinish_named t
  | some name => exact sound.named name stated

/-- A usage statement changes the counts alone. -/
theorem mergeUsage_eq (t : SseTranslation) (v : Value) :
    t.mergeUsage v = { t with counts := (t.mergeUsage v).counts } := by
  unfold mergeUsage
  cases v.find (ascii "usage") with
  | none => rfl
  | some u => rfl

/-- The id or the model of a message is too long to echo. -/
def Overlong (m : Value) : Prop :=
  kMaxEcho < (m.strOr (ascii "id")).bytes.length ∨
    kMaxEcho < (m.strOr (ascii "model")).bytes.length

instance (m : Value) : Decidable (Overlong m) :=
  inferInstanceAs (Decidable (_ ∨ _))

/-- The state that an accepted message makes. -/
theorem startMessage_eq (t : SseTranslation) {m : Value} (short : ¬ Overlong m) :
    ∃ id counts, (id = t.id ∨ id = sanitized (m.strOr (ascii "id")).bytes) ∧
      t.startMessage m =
        { t with
          id := id, model := sanitized (m.strOr (ascii "model")).bytes, counts := counts } := by
  unfold Overlong at short
  unfold startMessage
  dsimp only
  rw [if_neg short, mergeUsage_eq]
  split
  · exact ⟨t.id, _, Or.inl rfl, rfl⟩
  · exact ⟨_, _, Or.inr rfl, rfl⟩

/-- A message whose id or model is too long fails the stream. -/
theorem startMessage_overlong (t : SseTranslation) {m : Value} (overlong : Overlong m) :
    t.startMessage m = { t with failed := true } :=
  if_pos overlong

/-- The start of a message leaves the stream sound. -/
theorem Sound.startMessage (sound : t.Sound) {m : Value} (spanned : Spanned m) :
    (t.startMessage m).Sound := by
  by_cases overlong : Overlong m
  · rw [startMessage_overlong t overlong]
    exact ⟨sound.ended, sound.blocks, sound.spoke, sound.stamp, sound.named⟩
  · have echoed : ∀ key, IsChars (sanitized (m.strOr key).bytes) := by
      intro key
      have chars : IsChars (m.strOr key).bytes := strOr_chars spanned key .nil
      rwa [sanitized_chars chars]
    obtain ⟨id, counts, source, same⟩ := startMessage_eq t overlong
    rw [same]
    refine ⟨sound.ended, sound.blocks, sound.spoke, ⟨?_, echoed _, sound.stamp.created⟩,
      sound.named⟩
    rcases source with rfl | rfl
    · exact sound.stamp.id
    · exact echoed _

/-- And its marks as they are. -/
theorem startMessage_rest (t : SseTranslation) (m : Value) :
    (t.startMessage m).marks = t.marks ∧ (t.startMessage m).includeUsage = t.includeUsage := by
  by_cases overlong : Overlong m
  · rw [startMessage_overlong t overlong]
    exact ⟨rfl, rfl⟩
  · obtain ⟨id, counts, -, same⟩ := startMessage_eq t overlong
    rw [same]
    exact ⟨rfl, rfl⟩

/-- A stop reason leaves the stream sound. -/
theorem Sound.stop (sound : t.Sound) (reason : Bytes) : (t.stop reason).Sound := by
  unfold SseTranslation.stop
  split
  · exact sound
  split
  · exact ⟨sound.ended, sound.blocks, sound.spoke, sound.stamp, sound.named⟩
  · exact ⟨sound.ended, sound.blocks, sound.spoke, sound.stamp, fun _ => finishName_plain⟩

/-- And its marks as they are. -/
theorem stop_rest (t : SseTranslation) (reason : Bytes) :
    (t.stop reason).marks = t.marks ∧ (t.stop reason).includeUsage = t.includeUsage := by
  unfold SseTranslation.stop
  split
  · exact ⟨rfl, rfl⟩
  split
  · exact ⟨rfl, rfl⟩
  · exact ⟨rfl, rfl⟩

/-- A new call takes the next ordinal. -/
theorem openBlock_blocks (sound : t.Sound) (idx : Nat) :
    ∀ ord, some ord ∈ (t.openBlock idx).blockToolOrd → ord < t.nextToolOrd + 1 := by
  intro ord member
  unfold openBlock at member
  rcases List.mem_or_eq_of_mem_set member with before | same
  · rw [List.mem_append] at before
    rcases before with before | padding
    · exact Nat.lt_succ_of_lt (sound.blocks ord before)
    · exact absurd (List.eq_of_mem_replicate padding) (Option.some_ne_none ord)
  · rw [Option.some.inj same]
    exact Nat.lt_succ_self _

/-- A call is open, behind the role. -/
theorem Sound.opened (sound : t.Sound) (idx : Nat) :
    ({ (t.openBlock idx).spoken.stamped with contentStarted := true } : SseTranslation).Sound := by
  obtain ⟨marks, -, -⟩ := spoken_rest (t.openBlock idx)
  obtain ⟨blocks, finish⟩ := spoken_calls (t.openBlock idx)
  have stamped := stamped_stamp (t.openBlock idx).spoken
  rw [spoken_stamp] at stamped
  refine ⟨?_, ?_, fun _ => spoken_roleEmitted (t.openBlock idx), ?_, ?_⟩
  · intro counted
    exact (congrArg Marks.done marks).trans
      (sound.ended ((congrArg Marks.usage marks).symm.trans counted))
  · intro ord member
    change some ord ∈ (t.openBlock idx).spoken.blockToolOrd at member
    rw [blocks] at member
    exact lt_of_lt_of_eq (openBlock_blocks sound idx ord member) (congrArg Marks.calls marks).symm
  · change (t.openBlock idx).spoken.stamped.stamp.Ok
    rw [stamped]
    exact sound.stamp
  · intro name member
    change name ∈ (t.openBlock idx).spoken.finish at member
    rw [finish] at member
    exact sound.named name member

/-- A known block's number is one that was given. -/
theorem toolOrdinalFor_known (sound : t.Sound) {blockIndex : Int} {ord : Nat}
    (known : t.toolOrdinalFor blockIndex = some ord) : ord < t.nextToolOrd := by
  unfold toolOrdinalFor at known
  split at known
  · exact absurd known.symm (Option.some_ne_none ord)
  · rw [Option.join_eq_some_iff] at known
    exact sound.blocks ord (List.mem_of_getElem? known)

/-- The event adds a role, text or a part of a tool call to what was written. -/
def Adds (t : SseTranslation) (v : Value) : Prop :=
  ((v.strOr (ascii "type")).bytes = ascii "message_start" ∧ t.roleEmitted = false ∧
      ∀ m, v.find (ascii "message") = some m → ¬ Overlong m) ∨
    ((v.strOr (ascii "type")).bytes = ascii "content_block_delta" ∧
      ∃ d, v.find (ascii "delta") = some d ∧
        ((d.strOr (ascii "type")).bytes = ascii "text_delta" ∨
          (d.strOr (ascii "type")).bytes = ascii "input_json_delta" ∧
            (t.toolOrdinalFor (parseBlockIndex v)).isSome = true ∧
            (d.strOr (ascii "partial_json")).bytes.isEmpty = false)) ∨
    ((v.strOr (ascii "type")).bytes = ascii "content_block_start" ∧
      ∃ b, v.find (ascii "content_block") = some b ∧ t.Callable v b)

namespace Told

/-- The upstream failed. -/
theorem fail (told : Told strict includeUsage t frames) :
    Told strict includeUsage { t with failed := true } frames :=
  told.update rfl rfl ⟨told.sound.ended, told.sound.blocks, told.sound.spoke, told.sound.stamp,
    told.sound.named⟩

/-- Nothing is written. -/
theorem silent (told : Told strict includeUsage t frames) :
    Told strict includeUsage t (frames ++ []) := by
  rwa [List.append_nil]

/-- `message_start`. -/
theorem start (told : Told strict includeUsage t frames) (live : t.done = false) {v : Value}
    (spanned : Spanned v)
    (final : t.roleEmitted = false → (∀ m, v.find (ascii "message") = some m → ¬ Overlong m) →
      strict = true → t.finishEmitted = false) :
    Told strict includeUsage (t.tellStart v).1 (frames ++ (t.tellStart v).2) := by
  have begins : (t.begun v).marks = t.marks ∧ (t.begun v).includeUsage = t.includeUsage ∧
      (t.begun v).Sound ∧ ((t.begun v).failed = false →
        ∀ m, v.find (ascii "message") = some m → ¬ Overlong m) := by
    unfold begun
    cases found : v.find (ascii "message") with
    | none => exact ⟨rfl, rfl, told.sound, fun _ m no => absurd no (Option.some_ne_none m).symm⟩
    | some m =>
        refine ⟨(startMessage_rest t m).1, (startMessage_rest t m).2,
          told.sound.startMessage (spanned.find found), ?_⟩
        intro alive m' same overlong
        rw [← Option.some.inj same] at overlong
        dsimp only at alive
        rw [startMessage_overlong t overlong] at alive
        exact Bool.noConfusion alive
  obtain ⟨marks, wants, sound, short⟩ := begins
  unfold tellStart
  split
  · exact (told.update wants marks sound).silent
  · rename_i alive
    have stamped := told.update (u := (t.begun v).stamped) wants marks sound.stamped
    have spoken := stamped.spoken ((congrArg Marks.done marks).trans live) (by
      intro wanted silent
      exact (congrArg Marks.finish marks).trans
        (final ((congrArg Marks.role marks).symm.trans silent)
        (short (Bool.eq_false_iff.mpr alive)) wanted))
    rw [stamped_roleFrames] at spoken
    exact spoken

/-- Text, behind the role. -/
theorem told_text (told : Told strict includeUsage t frames) (live : t.done = false)
    (final : strict = true → t.finishEmitted = false) {raw : Bytes} (chars : IsChars raw) :
    Told strict includeUsage (t.tellText raw).1 (frames ++ (t.tellText raw).2) := by
  obtain ⟨-, done, finish⟩ := spoken_rest t
  have text := (told.spoken live fun wanted _ => final wanted).text (done.trans live)
    (spoken_roleEmitted t) (fun wanted => finish.trans (final wanted)) chars
  rw [spoken_chunk, List.append_assoc] at text
  unfold tellText
  rw [sanitized_chars chars]
  exact text.update rfl rfl ⟨text.sound.ended, text.sound.blocks, text.sound.spoke,
    text.sound.stamp, text.sound.named⟩

/-- A fragment of an open call's arguments. -/
theorem told_arguments (told : Told strict includeUsage t frames) (live : t.done = false)
    {ord : Nat} (known : ord < t.nextToolOrd) {raw : Bytes}
    (final : raw.isEmpty = false → strict = true → t.finishEmitted = false)
    (chars : IsChars raw) :
    Told strict includeUsage (t.tellArguments ord raw).1
      (frames ++ (t.tellArguments ord raw).2) := by
  unfold tellArguments
  rw [sanitized_chars chars]
  split
  · exact told.silent
  · rename_i stated
    exact told.arguments live known (final (Bool.eq_false_iff.mpr stated)) chars

/-- `content_block_delta`. -/
theorem delta (told : Told strict includeUsage t frames) (live : t.done = false) {v : Value}
    (spanned : Spanned v)
    (final : ∀ d, v.find (ascii "delta") = some d →
      ((d.strOr (ascii "type")).bytes = ascii "text_delta" ∨
        (d.strOr (ascii "type")).bytes = ascii "input_json_delta" ∧
          (t.toolOrdinalFor (parseBlockIndex v)).isSome = true ∧
          (d.strOr (ascii "partial_json")).bytes.isEmpty = false) →
      strict = true → t.finishEmitted = false) :
    Told strict includeUsage (t.tellDelta v).1 (frames ++ (t.tellDelta v).2) := by
  unfold tellDelta
  cases found : v.find (ascii "delta") with
  | none => exact told.silent
  | some d =>
      dsimp only
      split
      · rename_i type
        cases known : t.toolOrdinalFor (parseBlockIndex v) with
        | none => exact told.silent
        | some ord =>
            refine told.told_arguments live (toolOrdinalFor_known told.sound known) ?_
              (strOr_chars (spanned.find found) _ .nil)
            intro stated
            exact final d found (Or.inr ⟨type, Option.isSome_of_eq_some known, stated⟩)
      split
      · rename_i type
        exact told.told_text live (final d found (Or.inl type))
          (strOr_chars (spanned.find found) _ .nil)
      · exact told.silent

/-- `message_delta`. -/
theorem message (told : Told strict includeUsage t frames) (live : t.done = false) (v : Value) :
    Told strict includeUsage (t.tellMessage v).1 (frames ++ (t.tellMessage v).2) := by
  have stopped := told.update (stop_rest t (stopReason v)).2 (stop_rest t (stopReason v)).1
    (told.sound.stop (stopReason v))
  have merged : Told strict includeUsage ((t.stop (stopReason v)).mergeUsage v) frames := by
    rw [mergeUsage_eq]
    exact stopped.update rfl rfl ⟨stopped.sound.ended, stopped.sound.blocks,
      stopped.sound.spoke, stopped.sound.stamp, stopped.sound.named⟩
  have alive : ((t.stop (stopReason v)).mergeUsage v).done = false := by
    rw [mergeUsage_eq]
    exact (congrArg Marks.done (stop_rest t (stopReason v)).1).trans live
  unfold tellMessage
  split
  · exact stopped.silent
  · generalize (t.stop (stopReason v)).mergeUsage v = w at merged alive ⊢
    dsimp only
    cases given : w.finish with
    | none => exact merged.silent
    | some name =>
        obtain ⟨plain, named⟩ := merged.sound.named name given
        exact merged.finished alive plain named

/-- `content_block_start`. -/
theorem block (told : Told strict includeUsage t frames) (live : t.done = false) {v : Value}
    (spanned : Spanned v)
    (final : ∀ b, v.find (ascii "content_block") = some b → t.Callable v b →
      strict = true → t.finishEmitted = false) :
    Told strict includeUsage (t.tellBlock v).1 (frames ++ (t.tellBlock v).2) := by
  unfold tellBlock
  cases found : v.find (ascii "content_block") with
  | none => exact told.silent
  | some b =>
      dsimp only
      split
      · rename_i callable
        have id : IsChars (b.strOr (ascii "id")).bytes :=
          strOr_chars (spanned.find found) _ .nil
        have name : IsChars (b.strOr (ascii "name")).bytes :=
          strOr_chars (spanned.find found) _ .nil
        obtain ⟨marks, done, finish⟩ := spoken_rest t
        have spoken := told.spoken live fun wanted _ => final b found callable wanted
        unfold tellCall
        rw [sanitized_chars id, sanitized_chars name, ← List.append_assoc]
        have call := spoken.call (done.trans live) (spoken_roleEmitted t)
          (fun wanted => finish.trans (final b found callable wanted)) id name
          (congrArg Marks.calls marks)
          (u := { (t.openBlock (parseBlockIndex v).toNat).spoken.stamped with
            contentStarted := true })
          ((spoken_includeUsage _).trans (spoken_includeUsage t).symm) ?_
          (told.sound.opened (parseBlockIndex v).toNat)
        · rw [spoken_chunk] at call
          exact call
        · rw [marks]
          exact (spoken_rest (t.openBlock (parseBlockIndex v).toNat)).1
      · exact told.silent

/-- A parsed event. -/
theorem event (told : Told strict includeUsage t frames) (live : t.done = false) {v : Value}
    (spanned : Spanned v) (quiet : strict = true → t.finishEmitted = true → ¬ t.Adds v) :
    Told strict includeUsage (t.tellEvent v).1 (frames ++ (t.tellEvent v).2) := by
  have final : t.Adds v → strict = true → t.finishEmitted = false := fun adds wanted =>
    Bool.eq_false_iff.mpr fun finished => quiet wanted finished adds
  unfold tellEvent
  dsimp only
  split
  · exact told.fail.silent
  split
  · rename_i type
    exact told.start live spanned fun silent short => final (Or.inl ⟨type, silent, short⟩)
  split
  · rename_i type
    exact told.delta live spanned fun d found adds =>
      final (Or.inr (Or.inl ⟨type, d, found, adds⟩))
  split
  · exact told.message live v
  split
  · have stopped := told.update (u := { t with toolOpen := false }) rfl rfl
      ⟨told.sound.ended, told.sound.blocks, told.sound.spoke, told.sound.stamp, told.sound.named⟩
    exact stopped.close live told.sound.closing.1 told.sound.closing.2
  split
  · rename_i type
    exact told.block live spanned fun b found callable =>
      final (Or.inr (Or.inr ⟨type, b, found, callable⟩))
  · exact told.silent

end Told

/-- The values of an event have their texts. -/
theorem eventOf_spanned {data : Bytes} {v : Value} (event : eventOf data = some v) :
    Spanned v := by
  unfold eventOf at event
  dsimp only at event
  split at event
  · exact absurd event.symm (Option.some_ne_none v)
  · rename_i accepted
    rw [not_or, Bool.not_eq_false] at accepted
    rw [← Option.some.inj event]
    exact Json.spanned_parse accepted.1

/-- Behind a finish chunk, the data add nothing to what was written. -/
def Quiet (t : SseTranslation) (data : Bytes) : Prop :=
  t.finishEmitted = true → data ≠ ascii "[DONE]" → ∀ v, eventOf data = some v → ¬ t.Adds v

/-- The data of an event. -/
theorem Told.tell (told : Told strict includeUsage t frames) (live : t.done = false) {data : Bytes}
    (quiet : strict = true → t.Quiet data) :
    Told strict includeUsage (t.tell data).1 (frames ++ (t.tell data).2) := by
  unfold SseTranslation.tell
  split
  · unfold tellDone
    split
    · exact told.silent
    · exact told.close live told.sound.closing.1 told.sound.closing.2
  · rename_i other
    cases event : eventOf data with
    | none => exact told.silent
    | some v =>
        exact told.event live (eventOf_spanned event) fun wanted finished =>
          quiet wanted finished other v event

/-! ## What a stream keeps -/

/-- Every event that is read is quiet. -/
def QuietAll (t : SseTranslation) (found : List Bytes) : Prop :=
  ∀ front data back, found = front ++ data :: back → (t.tellAll front).1.settled = false →
    (t.tellAll front).1.Quiet data

/-- The first event and the others. -/
theorem tellAll_cons (live : t.settled = false) (data : Bytes) (rest : List Bytes) :
    t.tellAll (data :: rest) =
      (((t.tell data).1.tellAll rest).1,
        (t.tell data).2 ++ ((t.tell data).1.tellAll rest).2) := by
  rw [tellAll, if_neg (by simp [live])]

/-- What is quiet stays so behind its first event. -/
theorem QuietAll.tail {data : Bytes} {rest : List Bytes} (quiet : t.QuietAll (data :: rest))
    (live : t.settled = false) : (t.tell data).1.QuietAll rest := by
  intro front next back split reading
  have later := quiet (data :: front) next back (by rw [split, List.cons_append])
  rw [tellAll_cons live] at later
  exact later reading

/-- Events in turn. -/
theorem Told.tellAll (told : Told strict includeUsage t frames) {found : List Bytes}
    (quiet : strict = true → t.QuietAll found) :
    Told strict includeUsage (t.tellAll found).1 (frames ++ (t.tellAll found).2) := by
  induction found generalizing t frames with
  | nil => exact told.silent
  | cons data rest inductionHypothesis =>
      cases settled : t.settled with
      | true =>
          rw [SseTranslation.tellAll, if_pos settled]
          exact told.silent
      | false =>
          rw [tellAll_cons settled, ← List.append_assoc]
          apply inductionHypothesis
          · exact told.tell (Bool.or_eq_false_iff.mp settled).2 fun wanted =>
              quiet wanted [] data rest rfl settled
          · exact fun wanted => (quiet wanted).tail settled

/-- The end of the upstream. -/
theorem Told.tellFinish (told : Told strict includeUsage t frames) :
    Told strict includeUsage t.tellFinish.1 (frames ++ t.tellFinish.2) := by
  unfold SseTranslation.tellFinish
  split
  · rename_i closing
    simp only [Bool.and_eq_true, Bool.not_eq_true'] at closing
    obtain ⟨name, given⟩ := Option.isSome_iff_exists.mp closing.2
    obtain ⟨plain, stated⟩ := told.sound.named name given
    rw [given]
    exact told.close closing.1.2 plain stated
  · exact told.silent

end SseTranslation

namespace AnthropicToOpenAiSse

open SseTranslation

variable {strict : Bool}

/-- A fresh stream has told nothing. -/
theorem told_reset (createdSecs : Int) (includeUsage : Bool) (clock : Int) :
    Told strict includeUsage (reset createdSecs includeUsage clock).translation [] where
  wants := rfl
  guarded := Guarded.nil
  spans := List.forall_mem_nil _
  marks := rfl
  closed := rfl
  sound := {
    ended := id
    blocks := fun _ no => absurd no List.not_mem_nil
    spoke := fun no => absurd no (Nat.lt_irrefl 0)
    stamp := ⟨show IsChars (ascii "chatcmpl-llmbridge") from word_chars (by decide), .nil, _, rfl⟩
    named := fun _ no => absurd no (Option.not_mem_none _) }

/-- The frames of a stream, and of its end. -/
theorem told_stream (createdSecs : Int) (includeUsage : Bool) (clock : Int)
    (pieces : List Bytes) (closing : Bool)
    (quiet : strict = true → (reset createdSecs includeUsage clock).translation.QuietAll
      ((reset createdSecs includeUsage clock).heardAll pieces)) :
    ∃ last, Told strict includeUsage last
      ((reset createdSecs includeUsage clock).told pieces closing) := by
  have heard := (told_reset createdSecs includeUsage clock).tellAll quiet
  rw [List.nil_append] at heard
  have state := (feedAll_behind (reset createdSecs includeUsage clock) pieces).2
  rw [dispatchAll_eq] at state
  unfold AnthropicToOpenAiSse.told
  cases closing with
  | false => exact ⟨_, heard.silent⟩
  | true =>
      rw [if_pos rfl]
      rcases state with same | failed
      · rw [same]
        exact ⟨_, heard.tellFinish⟩
      · rw [failed]
        exact ⟨_, heard.fail.tellFinish⟩

/-- Whatever the upstream sends, the stream is frames of JSON or `[DONE]` without
control bytes, each allowed behind those in front of it, and a usage chunk is not
the last. -/
theorem streamed_wellFormed (createdSecs : Int) (includeUsage : Bool) (clock : Int)
    (pieces : List Bytes) (closing : Bool) :
    ∃ frames : List Frame,
      (reset createdSecs includeUsage clock).streamed pieces closing =
        frames.flatMap (fun f => ascii "data: " ++ f.payload ++ ascii "\n\n") ∧
      (∀ f ∈ frames,
        (f = .done ∧ f.payload = ascii "[DONE]" ∨
          Json.Writes f.payload (Json.IsObject (f.parts.map Json.Part.field))) ∧
        ∀ c ∈ f.payload, ¬ c < 0x20) ∧
      Guarded (Allowed false includeUsage) frames ∧
      frames.getLast?.any Frame.isUsage = false := by
  obtain ⟨last, told⟩ := @told_stream false createdSecs includeUsage clock pieces
    closing fun no => absurd no Bool.false_ne_true
  refine ⟨(reset createdSecs includeUsage clock).told pieces closing, ?_, ?_, told.guarded,
    told.closed⟩
  · exact streamed_eq _ pieces closing
  · intro f member
    have spans := told.spans f member
    exact ⟨Frame.payload_writes spans, Frame.payload_printable spans⟩

end AnthropicToOpenAiSse
end Llmbridge
