import Llmbridge.Provider.Sse
import Llmbridge.Provider.TranslateResponseCorrect
import Llmbridge.Transition.Runs

/-!
# The frames of a translated stream

What `AnthropicToOpenAiSse` writes, as OpenAI's clients read it: chunks that carry
the role, text, tool calls or a finish reason, the usage chunk and `[DONE]`, in the
order that a stream has them.
-/

namespace Llmbridge

open Rfc8259 (Byte Bytes ascii IsChars IsNumber isPlain quoted commaJoin Lit)
open OpenAi (Usage Envelope.start Envelope.choice Envelope.endChoice Envelope.close)
open Json (Part Writes IsString IsNumeral IsObject IsArray Part.ok writes_string writes_number
  writes_object writes_array writes_lit)
open Translate (decimal_isNumber chars_printable usageObject usageText_eq writes_usage usageParts
  finishName_plain sanitized_chars)
open Transition (Guarded)

namespace SseTranslation

/-! ## Frames -/

/-- The members of a chunk's delta. -/
inductive Delta
  | role
  | content (text : Bytes)
  | call (ord : Nat) (id name : Bytes)
  | arguments (ord : Nat) (frag : Bytes)
  | empty
  deriving DecidableEq, Repr

/-- The text between a delta's braces. -/
def Delta.text : Delta → Bytes
  | .role => ascii "\"role\":\"assistant\""
  | .content text => ascii "\"content\":\"" ++ text ++ ascii "\""
  | .call ord id name =>
      ascii "\"tool_calls\":[\x7b\"index\":" ++ OpenAi.digits ord ++ ascii ",\"id\":\"" ++
        id ++ ascii "\",\"type\":\"function\",\"function\":\x7b\"name\":\"" ++
        name ++ ascii "\",\"arguments\":\"\"\x7d\x7d]"
  | .arguments ord frag =>
      ascii "\"tool_calls\":[\x7b\"index\":" ++ OpenAi.digits ord ++
        ascii ",\"function\":\x7b\"arguments\":\"" ++ frag ++ ascii "\"\x7d\x7d]"
  | .empty => []

/-- Who wrote a chunk, and when. -/
structure Stamp where
  id : Bytes
  created : Bytes
  model : Bytes
  deriving DecidableEq, Repr

/-- One event of the translated stream; an empty `finish` is null. -/
inductive Frame
  | chunk (stamp : Stamp) (delta : Delta) (finish : Bytes) (usageNull : Bool)
  | usage (stamp : Stamp) (counts : Usage)
  | done
  deriving DecidableEq, Repr

namespace Frame

/-- The data of the event. -/
def payload : Frame → Bytes
  | chunk s delta finish usageNull =>
      Envelope.start .chunk s.id s.created s.model ++ Envelope.choice .chunk ++ delta.text ++
        Envelope.endChoice finish ++ Envelope.close none usageNull
  | usage s counts =>
      Envelope.start .chunk s.id s.created s.model ++ Envelope.close (some counts) false
  | done => ascii "[DONE]"

/-- The event as written. -/
def text (f : Frame) : Bytes :=
  ascii "data: " ++ f.payload ++ ascii "\n\n"

/-- It carries the role. -/
def isRole : Frame → Bool
  | chunk _ .role _ _ => true
  | _ => false

/-- It carries text or a part of a tool call. -/
def speaks : Frame → Bool
  | chunk _ (.content _) _ _ => true
  | chunk _ (.call ..) _ _ => true
  | chunk _ (.arguments ..) _ _ => true
  | _ => false

/-- It has a finish reason. -/
def isFinish : Frame → Bool
  | chunk _ _ finish _ => !finish.isEmpty
  | _ => false

/-- It is the usage chunk, which has no choices. -/
def isUsage : Frame → Bool
  | usage .. => true
  | _ => false

/-- It ends the stream. -/
def isDone : Frame → Bool
  | done => true
  | _ => false

/-- The index of a call that it opens. -/
def opens : Frame → Option Nat
  | chunk _ (.call ord _ _) _ _ => some ord
  | _ => none

/-- The index of a call whose arguments it carries. -/
def continues : Frame → Option Nat
  | chunk _ (.arguments ord _) _ _ => some ord
  | _ => none

end Frame

/-- The tool calls opened so far. -/
def opened (front : List Frame) : Nat :=
  (front.filterMap Frame.opens).length

/-- What may be written behind what, `strict` where a finish reason ends the deltas
too. -/
structure Allowed (strict includeUsage : Bool) (front : List Frame) (x : Frame) : Prop where
  live : front.any Frame.isDone = false
  usageLast : front.getLast?.any Frame.isUsage = true → x.isDone = true
  roleOnce : x.isRole = true → front.any Frame.isRole = false
  spoken : x.speaks = true → front.any Frame.isRole = true
  inOrder : ∀ ord ∈ x.opens, ord = opened front
  known : ∀ ord ∈ x.continues, ord < opened front
  finishOnce : x.isFinish = true → front.any Frame.isFinish = false
  usageOnce : x.isUsage = true → includeUsage = true ∧ front.any Frame.isUsage = false
  finished : x.isDone = true → front.any Frame.isFinish = true ∧
    (includeUsage = true → front.getLast?.any Frame.isUsage = true)
  final : strict = true → x.isRole = true ∨ x.speaks = true → front.any Frame.isFinish = false

/-! ## Chunks as JSON -/

/-- An object of these members. -/
def objectOf (parts : List Part) : Bytes :=
  0x7b :: (commaJoin (parts.map Part.written) ++ [0x7d])

/-- A member that is a string. -/
def stringPart (name : String) (raw : Bytes) : Part :=
  ⟨ascii name, quoted raw, IsString raw⟩

/-- A member that is a number. -/
def numberPart (name : String) (v : Int) : Part :=
  ⟨ascii name, OpenAi.decimal v, IsNumeral (OpenAi.decimal v)⟩

/-- A member that is null. -/
def nullPart (name : String) : Part :=
  ⟨ascii name, ascii "null", fun tree => tree = .lit .null⟩

/-- A member that is an object. -/
def objectPart (name : String) (parts : List Part) : Part :=
  ⟨ascii name, objectOf parts, IsObject (parts.map Part.field)⟩

/-- A member that is an array of objects. -/
def listPart (name : String) (items : List (List Part)) : Part :=
  ⟨ascii name, 0x5b :: (commaJoin (items.map objectOf) ++ [0x5d]),
    IsArray (items.map fun parts => IsObject (parts.map Part.field))⟩

/-- Members that make an object: values, under names of their own. -/
structure Members (parts : List Part) : Prop where
  ok : ∀ p ∈ parts, p.Ok
  distinct : (parts.map Part.name).Nodup

/-- An object of well formed members is written so. -/
theorem Members.writes {parts : List Part} (members : Members parts) :
    Writes (objectOf parts) (IsObject (parts.map Part.field)) :=
  writes_object members.ok members.distinct

/-- A string member is well formed. -/
theorem stringPart_ok {name : String} (plain : (ascii name).all isPlain = true) {raw : Bytes}
    (chars : IsChars raw) : (stringPart name raw).Ok :=
  Part.ok plain (writes_string chars).places

/-- So is a number. -/
theorem numberPart_ok {name : String} (plain : (ascii name).all isPlain = true) (v : Int) :
    (numberPart name v).Ok :=
  Part.ok plain (writes_number (decimal_isNumber v)).places

/-- So is a null. -/
theorem nullPart_ok {name : String} (plain : (ascii name).all isPlain = true) :
    (nullPart name).Ok :=
  Part.ok plain (writes_lit .null).places

/-- So is an object of well formed members. -/
theorem objectPart_ok {name : String} (plain : (ascii name).all isPlain = true)
    {parts : List Part} (members : Members parts) : (objectPart name parts).Ok :=
  Part.ok plain members.writes.places

/-- So is a list of such objects. -/
theorem listPart_ok {name : String} (plain : (ascii name).all isPlain = true)
    {items : List (List Part)} (members : ∀ parts ∈ items, Members parts) :
    (listPart name items).Ok := by
  apply Part.ok plain
  apply Writes.places
  apply writes_array
  induction items with
  | nil => exact List.Forall₂.nil
  | cons parts items inductionHypothesis =>
      rw [List.forall_mem_cons] at members
      exact List.Forall₂.cons members.1.writes (inductionHypothesis members.2)

/-- The members of a delta. -/
def Delta.parts : Delta → List Part
  | .role => [stringPart "role" (ascii "assistant")]
  | .content text => [stringPart "content" text]
  | .call ord id name =>
      [listPart "tool_calls"
        [[numberPart "index" ord, stringPart "id" id, stringPart "type" (ascii "function"),
          objectPart "function" [stringPart "name" name, stringPart "arguments" []]]]]
  | .arguments ord frag =>
      [listPart "tool_calls"
        [[numberPart "index" ord, objectPart "function" [stringPart "arguments" frag]]]]
  | .empty => []

/-- The strings of a delta are contents of JSON strings. -/
def Delta.Spans : Delta → Prop
  | .content text => IsChars text
  | .call _ id name => IsChars id ∧ IsChars name
  | .arguments _ frag => IsChars frag
  | _ => True

/-- A count that is not below zero is its digits. -/
theorem decimal_natCast (n : Nat) : OpenAi.decimal n = OpenAi.digits n := by
  unfold OpenAi.decimal
  rw [if_neg (by omega), Int.natAbs_natCast]

/-- The text of a delta, part by part. -/
theorem Delta.text_eq (delta : Delta) :
    delta.text = commaJoin (delta.parts.map Part.written) := by
  cases delta <;>
    simp only [Delta.text, Delta.parts, stringPart, numberPart, objectPart, listPart, objectOf,
      Part.written, decimal_natCast, quoted, commaJoin, List.map_cons, List.map_nil,
      List.append_assoc, List.cons_append, List.nil_append] <;>
    rfl

/-- A plain word stands in a string as it is. -/
theorem word_chars {text : Bytes} (plain : text.all isPlain = true) : IsChars text :=
  IsChars.of_plain (List.all_eq_true.mp plain)

/-- The parts of a delta are well formed members. -/
theorem Delta.members {delta : Delta} (spans : delta.Spans) : Members delta.parts := by
  have one : ∀ p : Part, p.Ok → Members [p] := fun p ok =>
    ⟨List.forall_mem_singleton.mpr ok, List.nodup_singleton _⟩
  cases delta with
  | role => exact one _ (stringPart_ok (by decide) (word_chars (by decide)))
  | content text => exact one _ (stringPart_ok (by decide) spans)
  | call ord id name =>
      apply one _ (listPart_ok (by decide) (List.forall_mem_singleton.mpr _))
      refine ⟨?_, ?_⟩
      · simp only [List.forall_mem_cons]
        refine ⟨numberPart_ok (by decide) ord, stringPart_ok (by decide) spans.1,
          stringPart_ok (by decide) (word_chars (by decide)),
          objectPart_ok (by decide) ⟨?_, ?_⟩, by simp⟩
        · simp only [List.forall_mem_cons]
          exact ⟨stringPart_ok (by decide) spans.2, stringPart_ok (by decide) .nil, by simp⟩
        · show [ascii "name", ascii "arguments"].Nodup
          decide
      · show [ascii "index", ascii "id", ascii "type", ascii "function"].Nodup
        decide
  | arguments ord frag =>
      apply one _ (listPart_ok (by decide) (List.forall_mem_singleton.mpr _))
      refine ⟨?_, ?_⟩
      · simp only [List.forall_mem_cons]
        exact ⟨numberPart_ok (by decide) ord,
          objectPart_ok (by decide) (one _ (stringPart_ok (by decide) spans)), by simp⟩
      · show [ascii "index", ascii "function"].Nodup
        decide
  | empty => exact ⟨by simp [Delta.parts], List.nodup_nil⟩

/-! ## Frames as JSON -/

/-- Who wrote a chunk is contents of strings, and when is a number. -/
structure Stamp.Ok (s : Stamp) : Prop where
  id : IsChars s.id
  model : IsChars s.model
  created : ∃ v : Int, s.created = OpenAi.decimal v

/-- The members that every chunk starts with. -/
def Stamp.parts (s : Stamp) : List Part :=
  [stringPart "id" s.id, stringPart "object" (ascii "chat.completion.chunk"),
    ⟨ascii "created", s.created, IsNumeral s.created⟩, stringPart "model" s.model]

/-- The finish reason of a choice; an empty one is null. -/
def finishPart (finish : Bytes) : Part :=
  if finish.isEmpty then nullPart "finish_reason" else stringPart "finish_reason" finish

/-- The members of a chunk, or of the usage chunk. -/
def Frame.parts : Frame → List Part
  | chunk s delta finish usageNull =>
      s.parts ++ listPart "choices"
        [[numberPart "index" 0, objectPart "delta" delta.parts, finishPart finish]] ::
        (if usageNull then [nullPart "usage"] else [])
  | usage s counts =>
      s.parts ++ [listPart "choices" [],
        ⟨ascii "usage", usageObject counts (-1),
          IsObject ((usageParts counts (-1)).map Part.field)⟩]
  | done => []

/-- What the strings of a frame are: contents of JSON strings. -/
def Frame.Spans : Frame → Prop
  | chunk s delta finish _ => s.Ok ∧ delta.Spans ∧ finish.all isPlain = true
  | usage s _ => s.Ok
  | done => True

/-- So are those of a stamp. -/
theorem Stamp.ok {s : Stamp} (ok : s.Ok) : ∀ p ∈ s.parts, p.Ok := by
  obtain ⟨id, model, v, created⟩ := ok
  simp only [Stamp.parts, List.forall_mem_cons]
  refine ⟨stringPart_ok (by decide) id, stringPart_ok (by decide) (word_chars (by decide)),
    Part.ok (by decide) ?_, stringPart_ok (by decide) model, by simp⟩
  rw [created]
  exact (writes_number (decimal_isNumber v)).places

/-- So is the finish reason. -/
theorem finishPart_ok {finish : Bytes} (plain : finish.all isPlain = true) :
    (finishPart finish).Ok ∧ (finishPart finish).name = ascii "finish_reason" := by
  unfold finishPart
  split
  · exact ⟨nullPart_ok (by decide), rfl⟩
  · exact ⟨stringPart_ok (by decide) (word_chars plain), rfl⟩

/-- So are those of a frame. -/
theorem Frame.members {f : Frame} (spans : f.Spans) : Members f.parts := by
  cases f with
  | chunk s delta finish usageNull =>
      obtain ⟨stamp, deltaSpans, plain⟩ := spans
      obtain ⟨finishOk, finishName⟩ := finishPart_ok plain
      have choice : Members [numberPart "index" 0, objectPart "delta" delta.parts,
          finishPart finish] := by
        refine ⟨?_, ?_⟩
        · simp only [List.forall_mem_cons]
          exact ⟨numberPart_ok (by decide) 0,
            objectPart_ok (by decide) (Delta.members deltaSpans), finishOk, by simp⟩
        · rw [List.map_cons, List.map_cons, List.map_singleton, finishName]
          show [ascii "index", ascii "delta", ascii "finish_reason"].Nodup
          decide
      refine ⟨?_, ?_⟩
      · unfold Frame.parts
        rw [List.forall_mem_append, List.forall_mem_cons]
        refine ⟨Stamp.ok stamp,
          listPart_ok (by decide) (List.forall_mem_singleton.mpr choice), ?_⟩
        cases usageNull with
        | false => simp
        | true => exact List.forall_mem_singleton.mpr (nullPart_ok (by decide))
      · cases usageNull with
        | false =>
            show [ascii "id", ascii "object", ascii "created", ascii "model",
              ascii "choices"].Nodup
            decide
        | true =>
            show [ascii "id", ascii "object", ascii "created", ascii "model", ascii "choices",
              ascii "usage"].Nodup
            decide
  | usage s counts =>
      refine ⟨?_, ?_⟩
      · unfold Frame.parts
        simp only [List.forall_mem_append, List.forall_mem_cons]
        exact ⟨Stamp.ok spans, listPart_ok (by decide) (by simp),
          Part.ok (by decide) (writes_usage counts (-1)).places, by simp⟩
      · show [ascii "id", ascii "object", ascii "created", ascii "model", ascii "choices",
          ascii "usage"].Nodup
        decide
  | done => exact ⟨by simp [Frame.parts], List.nodup_nil⟩

/-- The payload of a frame that is not the last one. -/
theorem Frame.payload_eq {f : Frame} (open' : f.isDone = false) :
    f.payload = objectOf f.parts := by
  cases f with
  | chunk s delta finish usageNull =>
      dsimp only [Frame.payload, Frame.parts]
      unfold finishPart Envelope.endChoice
      rw [Delta.text_eq]
      cases usageNull <;> cases finish <;>
        simp only [Envelope.start, Envelope.choice, Envelope.close, Stamp.parts, stringPart,
          numberPart, nullPart, objectPart, listPart, objectOf, Part.written, quoted, commaJoin,
          List.isEmpty_nil, List.isEmpty_cons, if_true, if_false, Bool.false_eq_true,
          List.map_cons, List.map_nil, List.append_assoc, List.cons_append, List.nil_append] <;>
        rfl
  | usage s counts =>
      simp only [Frame.payload, Frame.parts, Envelope.close, usageText_eq, Envelope.start,
        Stamp.parts, stringPart, listPart, objectOf,
        Part.written, quoted, commaJoin, List.map_cons, List.map_nil, List.append_assoc,
        List.cons_append, List.nil_append]
      rfl
  | done => cases open'

/-- The data of a frame are `[DONE]`, or one JSON object that says what it holds. -/
theorem Frame.payload_writes {f : Frame} (spans : f.Spans) :
    f = .done ∧ f.payload = ascii "[DONE]" ∨
      Writes f.payload (IsObject (f.parts.map Part.field)) := by
  cases f with
  | done => exact Or.inl ⟨rfl, rfl⟩
  | chunk =>
      rw [payload_eq rfl]
      exact Or.inr (members spans).writes
  | usage =>
      rw [payload_eq rfl]
      exact Or.inr (members spans).writes

/-! ## No control bytes -/

/-- It holds no control byte. -/
def Printable (text : Bytes) : Prop :=
  ∀ c ∈ text, ¬ c < 0x20

/-- Printable texts, one behind the other. -/
theorem printable_append {first second : Bytes} :
    Printable (first ++ second) ↔ Printable first ∧ Printable second :=
  List.forall_mem_append

/-- A plain text is printable. -/
theorem Printable.of_plain {text : Bytes} (plain : text.all isPlain = true) : Printable text :=
  chars_printable (word_chars plain)

/-- So is a text without control bytes. -/
theorem Printable.of_all {text : Bytes}
    (all : (text.all fun c => !decide (c < 0x20)) = true) : Printable text := by
  intro c member
  have above := List.all_eq_true.mp all c member
  simpa using above

/-- So are digits. -/
theorem digits_printable (n : Nat) : Printable (OpenAi.digits n) := by
  intro c member
  have digit := Rfc8259.decimalDigits_isDigit n c member
  unfold Rfc8259.isDigit at digit
  rw [Bool.and_eq_true, decide_eq_true_eq, UInt8.le_iff_toNat_le] at digit
  rw [UInt8.lt_iff_toNat_lt]
  exact not_lt.mpr (le_trans (by decide) digit.1)

/-- So is a number with a sign. -/
theorem decimal_printable (v : Int) : Printable (OpenAi.decimal v) := by
  unfold OpenAi.decimal
  split
  · exact List.forall_mem_cons.mpr ⟨by decide, digits_printable v.natAbs⟩
  · exact digits_printable v.natAbs

/-- So is the text of the counts. -/
theorem usageText_printable (u : Usage) (total : Int) :
    Printable (OpenAi.Envelope.usageText u total) := by
  have count : ∀ v, Printable (OpenAi.countText v) := fun v => decimal_printable _
  have optional : ∀ (wanted : Prop) [Decidable wanted] (text : Bytes),
      Printable text → Printable (if wanted then text else []) := by
    intro wanted _ text printable
    split
    · exact printable
    · exact List.forall_mem_nil _
  unfold OpenAi.Envelope.usageText
  simp only [printable_append]
  exact ⟨⟨⟨⟨⟨⟨⟨⟨.of_all (by decide), count _⟩, .of_all (by decide)⟩, count _⟩,
    .of_all (by decide)⟩, count _⟩,
    optional _ _ (printable_append.mpr
      ⟨printable_append.mpr ⟨.of_all (by decide), count _⟩, .of_all (by decide)⟩)⟩,
    optional _ _ (printable_append.mpr
      ⟨printable_append.mpr ⟨.of_all (by decide), count _⟩, .of_all (by decide)⟩)⟩,
    .of_all (by decide)⟩

/-- So is that of a delta. -/
theorem Delta.text_printable {delta : Delta} (spans : delta.Spans) : Printable delta.text := by
  cases delta with
  | role => exact .of_all (by decide)
  | content text =>
      simp only [Delta.text, printable_append]
      exact ⟨⟨.of_all (by decide), chars_printable spans⟩, .of_all (by decide)⟩
  | call ord id name =>
      simp only [Delta.text, printable_append]
      exact ⟨⟨⟨⟨⟨⟨.of_all (by decide), digits_printable ord⟩, .of_all (by decide)⟩,
        chars_printable spans.1⟩, .of_all (by decide)⟩, chars_printable spans.2⟩,
        .of_all (by decide)⟩
  | arguments ord frag =>
      simp only [Delta.text, printable_append]
      exact ⟨⟨⟨⟨.of_all (by decide), digits_printable ord⟩, .of_all (by decide)⟩,
        chars_printable spans⟩, .of_all (by decide)⟩
  | empty => exact List.forall_mem_nil _

/-- So is the begin of a chunk. -/
theorem Stamp.start_printable {s : Stamp} (ok : s.Ok) :
    Printable (Envelope.start .chunk s.id s.created s.model) := by
  obtain ⟨id, model, v, created⟩ := ok
  simp only [Envelope.start, printable_append]
  refine ⟨⟨⟨⟨⟨⟨.of_all (by decide), chars_printable id⟩, .of_all (by decide)⟩, ?_⟩,
    .of_all (by decide)⟩, chars_printable model⟩, .of_all (by decide)⟩
  rw [created]
  exact decimal_printable v

/-- So is the end of a choice. -/
theorem endChoice_printable {finish : Bytes} (plain : finish.all isPlain = true) :
    Printable (Envelope.endChoice finish) := by
  unfold Envelope.endChoice
  split
  · exact .of_all (by decide)
  · simp only [printable_append]
    exact ⟨⟨.of_all (by decide), .of_plain plain⟩, .of_all (by decide)⟩

/-- The data of a frame holds no control byte. -/
theorem Frame.payload_printable {f : Frame} (spans : f.Spans) : Printable f.payload := by
  cases f with
  | chunk s delta finish usageNull =>
      simp only [Frame.payload, printable_append]
      refine ⟨⟨⟨⟨Stamp.start_printable spans.1, .of_all (by decide)⟩,
        Delta.text_printable spans.2.1⟩, endChoice_printable spans.2.2⟩, ?_⟩
      cases usageNull with
      | false => exact .of_all (by decide)
      | true => exact .of_all (by decide)
  | usage s counts =>
      simp only [Frame.payload, Envelope.close, printable_append]
      exact ⟨Stamp.start_printable spans, .of_all (by decide), usageText_printable counts _⟩
  | done => exact .of_all (by decide)

end SseTranslation
end Llmbridge
