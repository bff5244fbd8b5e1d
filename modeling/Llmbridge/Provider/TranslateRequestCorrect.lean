import Llmbridge.Provider.RequestMembers

/-!
# Translated requests are well formed

A request translator writes nothing, or one object whose members carry the venue's
own names, each at most once: no span of the client's body ends the value it was
placed in.
-/

namespace Llmbridge
namespace Translate

open Rfc8259
open Json (Value View Spanned Writes Places Part Field IsObject IsArray IsString IsSpan
  moreParts writes_string writes_plain writes_number writes_array writes_members)

/-- The text is one object without repeated keys at any depth, its own keys being
among these, in this order. -/
def IsBody (keys : List Bytes) (text : Bytes) : Prop :=
  Writes text fun tree => tree.isObject = true ∧
    (tree.members.map fun member => member.1.bytes).Sublist keys

/-! ## Anthropic and Bedrock -/

/-- The first key of a Messages body. -/
def messagesHead (bedrock : Bool) : Bytes :=
  if bedrock then ascii "anthropic_version" else ascii "model"

/-- The keys of a Messages body. -/
def messagesKeys (bedrock : Bool) : List Bytes :=
  messagesHead bedrock :: ([ascii "max_tokens"] ++ ([ascii "system"] ++ (paramNames ++
    ([ascii "tools", ascii "tool_choice"] ++ [ascii "messages"]))))

theorem messagesKeys_nodup (bedrock : Bool) : (messagesKeys bedrock).Nodup := by
  cases bedrock <;> decide

/-- What a Messages body says of the conversation. -/
structure MessagesBody (msgs : List Value) (tree : Rfc8259.Json) : Prop where
  messages : ∃ value, Json.named (ascii "messages") tree = some value ∧
    IsArray ((grouped (turnMessages msgs)).map TurnOf) value
  system : if (systemMessages msgs).isEmpty then Json.named (ascii "system") tree = none
    else ∃ value, Json.named (ascii "system") tree = some value ∧ SystemOf msgs value

theorem messagesOf_spanned {v : Value} (spanned : Spanned v) {msgs : List Value}
    (found : messagesOf v = some msgs) : ∀ m ∈ msgs, Spanned m := by
  obtain ⟨value, same, rfl⟩ := Option.map_eq_some_iff.mp found
  exact fun m member => (spanned.find (filter_type same).1).arr member

/-- The first field of a name stands behind fields of other names. -/
theorem find_behind
    {front back : List Field} {names : List Bytes} {name : Bytes}
    (among : (front.map Prod.fst).Sublist names) (other : name ∉ names) :
    (front ++ back).find? (fun f => f.1 = name) = back.find? fun f => f.1 = name := by
  rw [List.find?_append]
  have none : front.find? (fun f => decide (f.1 = name)) = none := by
    rw [List.find?_eq_none]
    intro f member same
    have inside := among.subset (List.mem_map_of_mem member)
    rw [of_decide_eq_true same] at inside
    exact other inside
  rw [none, Option.none_or]

theorem fields_names (parts : List Part) :
    (parts.map Part.field).map Prod.fst = parts.map Part.name := by
  rw [List.map_map]
  rfl

/-- The members of a Messages body behind its head. -/
def messagesRest (maxTokens : Bytes) (system params tools : List Part) (messages : Part) :
    List Part :=
  [⟨ascii "max_tokens", maxTokens, AnyValue⟩] ++ (system ++ (params ++ (tools ++ [messages])))

section MessagesRest

variable {bedrock : Bool} {head messages : Part} {maxTokens systemValue : Bytes}
  {params tools : List Part} {msgs : List Value}

theorem systemParts_names (msgs : List Value) (value : Bytes) :
    ((systemParts msgs value).map Part.name).Sublist [ascii "system"] := by
  rw [systemParts]
  split
  · exact List.nil_sublist _
  · exact List.Sublist.refl _

theorem messagesRest_names
    (headName : head.name = messagesHead bedrock)
    (amongParams : (params.map Part.name).Sublist paramNames)
    (amongTools : (tools.map Part.name).Sublist [ascii "tools", ascii "tool_choice"])
    (messagesName : messages.name = ascii "messages") :
    ((head :: messagesRest maxTokens (systemParts msgs systemValue) params tools messages).map
      Part.name).Sublist (messagesKeys bedrock) := by
  rw [List.map_cons, headName, messagesKeys, messagesRest]
  apply List.Sublist.cons_cons
  simp only [List.map_append, List.map_cons, List.map_nil, messagesName]
  exact (List.Sublist.refl _).append ((systemParts_names msgs systemValue).append
    (amongParams.append (amongTools.append (List.Sublist.refl _))))

/-- The turns and the system text are found under their names. -/
theorem messagesRest_says
    (headName : head.name = messagesHead bedrock)
    (amongParams : (params.map Part.name).Sublist paramNames)
    (amongTools : (tools.map Part.name).Sublist [ascii "tools", ascii "tool_choice"])
    (messagesName : messages.name = ascii "messages")
    (means : messages.means = IsArray ((grouped (turnMessages msgs)).map TurnOf))
    {tree : Rfc8259.Json}
    (isObject : IsObject ((head :: messagesRest maxTokens (systemParts msgs systemValue) params
      tools messages).map Part.field) tree) :
    MessagesBody msgs tree := by
  have shape : (head :: messagesRest maxTokens (systemParts msgs systemValue) params tools
      messages).map Part.field =
      [head.field, (ascii "max_tokens", AnyValue)] ++
        ((systemParts msgs systemValue).map Part.field ++ (params.map Part.field ++
          (tools.map Part.field ++ [messages.field]))) := by
    simp [messagesRest, Part.field]
  have amongHead : ([head.field, (ascii "max_tokens", AnyValue)].map Prod.fst).Sublist
      [messagesHead bedrock, ascii "max_tokens"] := by
    rw [List.map_cons, Part.field, headName]
    exact List.Sublist.refl _
  have amongSystem := fields_names (systemParts msgs systemValue) ▸
    systemParts_names msgs systemValue
  rw [← fields_names] at amongParams amongTools
  rw [shape] at isObject
  constructor
  · have found : ([head.field, (ascii "max_tokens", AnyValue)] ++
        ((systemParts msgs systemValue).map Part.field ++ (params.map Part.field ++
          (tools.map Part.field ++ [messages.field])))).find?
          (fun f => f.1 = ascii "messages") = some messages.field := by
      rw [find_behind amongHead (by cases bedrock <;> decide),
        find_behind amongSystem (by decide), find_behind amongParams (by decide),
        find_behind amongTools (by decide),
        List.find?_cons_of_pos (by simp [Part.field, messagesName])]
    obtain ⟨value, named, meant⟩ := isObject.named found
    rw [Part.field, means] at meant
    exact ⟨value, named, meant⟩
  · rw [systemParts] at isObject
    split
    · rename_i none
      rw [if_pos none] at isObject
      apply isObject.named_none
      intro inside
      have among : (([head.field, (ascii "max_tokens", AnyValue)] ++
          (([] : List Part).map Part.field ++ (params.map Part.field ++
            (tools.map Part.field ++ [messages.field])))).map Prod.fst).Sublist
          ([messagesHead bedrock, ascii "max_tokens"] ++ (paramNames ++
            ([ascii "tools", ascii "tool_choice"] ++ [ascii "messages"]))) := by
        simp only [List.map_append, List.map_nil, List.nil_append]
        refine amongHead.append (amongParams.append (amongTools.append ?_))
        rw [List.map_cons, Part.field, messagesName]
        exact List.Sublist.refl _
      exact absurd (among.subset inside) (by cases bedrock <;> decide)
    · rename_i some
      rw [if_neg some] at isObject
      have found : ([head.field, (ascii "max_tokens", AnyValue)] ++
          ([(⟨ascii "system", systemValue, SystemOf msgs⟩ : Part)].map Part.field ++
            (params.map Part.field ++ (tools.map Part.field ++ [messages.field])))).find?
            (fun f => f.1 = ascii "system") =
          Option.some (Part.field ⟨ascii "system", systemValue, SystemOf msgs⟩) := by
        rw [find_behind amongHead (by cases bedrock <;> decide), List.map_cons, List.cons_append,
          List.find?_cons_of_pos (by rfl)]
      exact isObject.named found

end MessagesRest

/-- The first member of a Messages body differs between the two venues. -/
theorem messagesHead_part {model : Bytes} (chars : IsChars model) (bedrock : Bool) :
    ∃ head : Part, head.Ok ∧ head.name = messagesHead bedrock ∧
      (if bedrock then ascii "\x7b\"anthropic_version\":\"bedrock-2023-05-31\""
        else ascii "\x7b\"model\":" ++ quoted model) =
        0x7b :: (quoted head.name ++ 0x3a :: head.text) := by
  cases bedrock with
  | false =>
      exact ⟨⟨ascii "model", quoted model, AnyValue⟩, Part.ok (by decide)
        ((writes_string chars).mono fun _ _ => trivial).places, rfl, rfl⟩
  | true =>
      have version : (ascii "bedrock-2023-05-31").all isPlain = true := by decide
      exact ⟨⟨ascii "anthropic_version", quoted (ascii "bedrock-2023-05-31"), AnyValue⟩,
        Part.ok (by decide) ((writes_plain version).mono fun _ _ => trivial).places, rfl, rfl⟩

theorem maxTokens_writes {v : Value} (spanned : Spanned v) :
    Writes (maxTokensOf v (ascii "1024")) AnyValue := by
  have number : IsNumber (maxTokensOf v (ascii "1024")) := by
    rcases maxTokensOf_number spanned (ascii "1024") with number | same
    · exact number
    · rw [same]
      exact ⟨[], ascii "1024", [], [], Or.inl rfl, Or.inr ⟨⟨by decide,
        List.all_eq_true.mp (by decide)⟩, by decide⟩, Or.inl rfl, Or.inl rfl, rfl⟩
  exact (writes_number number).mono fun _ _ => trivial

/-- A Messages body has the venue's keys, and says the conversation. -/
theorem writes_messagesBody {v : Value} (spanned : Spanned v) {bedrock : Bool} {model : Bytes}
    (chars : IsChars model) :
    ∀ body ∈ messagesBody v bedrock model, IsBody (messagesKeys bedrock) body ∧
      ∃ msgs, messagesOf v = some msgs ∧ Writes body (MessagesBody msgs) := by
  intro body written
  rw [Option.mem_def, messagesBody] at written
  split at written
  · exact absurd written (by simp)
  rename_i msgs found
  split at written
  · exact absurd written (by simp)
  split at written
  · rename_i systemText paramsText turns systemWritten paramsWritten walked
    rw [Option.some.injEq] at written
    have spannedMsgs := messagesOf_spanned spanned found
    obtain ⟨systemValue, systemShape, okSystem⟩ :=
      writes_system spannedMsgs systemText systemWritten
    obtain ⟨params, paramsShape, okParams, amongParams⟩ :=
      continues_params spanned paramsText paramsWritten
    obtain ⟨tools, toolsShape, okTools, amongTools⟩ := continues_tools spanned
    obtain ⟨head, okHead, headName, headShape⟩ := messagesHead_part chars bedrock
    let messages : Part := ⟨ascii "messages", 0x5b :: (turns.closeResults.out ++ [0x5d]),
      IsArray ((grouped (turnMessages msgs)).map TurnOf)⟩
    have okMessages : messages.Ok :=
      Part.ok (by decide) (writes_messages spannedMsgs walked).places
    have names := @messagesRest_names bedrock head messages (maxTokensOf v (ascii "1024"))
      systemValue params tools msgs headName amongParams amongTools rfl
    have object := @writes_members body head (messagesRest (maxTokensOf v (ascii "1024"))
      (systemParts msgs systemValue) params tools messages) ?_ ?_
      (List.Nodup.sublist names (messagesKeys_nodup bedrock))
    · refine ⟨object.mono fun tree isObject => ?_, msgs, found,
        object.mono fun tree isObject =>
          messagesRest_says headName amongParams amongTools rfl rfl isObject⟩
      obtain ⟨isObject, same⟩ := isObject.names
      refine ⟨isObject, ?_⟩
      rw [same, fields_names]
      exact names
    · rw [← written, headShape, systemShape, paramsShape, toolsShape, Json.objectText,
        messagesRest]
      simp only [Json.moreParts_append, Json.moreParts_cons, Json.moreParts_nil,
        List.append_assoc, List.cons_append, List.nil_append, messages]
      rfl
    · simp only [messagesRest, List.forall_mem_cons, List.forall_mem_append]
      exact ⟨okHead, ⟨Part.ok (by decide) (maxTokens_writes spanned).places, by simp⟩, okSystem,
        okParams, okTools, okMessages, by simp⟩
  · exact absurd written (by simp)

/-! ## Gemini and Cohere -/

/-- What every message keeps, the walk keeps. -/
theorem walkMessages_keeps {σ : Type} {h : Hooks σ} {Keeps : σ → Prop}
    (step : ∀ s m s', Spanned m → Keeps s → walkMessage h s m = some s' → Keeps s')
    {msgs : List Value} (spanned : ∀ m ∈ msgs, Spanned m) {s : σ} (kept : Keeps s) :
    ∀ s' ∈ walkMessages h s msgs, Keeps s' := by
  induction msgs generalizing s with
  | nil =>
      intro s' walked
      rw [walkMessages, Option.mem_some_iff] at walked
      exact walked ▸ kept
  | cons m rest inductionHypothesis =>
      intro s' walked
      rw [Option.mem_def, walkMessages] at walked
      split at walked
      · exact absurd walked (by simp)
      · rename_i next here
        exact inductionHypothesis (fun w member => spanned w (List.mem_cons_of_mem _ member))
          (step s m next (spanned m (List.mem_cons_self ..)) kept here) s' walked

/-- Without hooks for tools a message is a system message or a turn. -/
theorem walkMessage_plain {σ : Type} {h : Hooks σ} (noCalls : h.toolCalls = none)
    (noResults : h.toolResult = none) {s s' : σ} {m : Value}
    (walked : walkMessage h s m = some s') :
    h.system s (m.find (ascii "content")) = some s' ∨
      ∃ assistant, h.turn s assistant (m.find (ascii "content")) = some s' := by
  rw [walkMessage, noCalls, noResults] at walked
  split at walked
  · exact Or.inl walked
  · split at walked
    · exact Or.inr ⟨false, walked⟩
    · split at walked
      · split at walked
        · split at walked
          · exact absurd walked (by simp)
          · exact Or.inr ⟨true, walked⟩
        · exact Or.inr ⟨true, walked⟩
      · split at walked
        · exact absurd walked (by simp)
        · exact absurd walked (by simp)

/-- The output so far is values with commas between them. -/
def Listed (out : Bytes) (first : Bool) : Prop :=
  ∃ texts : List Bytes, out = commaJoin texts ∧ first = texts.isEmpty ∧
    ∀ text ∈ texts, Writes text AnyValue

theorem Listed.nil : Listed [] true :=
  ⟨[], rfl, rfl, by simp⟩

theorem Listed.snoc {out text : Bytes} {first : Bool} (listed : Listed out first)
    (writes : Writes text AnyValue) :
    Listed (out ++ ((if first then [] else ascii ",") ++ text)) false := by
  obtain ⟨texts, rfl, rfl, values⟩ := listed
  refine ⟨texts ++ [text], commaJoin_snoc texts text, by simp, ?_⟩
  intro t member
  rcases List.mem_append.mp member with before | here
  · exact values t before
  · exact List.mem_singleton.mp here ▸ writes

theorem Listed.array {out : Bytes} {first : Bool} (listed : Listed out first) :
    Writes (0x5b :: (out ++ [0x5d])) AnyValue := by
  obtain ⟨texts, rfl, -, values⟩ := listed
  exact writes_values values

/-- The parts of a Gemini content with one text. -/
theorem writes_parts {text : Bytes} (chars : IsChars text) :
    Writes (ascii "[\x7b\"text\":" ++ quoted text ++ ascii "\x7d]") AnyValue := by
  have part : Writes (ascii "\x7b\"text\":" ++ quoted text ++ ascii "\x7d") AnyValue :=
    Continues.object (Continues.nil []) (ascii "text") _ (by decide)
      (writes_string chars).places (by decide) (by simp only [List.append_assoc]; rfl)
  have array := @writes_values [_] fun t member => List.mem_singleton.mp member ▸ part
  convert array using 1
  simp only [commaJoin, List.append_assoc]
  rfl

/-- A Gemini turn. -/
theorem writes_geminiTurn {role text : Bytes} (plain : role.all isPlain = true)
    (chars : IsChars text) :
    Writes (ascii "\x7b\"role\":" ++ quoted role ++
      (ascii ",\"parts\":" ++ (ascii "[\x7b\"text\":" ++ quoted text ++ ascii "\x7d]")) ++
      ascii "\x7d") AnyValue :=
  Continues.object (Continues.member (ascii "parts") _ (by decide) (writes_parts chars).places rfl)
    (ascii "role") _ (by decide) (writes_plain plain).places (by decide)
    (by simp only [List.append_assoc, List.cons_append]; rfl)

/-- What the Gemini turns keep. -/
def GeminiTurns.Keeps (t : GeminiTurns) : Prop :=
  Listed t.out t.first ∧ IsChars t.sys

theorem GeminiTurns.keeps_step (t : GeminiTurns) (m : Value) (t' : GeminiTurns)
    (spanned : Spanned m) (keeps : t.Keeps)
    (walked : walkMessage GeminiTurns.hooks t m = some t') : t'.Keeps := by
  have charsOf : ∀ text ∈ appendText (m.find (ascii "content")), IsChars text :=
    appendText_chars (spannedOption_find spanned _)
  rcases walkMessage_plain rfl rfl walked with system | ⟨assistant, turn⟩
  · obtain ⟨text, written, rfl⟩ := Option.map_eq_some_iff.mp system
    split
    · exact keeps
    · refine ⟨keeps.1, IsChars.append (keeps.2.append ?_) (charsOf text written)⟩
      split
      · exact IsChars.nil
      · exact newline_chars
  · obtain ⟨text, written, rfl⟩ := Option.map_eq_some_iff.mp turn
    have chars := charsOf text written
    split
    · exact keeps
    · refine ⟨?_, keeps.2⟩
      cases assistant with
      | true =>
          have turn := @writes_geminiTurn (ascii "model") text (by decide) chars
          convert keeps.1.snoc turn using 1
          simp only [List.append_assoc]
          rfl
      | false =>
          have turn := @writes_geminiTurn (ascii "user") text (by decide) chars
          convert keeps.1.snoc turn using 1
          simp only [List.append_assoc]
          rfl

/-- What the Cohere turns keep. -/
theorem CohereTurns.put_keeps {t t' : CohereTurns} {m : Value} {role : Bytes}
    (spanned : Spanned m) (plain : role.all isPlain = true) (keeps : Listed t.out t.first)
    (put : t.put role (m.find (ascii "content")) = some t') : Listed t'.out t'.first := by
  obtain ⟨text, written, rfl⟩ := Option.map_eq_some_iff.mp put
  have chars := appendText_chars (spannedOption_find spanned _) text written
  have turn : Writes _ AnyValue :=
    (writes_turn plain (writes_string chars)).mono fun _ _ => trivial
  convert keeps.snoc turn using 1
  simp only [quoted, List.append_assoc, List.cons_append]
  rfl

theorem CohereTurns.keeps_step (t : CohereTurns) (m : Value) (t' : CohereTurns)
    (spanned : Spanned m) (keeps : Listed t.out t.first)
    (walked : walkMessage CohereTurns.hooks t m = some t') : Listed t'.out t'.first := by
  rcases walkMessage_plain rfl rfl walked with system | ⟨assistant, turn⟩
  · exact CohereTurns.put_keeps spanned (by decide) keeps system
  · cases assistant with
    | true => exact CohereTurns.put_keeps spanned (by decide) keeps turn
    | false => exact CohereTurns.put_keeps spanned (by decide) keeps turn

/-- A number the request sets is written as it came. -/
theorem places_number {v : Value} (spanned : Spanned v) (key : Bytes)
    (nonempty : (v.numOr key).bytes.isEmpty = false) :
    Places (v.numOr key).bytes AnyValue := by
  rcases spanned.numOr key {} with number | same
  · exact ((writes_number number).mono fun _ _ => trivial).places
  · rw [same] at nonempty
    exact absurd nonempty (by simp)

theorem places_maxTokens {v : Value} (spanned : Spanned v)
    (nonempty : (maxTokensOf v).isEmpty = false) : Places (maxTokensOf v) AnyValue := by
  rcases maxTokensOf_number spanned [] with number | same
  · exact ((writes_number number).mono fun _ _ => trivial).places
  · rw [same] at nonempty
    exact absurd nonempty (by simp)

/-- The keys of a Gemini body. -/
def geminiKeys : List Bytes :=
  ascii "contents" :: ([ascii "systemInstruction"] ++ [ascii "generationConfig"])

/-- A member of `generationConfig`, or none. -/
theorem configMember_parts {key value : Bytes} (plain : key.all isPlain = true)
    (places : value.isEmpty = false → Places value AnyValue) :
    ∃ parts : List Part, configMember key value = parts.map Part.written ∧
      (∀ p ∈ parts, p.Ok) ∧ (parts.map Part.name).Sublist [key] := by
  rw [configMember]
  split
  · exact ⟨[], rfl, by simp, List.nil_sublist _⟩
  · rename_i nonempty
    refine ⟨[⟨key, value, AnyValue⟩], ?_, ?_, List.Sublist.refl _⟩
    · simp only [List.map_cons, List.map_nil, Part.written, quoted, List.cons_append,
        List.append_assoc]
      rfl
    · intro p member
      rw [List.mem_singleton.mp member]
      exact Part.ok plain (places (by simpa using nonempty))

theorem continues_generationConfig {v : Value} (spanned : Spanned v) :
    Continues (generationConfig v) [ascii "generationConfig"] := by
  obtain ⟨first, firstShape, firstOk, firstAmong⟩ :=
    @configMember_parts (ascii "maxOutputTokens") _ (by decide) (places_maxTokens spanned)
  obtain ⟨second, secondShape, secondOk, secondAmong⟩ :=
    @configMember_parts (ascii "temperature") _ (by decide)
      (places_number spanned (ascii "temperature"))
  obtain ⟨third, thirdShape, thirdOk, thirdAmong⟩ :=
    @configMember_parts (ascii "topP") _ (by decide) (places_number spanned (ascii "top_p"))
  rw [generationConfig, firstShape, secondShape, thirdShape]
  simp only [← List.map_append]
  split
  · exact Continues.nil _
  · have config : Writes
        (0x7b :: (commaJoin ((first ++ second ++ third).map Part.written) ++ [0x7d]))
        AnyValue := by
      have names : ((first ++ second ++ third).map Part.name).Nodup := by
        have all : [ascii "maxOutputTokens", ascii "temperature", ascii "topP"].Nodup := by
          decide
        refine List.Nodup.sublist ?_ all
        rw [List.map_append, List.map_append]
        exact (firstAmong.append secondAmong).append thirdAmong
      refine (Json.writes_object ?_ names).mono fun _ _ => trivial
      intro p member
      rcases List.mem_append.mp member with early | late
      · rcases List.mem_append.mp early with here | here
        · exact firstOk p here
        · exact secondOk p here
      · exact thirdOk p late
    refine Continues.member (ascii "generationConfig") _ (by decide) config.places ?_
    simp only [List.append_assoc]
    rfl

/-- A Gemini body has the venue's keys. -/
theorem isBody_gemini {v : Value} (spanned : Spanned v) {msgs : List Value}
    (found : messagesOf v = some msgs) {turns : GeminiTurns}
    (walked : walkMessages GeminiTurns.hooks {} msgs = some turns) :
    IsBody geminiKeys (ascii "\x7b\"contents\":[" ++ turns.out ++ ascii "]" ++
      (if turns.sys.isEmpty then []
        else ascii ",\"systemInstruction\":\x7b\"parts\":[\x7b\"text\":" ++
          quoted turns.sys ++ ascii "\x7d]\x7d") ++
      generationConfig v ++ ascii "\x7d") := by
  have keeps : turns.Keeps := walkMessages_keeps GeminiTurns.keeps_step
    (messagesOf_spanned spanned found) ⟨Listed.nil, IsChars.nil⟩ turns walked
  have instruction : Writes (ascii "\x7b\"parts\":" ++ (ascii "[\x7b\"text\":" ++
      quoted turns.sys ++ ascii "\x7d]") ++ ascii "\x7d") AnyValue :=
    Continues.object (Continues.nil []) (ascii "parts") _ (by decide)
      (writes_parts keeps.2).places (by decide)
      (by simp only [List.append_assoc]; rfl)
  have system : Continues
      (if turns.sys.isEmpty then []
        else ascii ",\"systemInstruction\":" ++ (ascii "\x7b\"parts\":" ++
          (ascii "[\x7b\"text\":" ++ quoted turns.sys ++ ascii "\x7d]") ++ ascii "\x7d"))
      [ascii "systemInstruction"] :=
    Continues.optional _ _ (by decide) (fun _ => instruction.places) rfl
  have body := @Continues.body ⟨ascii "contents", 0x5b :: (turns.out ++ [0x5d]), AnyValue⟩ _ _
    (system.append (continues_generationConfig spanned))
    (Part.ok (by decide) keeps.1.array.places) (show geminiKeys.Nodup by decide)
  convert body using 1
  cases turns.sys.isEmpty <;>
    simp only [List.append_assoc, List.cons_append, List.nil_append, if_true, if_false,
      Bool.false_eq_true] <;> rfl

/-- The keys of a Cohere body. -/
def cohereKeys : List Bytes :=
  ascii "model" :: ([ascii "messages"] ++ ([ascii "max_tokens"] ++
    ([ascii "temperature"] ++ [ascii "p"])))

theorem continues_numberMember {key value : Bytes} (plain : key.all isPlain = true)
    (places : value.isEmpty = false → Places value AnyValue) :
    Continues (numberMember key value) [key] := by
  rw [numberMember]
  refine Continues.optional key value plain places ?_
  simp only [quoted, List.append_assoc, List.cons_append]
  rfl

/-- A Cohere body has the venue's keys. -/
theorem isBody_cohere {v : Value} (spanned : Spanned v) {model : Bytes}
    (chars : IsChars model) {msgs : List Value} (found : messagesOf v = some msgs)
    {turns : CohereTurns} (walked : walkMessages CohereTurns.hooks {} msgs = some turns) :
    IsBody cohereKeys (ascii "\x7b\"model\":" ++ quoted model ++ ascii ",\"messages\":[" ++
      turns.out ++ ascii "]" ++ numberMember (ascii "max_tokens") (maxTokensOf v) ++
      numberMember (ascii "temperature") (v.numOr (ascii "temperature")).bytes ++
      numberMember (ascii "p") (v.numOr (ascii "top_p")).bytes ++ ascii "\x7d") := by
  have listed : Listed turns.out turns.first :=
    @walkMessages_keeps _ _ (fun t : CohereTurns => Listed t.out t.first)
      CohereTurns.keeps_step _ (messagesOf_spanned spanned found) _ Listed.nil turns walked
  have messages : Continues (ascii ",\"messages\":" ++ (0x5b :: (turns.out ++ [0x5d])))
      [ascii "messages"] :=
    Continues.member _ _ (by decide) listed.array.places rfl
  have numbers := (@continues_numberMember (ascii "max_tokens") _ (by decide)
    (places_maxTokens spanned)).append
    ((@continues_numberMember (ascii "temperature") _ (by decide)
      (places_number spanned (ascii "temperature"))).append
      (@continues_numberMember (ascii "p") _ (by decide)
        (places_number spanned (ascii "top_p"))))
  have body := @Continues.body ⟨ascii "model", quoted model, AnyValue⟩ _ _
    (messages.append numbers)
    (Part.ok (by decide) ((writes_string chars).mono fun _ _ => trivial).places)
    (show cohereKeys.Nodup by decide)
  convert body using 1
  simp only [List.append_assoc, List.cons_append, List.nil_append]
  rfl

/-! ## Every translator -/

/-- The keys a translator's venue has at the top of a body. -/
def Translator.keys : Translator → List Bytes
  | .anthropic => messagesKeys false
  | .bedrock => messagesKeys true
  | .gemini => geminiKeys
  | .cohere => cohereKeys

/-- A call settles with a body of the venue, or with nothing. -/
def SettlesWith (keys : List Bytes) (r : Bool × RequestOut) : Prop :=
  if r.1 then IsBody keys r.2.body else r.2.body = []

theorem settle_with {keys : List Bytes} {o : RequestOut} {body : Option Bytes}
    (isBody : ∀ b ∈ body, IsBody keys b) : SettlesWith keys (o.settle body) := by
  cases body with
  | none => rfl
  | some b => exact isBody b rfl

theorem modelFor_chars {v : Value} (spanned : Spanned v) {o : RequestOut}
    (chars : IsChars o.model) : IsChars (modelFor v o) := by
  rw [modelFor]
  split
  · exact spanned.strOr _
  · exact chars

theorem messagesRequest_settles {v : Value} (spanned : Spanned v) (bedrock : Bool)
    {o : RequestOut} (chars : IsChars o.model) :
    SettlesWith (messagesKeys bedrock) (messagesRequest v bedrock o) := by
  rw [messagesRequest]
  split
  · rfl
  · exact settle_with fun body written =>
      (writes_messagesBody spanned (modelFor_chars spanned chars) body written).1

/-- The turns and the walk behind an accepted body. -/
theorem messagesBody_walked {v : Value} {bedrock : Bool} {model body : Bytes}
    {msgs : List Value} (found : messagesOf v = some msgs)
    (written : messagesBody v bedrock model = some body) :
    ∃ turns, walkMessages AnthropicTurns.hooks {} msgs = some turns := by
  rw [messagesBody, found] at written
  dsimp only at written
  split at written
  · exact absurd written (by simp)
  · split at written
    · rename_i turns _ _ walked
      exact ⟨_, walked⟩
    · exact absurd written (by simp)

/-- The venues that take Anthropic's form. -/
def Translator.isMessages : Translator → Bool
  | .anthropic | .bedrock => true
  | .gemini | .cohere => false

theorem Translator.request_messages {t : Translator} (messages : t.isMessages = true) :
    ∃ bedrock : Bool, t.request = fun v o => messagesRequest v bedrock o := by
  cases t with
  | anthropic => exact ⟨false, rfl⟩
  | bedrock => exact ⟨true, rfl⟩
  | gemini | cohere => exact absurd messages (by decide)

/-- What an accepted body says. -/
theorem Translator.translate_messages
    {t : Translator} (isMessages : t.isMessages = true) {opaqueNames : List Bytes}
    {body model : Bytes} (plain : ∀ c ∈ model, isPlain c = true)
    (accepted : (t.translate opaqueNames body model).1 = true) :
    ∃ msgs turns, messagesOf (Json.parse body .unique opaqueNames).1 = some msgs ∧
      walkMessages AnthropicTurns.hooks {} msgs = some turns ∧
      Writes (t.translate opaqueNames body model).2.body (MessagesBody msgs) := by
  obtain ⟨bedrock, request⟩ := t.request_messages isMessages
  rw [Translator.translate] at accepted ⊢
  dsimp only at accepted ⊢
  split at accepted
  · rename_i ok
    have spanned := Json.spanned_parse ok
    rw [if_pos ok]
    rw [request] at accepted ⊢
    dsimp only at accepted ⊢
    rw [messagesRequest] at accepted ⊢
    split at accepted
    · exact absurd accepted (by simp)
    · rename_i object
      rw [if_neg object]
      cases written : messagesBody (Json.parse body .unique opaqueNames).1 bedrock
          (modelFor (Json.parse body .unique opaqueNames).1 { model := model }) with
      | none =>
          rw [written] at accepted
          exact absurd accepted (by simp [RequestOut.settle])
      | some out =>
          obtain ⟨-, msgs, found, writes⟩ := writes_messagesBody spanned
            (modelFor_chars spanned (IsChars.of_plain plain)) out written
          obtain ⟨turns, walked⟩ := messagesBody_walked found written
          exact ⟨msgs, turns, found, walked, writes⟩
  · exact absurd accepted (by simp)

/-- On a parsed body a translator writes a body of its venue, or nothing. -/
theorem Translator.request_settles (t : Translator) {v : Value} (spanned : Spanned v)
    {o : RequestOut} (chars : IsChars o.model) : SettlesWith t.keys (t.request v o) := by
  cases t with
  | anthropic => exact messagesRequest_settles spanned false chars
  | bedrock => exact messagesRequest_settles spanned true chars
  | gemini =>
      show SettlesWith geminiKeys (geminiRequest v o)
      rw [geminiRequest]
      split
      · rfl
      · apply settle_with
        intro body written
        split at written
        · exact absurd written (by simp)
        · rename_i msgs found
          split at written
          · exact absurd written (by simp)
          · obtain ⟨turns, walked, rfl⟩ := Option.map_eq_some_iff.mp written
            exact isBody_gemini spanned found walked
  | cohere =>
      show SettlesWith cohereKeys (cohereRequest v o)
      rw [cohereRequest]
      split
      · rfl
      · apply settle_with
        intro body written
        split at written
        · exact absurd written (by simp)
        · rename_i msgs found
          split at written
          · exact absurd written (by simp)
          · obtain ⟨turns, walked, rfl⟩ := Option.map_eq_some_iff.mp written
            exact isBody_cohere spanned (modelFor_chars spanned chars) found walked

/-- A translated body is one object with the venue's own keys and no key twice at any
depth, whatever the client sent; a refused one is empty. -/
theorem Translator.translate_wellFormed (t : Translator) (opaqueNames : List Bytes)
    (body model : Bytes) (plain : ∀ c ∈ model, isPlain c = true) :
    ((t.translate opaqueNames body model).1 = true ∧
        ∃ tree : Rfc8259.Json, (t.translate opaqueNames body model).2.body = tree.render ∧
          tree.isObject = true ∧ Json.UniqueKeys tree ∧
          (tree.members.map fun member => member.1.bytes).Sublist t.keys) ∨
      ((t.translate opaqueNames body model).1 = false ∧
        (t.translate opaqueNames body model).2.body = []) := by
  have settles : SettlesWith t.keys (t.translate opaqueNames body model) := by
    rw [Translator.translate]
    dsimp only
    split
    · rename_i ok
      exact t.request_settles (Json.spanned_parse ok) (IsChars.of_plain plain)
    · rfl
  rw [SettlesWith] at settles
  split at settles
  · rename_i accepted
    obtain ⟨tree, shape, unique, object, keys⟩ := settles
    exact Or.inl ⟨accepted, tree, shape, object, unique, keys⟩
  · rename_i refused
    exact Or.inr ⟨by simpa using refused, settles⟩

/-- A request with a turn that carries a breakpoint, and a tool. -/
def toolRequest : Bytes :=
  ascii "\x7b\"messages\":[\x7b\"role\":\"user\",\"content\":[\x7b\"type\":\"text\"," ++
    ascii "\"text\":\"hi\",\"cache_control\":\x7b\"type\":\"ephemeral\"\x7d\x7d]\x7d]," ++
    ascii "\"tools\":[\x7b\"type\":\"function\",\"function\":\x7b\"name\":\"f\"," ++
    ascii "\"parameters\":\x7b\"type\":\"object\"\x7d\x7d\x7d]\x7d"

/-- It is translated with a route's model. -/
theorem Translator.translate_wellFormed_override :
    (Translator.bedrock.translate [] toolRequest (ascii "claude")).1 = true ∧
      ∃ tree : Rfc8259.Json,
        (Translator.bedrock.translate [] toolRequest (ascii "claude")).2.body = tree.render ∧
        tree.isObject = true ∧ Json.UniqueKeys tree ∧
        (tree.members.map fun member => member.1.bytes).Sublist Translator.bedrock.keys :=
  (Translator.translate_wellFormed .bedrock [] toolRequest (ascii "claude")
    (List.all_eq_true.mp (by decide))).resolve_right fun refused =>
      absurd refused.1 (by decide +kernel)

end Translate
end Llmbridge
