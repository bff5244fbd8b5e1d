import Llmbridge.Provider.TranslateRequest

/-!
# Content a request translator refuses

Text is all the request translators carry.  An array with a part that is not typed
as text refuses the request; content that is not an array, and a typed part whose
text is missing or not a string, is read as the empty text instead.
-/

namespace Llmbridge
namespace Translate

open Rfc8259 (Byte Bytes ascii)
open Json (Value)

/-! ## Shapes of content -/

/-- A part the translators take: its type is text. -/
def typedText (part : Value) : Bool :=
  (part.strOr (ascii "type")).bytes = ascii "text"

/-- A part whose text is a string. -/
def hasText (part : Value) : Bool :=
  (part.find (ascii "text")).any fun text => text.type = .string

/-- Content that is all text: absent, null, a string, or text parts. -/
def isTextContent : Option Value → Bool
  | none => true
  | some c =>
      c.type = .null ∨ c.type = .string ∨
        c.type = .array ∧ c.arr.all fun part =>
          part.type = .object && typedText part && hasText part

/-- Content that is read as less than it says: a number, a truth value, an object,
or parts typed as text of which one has no text. -/
def losesContent : Option Value → Bool
  | none => false
  | some c =>
      c.type = .number ∨ c.type = .bool ∨ c.type = .object ∨
        c.type = .array ∧ c.arr.all typedText ∧ ¬ c.arr.all hasText

/-- Every part of an array is typed as text. -/
def typedParts : Option Value → Bool
  | none => true
  | some c => c.type ≠ .array ∨ c.arr.all typedText

/-- A typed text is an object. -/
theorem typedText_object {part : Value} (typed : typedText part = true) :
    part.type = .object := by
  rw [typedText, decide_eq_true_eq, Value.strOr, Value.find] at typed
  by_contra other
  rw [if_neg other] at typed
  exact absurd typed (by decide)

/-- Of the content whose parts are typed as text, all that is not text is lost. -/
theorem isTextContent_iff_of_typed {content : Option Value}
    (typed : typedParts content = true) :
    isTextContent content = true ↔ losesContent content = false := by
  cases content with
  | none => simp [isTextContent, losesContent]
  | some c =>
      cases kind : c.type with
      | array =>
          have all : c.arr.all typedText = true := by
            simpa [typedParts, kind] using typed
          have parts : (c.arr.all fun part =>
              part.type = .object && typedText part && hasText part) = c.arr.all hasText := by
            rw [Bool.eq_iff_iff, List.all_eq_true, List.all_eq_true]
            constructor
            · intro carried part member
              have here := carried part member
              simp only [Bool.and_eq_true] at here
              exact here.2
            · intro texts part member
              have here := List.all_eq_true.mp all part member
              simp [typedText_object here, here, texts part member]
          simp [isTextContent, losesContent, kind, parts, all]
      | null | bool | number | string | object =>
          simp [isTextContent, losesContent, kind]

/-! ## What a walk has read -/

/-- Parts that are read are typed texts. -/
theorem appendParts_typed {parts : List Value} {text : Bytes}
    (read : appendParts parts = some text) : parts.all typedText = true := by
  induction parts generalizing text with
  | nil => rfl
  | cons part rest inductionHypothesis =>
      rw [appendParts] at read
      split at read
      · rename_i typed
        obtain ⟨more, readRest, -⟩ := Option.map_eq_some_iff.mp read
        simp [typedText, typed, inductionHypothesis readRest]
      · exact absurd read (by simp)

/-- So are those of a text that is read. -/
theorem appendText_typed {content : Option Value} {text : Bytes}
    (read : appendText content = some text) : typedParts content = true := by
  cases content with
  | none => rfl
  | some c =>
      cases kind : c.type with
      | array =>
          rw [appendText, if_neg (by simp [kind]), if_pos kind] at read
          simpa [typedParts, kind] using appendParts_typed read
      | null | bool | number | string | object => simp [typedParts, kind]

/-- So are those written as blocks. -/
theorem contentBlocks_typed {parts : List Value} {first : Bool} {blocks : Bytes}
    (read : contentBlocks parts first = some blocks) : parts.all typedText = true := by
  induction parts generalizing first blocks with
  | nil => rfl
  | cons part rest inductionHypothesis =>
      rw [contentBlocks] at read
      split at read
      · exact absurd read (by simp)
      · rename_i typed
        rw [not_not] at typed
        have readRest : ∃ first blocks, contentBlocks rest first = some blocks := by
          split at read
          · exact ⟨first, blocks, read⟩
          · obtain ⟨more, readRest, -⟩ := Option.map_eq_some_iff.mp read
            exact ⟨false, more, readRest⟩
        obtain ⟨_, _, readRest⟩ := readRest
        simp [typedText, typed, inductionHypothesis readRest]

/-- So are those of any content that is read. -/
theorem appendContent_typed {content : Option Value} {text : Bytes}
    (read : appendContent content = some text) : typedParts content = true := by
  rw [appendContent] at read
  split at read
  · exact absurd read (by simp)
  · obtain ⟨text, read, -⟩ := Option.map_eq_some_iff.mp read
    exact appendText_typed read
  · obtain ⟨blocks, read, -⟩ := Option.map_eq_some_iff.mp read
    cases content with
    | none => rfl
    | some c =>
        rw [typedParts, decide_eq_true_eq]
        exact Or.inr (contentBlocks_typed read)

/-- A walk that ends has gone over every message. -/
theorem walkMessages_each {σ : Type} {h : Hooks σ} {msgs : List Value} {s s' : σ}
    (walked : walkMessages h s msgs = some s') :
    ∀ m ∈ msgs, ∃ s₁ s₂, walkMessage h s₁ m = some s₂ := by
  induction msgs generalizing s with
  | nil => simp
  | cons first rest inductionHypothesis =>
      rw [walkMessages] at walked
      split at walked
      · exact absurd walked (by simp)
      · rename_i next here
        intro m member
        cases member with
        | head => exact ⟨s, next, here⟩
        | tail _ later => exact inductionHypothesis walked m later

/-- The hooks read the content of every message that is not a system message. -/
structure Hooks.ReadsContent {σ : Type} (h : Hooks σ) : Prop where
  turn : ∀ s assistant content s', h.turn s assistant content = some s' →
    typedParts content = true
  toolCalls : ∀ call ∈ h.toolCalls, ∀ s content calls s', call s content calls = some s' →
    typedParts content = true
  toolResult : ∀ call ∈ h.toolResult, ∀ s m content s', call s m content = some s' →
    typedParts content = true

/-- A step of the walk has read the content, or handed it to the system hook. -/
theorem Hooks.ReadsContent.step {σ : Type} {h : Hooks σ} (reads : h.ReadsContent)
    {s s' : σ} {m : Value} (walked : walkMessage h s m = some s') :
    (isSystemRole (m.strOr (ascii "role")).bytes = true ∧
        h.system s (m.find (ascii "content")) = some s') ∨
      typedParts (m.find (ascii "content")) = true := by
  rw [walkMessage] at walked
  split at walked
  · rename_i system
    exact Or.inl ⟨system, walked⟩
  · apply Or.inr
    split at walked
    · exact reads.turn _ _ _ _ walked
    · split at walked
      · split at walked
        · split at walked
          · obtain ⟨call, has, walked⟩ := Option.bind_eq_some_iff.mp walked
            exact reads.toolCalls call has _ _ _ _ walked
          · exact reads.turn _ _ _ _ walked
        · exact reads.turn _ _ _ _ walked
      · split at walked
        · obtain ⟨call, has, walked⟩ := Option.bind_eq_some_iff.mp walked
          exact reads.toolResult call has _ _ _ _ walked
        · exact absurd walked (by simp)

/-- The Anthropic translator reads every message's content. -/
theorem AnthropicTurns.hooks_readsContent : AnthropicTurns.hooks.ReadsContent where
  turn := by
    intro t assistant content t' turned
    obtain ⟨text, read, -⟩ := Option.map_eq_some_iff.mp turned
    exact appendContent_typed read
  toolCalls := by
    intro call has t content calls t' called
    obtain rfl := Option.some.inj has
    rw [toolCalls] at called
    split at called
    · exact absurd called (by simp)
    · rename_i text read
      exact appendText_typed read
  toolResult := by
    intro call has t m content t' called
    obtain rfl := Option.some.inj has
    obtain ⟨text, read, -⟩ := Option.map_eq_some_iff.mp called
    exact appendText_typed read

/-- So does the Gemini one. -/
theorem GeminiTurns.hooks_readsContent : GeminiTurns.hooks.ReadsContent where
  turn := by
    intro t assistant content t' turned
    obtain ⟨text, read, -⟩ := Option.map_eq_some_iff.mp turned
    exact appendText_typed read
  toolCalls := by
    intro call has
    exact absurd has (by simp [hooks])
  toolResult := by
    intro call has
    exact absurd has (by simp [hooks])

/-- A turn that is put has typed parts. -/
theorem CohereTurns.put_typed {t t' : CohereTurns} {role : Bytes} {content : Option Value}
    (done : t.put role content = some t') : typedParts content = true := by
  obtain ⟨text, read, -⟩ := Option.map_eq_some_iff.mp done
  exact appendText_typed read

/-- So the Cohere translator reads it too. -/
theorem CohereTurns.hooks_readsContent : CohereTurns.hooks.ReadsContent where
  turn := by
    intro t assistant content t' turned
    exact CohereTurns.put_typed turned
  toolCalls := by
    intro call has
    exact absurd has (by simp [hooks])
  toolResult := by
    intro call has
    exact absurd has (by simp [hooks])

/-- The system texts that are read are typed. -/
theorem systemTexts_typed {msgs : List Value} {first : Bool} {text : Bytes}
    (read : systemTexts msgs first = some text) :
    ∀ m ∈ msgs, typedParts (m.find (ascii "content")) = true := by
  induction msgs generalizing first text with
  | nil => simp
  | cons m rest inductionHypothesis =>
      rw [systemTexts] at read
      split at read
      · exact absurd read (by simp)
      · rename_i here
        obtain ⟨more, readRest, -⟩ := Option.map_eq_some_iff.mp read
        intro other member
        cases member with
        | head => exact appendText_typed here
        | tail _ later => exact inductionHypothesis readRest other later

/-- So are those of every system message. -/
theorem appendSystem_typed {msgs : List Value} {system : Bytes}
    (read : appendSystem msgs = some system) :
    ∀ m ∈ msgs, isSystemRole (m.strOr (ascii "role")).bytes = true →
      typedParts (m.find (ascii "content")) = true := by
  intro m member role
  have hoisted : m ∈ systemMessages msgs := List.mem_filter.mpr ⟨member, role⟩
  rw [appendSystem] at read
  split at read
  · exact absurd read (by simp)
  · split at read
    · rename_i empty
      rw [List.isEmpty_iff.mp empty] at hoisted
      exact absurd hoisted (by simp)
    · obtain ⟨text, joined, -⟩ := Option.map_eq_some_iff.mp read
      exact systemTexts_typed joined m hoisted

/-! ## What an accepted request has read -/

/-- Every message of a request has content whose parts are typed as text. -/
def TypedMessages (v : Value) : Prop :=
  ∀ msgs ∈ messagesOf v, ∀ m ∈ msgs, typedParts (m.find (ascii "content")) = true

/-- Where the system hook reads too, a walk reads every content. -/
theorem walkMessages_typed {σ : Type} {h : Hooks σ} (reads : h.ReadsContent)
    (system : ∀ s content s', h.system s content = some s' → typedParts content = true)
    {msgs : List Value} {s s' : σ} (walked : walkMessages h s msgs = some s') :
    ∀ m ∈ msgs, typedParts (m.find (ascii "content")) = true := by
  intro m member
  obtain ⟨s₁, s₂, here⟩ := walkMessages_each walked m member
  obtain ⟨-, hoisted⟩ | typed := reads.step here
  · exact system s₁ _ s₂ hoisted
  · exact typed

/-- An accepted Anthropic request has typed messages only. -/
theorem messagesRequest_typed {v : Value} {bedrock : Bool} {o : RequestOut}
    (accepted : (messagesRequest v bedrock o).1 = true) : TypedMessages v := by
  intro msgs found m member
  rw [messagesRequest] at accepted
  split at accepted
  · exact absurd accepted (by simp)
  · rw [messagesBody, Option.mem_def.mp found] at accepted
    dsimp only at accepted
    split at accepted
    · exact absurd accepted (by simp [RequestOut.settle])
    · split at accepted
      · rename_i system params turns joined _ walked
        obtain ⟨s₁, s₂, here⟩ := walkMessages_each walked m member
        obtain ⟨role, -⟩ | typed := AnthropicTurns.hooks_readsContent.step here
        · exact appendSystem_typed joined m member role
        · exact typed
      · exact absurd accepted (by simp [RequestOut.settle])

/-- So has an accepted Gemini request. -/
theorem geminiRequest_typed {v : Value} {o : RequestOut}
    (accepted : (geminiRequest v o).1 = true) : TypedMessages v := by
  intro msgs found
  rw [geminiRequest] at accepted
  split at accepted
  · exact absurd accepted (by simp)
  · rw [Option.mem_def.mp found] at accepted
    dsimp only at accepted
    split at accepted
    · exact absurd accepted (by simp [RequestOut.settle])
    · cases walked : walkMessages GeminiTurns.hooks {} msgs with
      | none =>
          rw [walked] at accepted
          exact absurd accepted (by simp [RequestOut.settle])
      | some turns =>
          refine walkMessages_typed GeminiTurns.hooks_readsContent ?_ walked
          intro s content s' hoisted
          obtain ⟨text, read, -⟩ := Option.map_eq_some_iff.mp hoisted
          exact appendText_typed read

/-- So has an accepted Cohere request. -/
theorem cohereRequest_typed {v : Value} {o : RequestOut}
    (accepted : (cohereRequest v o).1 = true) : TypedMessages v := by
  intro msgs found
  rw [cohereRequest] at accepted
  split at accepted
  · exact absurd accepted (by simp)
  · rw [Option.mem_def.mp found] at accepted
    dsimp only at accepted
    split at accepted
    · exact absurd accepted (by simp [RequestOut.settle])
    · cases walked : walkMessages CohereTurns.hooks {} msgs with
      | none =>
          rw [walked] at accepted
          exact absurd accepted (by simp [RequestOut.settle])
      | some turns =>
          exact walkMessages_typed CohereTurns.hooks_readsContent
            (fun _ _ _ done => CohereTurns.put_typed done) walked

/-- A request that a translator accepts has all its parts typed as text. -/
theorem Translator.request_typed (t : Translator) {v : Value} {o : RequestOut}
    (accepted : (t.request v o).1 = true) : TypedMessages v := by
  cases t with
  | anthropic => exact messagesRequest_typed accepted
  | bedrock => exact messagesRequest_typed accepted
  | gemini => exact geminiRequest_typed accepted
  | cohere => exact cohereRequest_typed accepted

/-! ## Lost content -/

/-- A string. -/
def stringValue (text : Bytes) : Value :=
  { type := .string, sv := ⟨0, text⟩ }

/-- An object with these members. -/
def objectValue (members : List (Bytes × Value)) : Value :=
  { type := .object, obj := members.map fun member => (⟨0, member.1⟩, member.2) }

/-- A request with one message. -/
def oneMessage (role : Bytes) (content : Value) : Value :=
  objectValue [
    (ascii "model", stringValue (ascii "m")),
    (ascii "messages",
      { type := .array,
        arr := [objectValue [(ascii "role", stringValue role), (ascii "content", content)]] })]

/-- A role under which a translator reads content as text alone. -/
def Translator.plainRole : Translator → Bytes
  | .anthropic | .bedrock => ascii "tool"
  | .gemini | .cohere => ascii "user"

/-- Typed parts are read. -/
theorem appendParts_of_typed {parts : List Value} (typed : parts.all typedText = true) :
    ∃ text, appendParts parts = some text := by
  induction parts with
  | nil => exact ⟨[], rfl⟩
  | cons part rest inductionHypothesis =>
      rw [List.all_cons, Bool.and_eq_true] at typed
      obtain ⟨text, read⟩ := inductionHypothesis typed.2
      exact ⟨partText part ++ text,
        by rw [appendParts, if_pos (of_decide_eq_true typed.1), read, Option.map_some]⟩

/-- So is a content of them. -/
theorem appendText_of_typed {content : Option Value} (typed : typedParts content = true) :
    ∃ text, appendText content = some text := by
  cases content with
  | none => exact ⟨[], rfl⟩
  | some c =>
      rw [appendText]
      split
      · exact ⟨_, rfl⟩
      · split
        · rename_i array
          rw [typedParts, decide_eq_true_eq] at typed
          exact appendParts_of_typed (typed.resolve_left fun other => other array)
        · exact ⟨_, rfl⟩

/-- A content that is lost is one of typed parts. -/
theorem losesContent_typed {content : Option Value} (loses : losesContent content = true) :
    typedParts content = true := by
  cases content with
  | none => rfl
  | some c =>
      rw [losesContent, decide_eq_true_eq] at loses
      rw [typedParts, decide_eq_true_eq]
      obtain number | bool | object | ⟨-, typed, -⟩ := loses
      · exact Or.inl (by simp [number])
      · exact Or.inl (by simp [bool])
      · exact Or.inl (by simp [object])
      · exact Or.inr typed

/-- The message of `oneMessage`. -/
def messageValue (role : Bytes) (content : Value) : Value :=
  objectValue [(ascii "role", stringValue role), (ascii "content", content)]

/-- One tool message with a readable content is accepted. -/
theorem messagesRequest_oneMessage (bedrock : Bool) {content : Value} {text : Bytes}
    (read : appendText (some content) = some text) :
    (messagesRequest (oneMessage (ascii "tool") content) bedrock {}).1 = true := by
  have found : messagesOf (oneMessage (ascii "tool") content) =
      some [messageValue (ascii "tool") content] := rfl
  have model : (modelFor (oneMessage (ascii "tool") content) {}).isEmpty = false := rfl
  have hoisted : systemMessages [messageValue (ascii "tool") content] = [] := rfl
  have system : appendSystem [messageValue (ascii "tool") content] = some [] := by
    rw [appendSystem, hoisted]
    rfl
  have params : appendParams (oneMessage (ascii "tool") content) = some [] := rfl
  have step : walkMessage AnthropicTurns.hooks {} (messageValue (ascii "tool") content) =
      AnthropicTurns.toolResult {} (messageValue (ascii "tool") content) (some content) := rfl
  rw [messagesRequest, if_neg (by exact fun other => other rfl), messagesBody, found]
  simp only [model, Bool.false_eq_true, if_false, system, params, walkMessages, step,
    AnthropicTurns.toolResult, read, Option.map_some, RequestOut.settle]

/-- Content read as text is accepted under a translator's plain role. -/
theorem Translator.accepts_oneMessage (t : Translator) {content : Value}
    (typed : typedParts (some content) = true) :
    (t.request (oneMessage t.plainRole content) {}).1 = true := by
  obtain ⟨text, read⟩ := appendText_of_typed typed
  cases t with
  | anthropic => exact messagesRequest_oneMessage false read
  | bedrock => exact messagesRequest_oneMessage true read
  | gemini =>
      have found : messagesOf (oneMessage (ascii "user") content) =
          some [messageValue (ascii "user") content] := rfl
      have step : walkMessage GeminiTurns.hooks {} (messageValue (ascii "user") content) =
          GeminiTurns.turn {} false (some content) := rfl
      show (geminiRequest (oneMessage (ascii "user") content) {}).1 = true
      rw [geminiRequest, if_neg (by exact fun other => other rfl), found]
      simp only [show declaresTools (oneMessage (ascii "user") content) = false from rfl,
        Bool.false_eq_true, if_false, walkMessages, step, GeminiTurns.turn, read,
        Option.map_some, RequestOut.settle]
  | cohere =>
      have found : messagesOf (oneMessage (ascii "user") content) =
          some [messageValue (ascii "user") content] := rfl
      have step : walkMessage CohereTurns.hooks {} (messageValue (ascii "user") content) =
          CohereTurns.put {} (ascii "user") (some content) := rfl
      have model : (modelFor (oneMessage (ascii "user") content) {}).isEmpty = false := rfl
      show (cohereRequest (oneMessage (ascii "user") content) {}).1 = true
      rw [cohereRequest, if_neg (by exact fun other => other rfl), found]
      simp only [show declaresTools (oneMessage (ascii "user") content) = false from rfl,
        model, Bool.false_eq_true, or_self, if_false, walkMessages, step, CohereTurns.put, read,
        Option.map_some, RequestOut.settle]

/-! ## Exactly what is lost -/

/-- Content of one shape is refused or carried by a translator, whatever the request
it stands in, exactly when it is not content that is read as less than it says. -/
theorem Translator.carries_content_iff (t : Translator) (content : Value) :
    (∀ (v : Value) (o : RequestOut), (t.request v o).1 = true →
        ∀ msgs ∈ messagesOf v, (∃ m ∈ msgs, m.find (ascii "content") = some content) →
          isTextContent (some content) = true) ↔
      losesContent (some content) = false := by
  constructor
  · intro carries
    by_contra other
    have loses : losesContent (some content) = true := by simpa using other
    have typed := losesContent_typed loses
    have accepted := t.accepts_oneMessage typed
    have isText := carries _ _ accepted [messageValue t.plainRole content] rfl
      ⟨messageValue t.plainRole content, List.mem_singleton.mpr rfl, rfl⟩
    exact other ((isTextContent_iff_of_typed typed).mp isText)
  · intro keeps v o accepted msgs found holds
    obtain ⟨m, member, is⟩ := holds
    have typed := t.request_typed accepted msgs found m member
    rw [is] at typed
    exact (isTextContent_iff_of_typed typed).mpr keeps

/-- A body that a translator accepts has all its parts typed as text. -/
theorem Translator.translate_typed (t : Translator) {opaqueNames : List Bytes}
    {body model : Bytes} (accepted : (t.translate opaqueNames body model).1 = true) :
    TypedMessages (Json.parse body .unique opaqueNames).1 := by
  rw [Translator.translate] at accepted
  dsimp only at accepted
  split at accepted
  · exact t.request_typed accepted
  · exact absurd accepted (by simp)

/-- Content is carried whole or refused exactly when it is not read as less than it
says; and the contents of an accepted body are all text exactly when none is. -/
theorem Translator.keeps_content_iff (t : Translator) :
    (∀ content : Value,
        (∀ (v : Value) (o : RequestOut), (t.request v o).1 = true →
          ∀ msgs ∈ messagesOf v, (∃ m ∈ msgs, m.find (ascii "content") = some content) →
            isTextContent (some content) = true) ↔
          losesContent (some content) = false) ∧
      ∀ (opaqueNames : List Bytes) (body model : Bytes),
        (t.translate opaqueNames body model).1 = true →
          ((∀ msgs ∈ messagesOf (Json.parse body .unique opaqueNames).1, ∀ m ∈ msgs,
              isTextContent (m.find (ascii "content")) = true) ↔
            ∀ msgs ∈ messagesOf (Json.parse body .unique opaqueNames).1, ∀ m ∈ msgs,
              losesContent (m.find (ascii "content")) = false) := by
  refine ⟨t.carries_content_iff, fun opaqueNames body model accepted => ?_⟩
  have typed := t.translate_typed accepted
  constructor
  · intro texts msgs found m member
    exact (isTextContent_iff_of_typed (typed msgs found m member)).mp
      (texts msgs found m member)
  · intro keeps msgs found m member
    exact (isTextContent_iff_of_typed (typed msgs found m member)).mpr
      (keeps msgs found m member)

/-- A prompt of two text parts. -/
def twoParts : Bytes :=
  ascii ("\x7b\"model\":\"m\",\"messages\":[\x7b\"role\":\"user\",\"content\":[" ++
    "\x7b\"type\":\"text\",\"text\":\"a\"\x7d,\x7b\"type\":\"text\",\"text\":\"b\"\x7d]\x7d]\x7d")

/-- A prompt whose content is a number. -/
def numberPrompt : Bytes :=
  ascii "\x7b\"model\":\"m\",\"messages\":[\x7b\"role\":\"user\",\"content\":5\x7d]\x7d"

/-- The same of a body whose content is two text parts. -/
theorem Translator.keeps_content_iff_parts :
    (∀ msgs ∈ messagesOf (Json.parse twoParts .unique kOpaqueRequestMembers).1, ∀ m ∈ msgs,
        isTextContent (m.find (ascii "content")) = true) ↔
      ∀ msgs ∈ messagesOf (Json.parse twoParts .unique kOpaqueRequestMembers).1, ∀ m ∈ msgs,
        losesContent (m.find (ascii "content")) = false :=
  (Translator.keeps_content_iff .anthropic).2 kOpaqueRequestMembers twoParts []
    (by decide +kernel)

/-- A number as the content of a prompt is accepted. -/
theorem Translator.keeps_content_fails_number :
    (Translator.anthropic.translate [] numberPrompt []).1 = true ∧
      ¬ ∀ msgs ∈ messagesOf (Json.parse numberPrompt .unique []).1, ∀ m ∈ msgs,
        isTextContent (m.find (ascii "content")) = true := by
  decide +kernel

end Translate
end Llmbridge
