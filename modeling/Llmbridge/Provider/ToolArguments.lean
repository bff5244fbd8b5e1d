import Llmbridge.Provider.ContentRefused
import Llmbridge.Provider.TranslateRequestCorrect
import Llmbridge.Provider.TranslateResponseCorrect

/-!
# Tool arguments in both directions

A venue states a call's input as an object, OpenAI as a string that holds one.  The
request translators unescape the string and place its bytes; the response translator
escapes the object's span into a string.  Neither changes a byte of the arguments.
-/

namespace Llmbridge
namespace Translate

open Rfc8259
open Json (Value View Spanned Writes Field IsObject IsArray IsString named unescapeString)

/-! ## One object -/

/-- The text is one object that `json::parse` accepts, with or without whitespace
around it. -/
def IsObjectText (o : Bytes) : Prop :=
  (Json.parse o .unique).2 = true ∧ (Json.parse o .unique).1.type = .object

instance (o : Bytes) : Decidable (IsObjectText o) :=
  inferInstanceAs (Decidable (_ ∧ _))

theorem IsObjectText.nonempty {o : Bytes} (object : IsObjectText o) : o ≠ [] := by
  rintro rfl
  exact absurd object (by decide +kernel)

/-- The arguments are taken as they decode. -/
theorem appendArguments_object {o raw : Bytes} (object : IsObjectText o)
    (decodes : unescapeString raw = o) : appendArguments raw = some o := by
  rw [appendArguments, decodes, if_neg (by simpa using object.nonempty)]
  exact if_pos object

/-- Arguments that are neither nothing nor one object are refused. -/
theorem appendArguments_refused {raw : Bytes} (given : unescapeString raw ≠ [])
    (other : ¬ ∃ text : Text, unescapeString raw = text.render ∧ text.value.isObject = true) :
    appendArguments raw = none := by
  cases written : appendArguments raw with
  | none => rfl
  | some input =>
      obtain ⟨-, placed, -, -, text, same, isObject, shape⟩ :=
        places_arguments input (Option.mem_def.mpr written)
      rw [decodedArguments, if_neg (by simpa using given)] at shape
      exact absurd ⟨text, shape.symm, by rw [same]; exact isObject⟩ other

/-! ## The blocks of a request -/

/-- The raw contents of a string; empty for anything else. -/
def stringOf : Option Rfc8259.Json → Bytes
  | some (.string s) => s.bytes
  | _ => []

theorem stringOf_isString {raw : Bytes} {tree : Rfc8259.Json} (string : IsString raw tree) :
    stringOf (some tree) = raw := by
  obtain ⟨s, rfl, same⟩ := string
  exact same

/-- The elements of a member. -/
def elementsOf (name : Bytes) (tree : Rfc8259.Json) : List Rfc8259.Json :=
  (named name tree).elim [] Rfc8259.Json.elements

/-- The texts of the `tool_use` blocks among these values. -/
def toolUsesIn (blocks : List Rfc8259.Json) : List Bytes :=
  (blocks.filter fun block =>
    stringOf (named (ascii "type") block) = ascii "tool_use").map Rfc8259.Json.render

/-- The texts of the `tool_use` blocks of a request in Anthropic's form, in order. -/
def toolUseTexts (tree : Rfc8259.Json) : List Bytes :=
  (elementsOf (ascii "messages") tree).flatMap fun turn =>
    toolUsesIn (elementsOf (ascii "content") turn)

/-- The calls of a message of the assistant that have a name. -/
def assistantCalls (m : Value) : List Value :=
  if roleOf m = ascii "assistant" then namedCalls ((callsOf m).getD []) else []

/-- The block a call becomes. -/
def callText (call : Value) : Bytes :=
  toolUseText (call.strOr (ascii "id")).bytes (callName call)
    (decodedArguments (callArguments call))

theorem type_of_fields {type : Bytes} {fields : List Field} {tree : Rfc8259.Json}
    (isObject : IsObject ((ascii "type", IsString type) :: fields) tree) :
    stringOf (named (ascii "type") tree) = type := by
  obtain ⟨value, found, string⟩ := @IsObject.named _ tree isObject (ascii "type")
    (ascii "type", IsString type) (List.find?_cons_of_pos (by simp))
  rw [found]
  exact stringOf_isString string

/-- Values of other types are no `tool_use` blocks. -/
theorem toolUsesIn_others {means : List (Rfc8259.Json → Prop)} {blocks : List Rfc8259.Json}
    (related : List.Forall₂ (fun (mean : Rfc8259.Json → Prop) block => mean block) means blocks)
    (others : ∀ mean ∈ means, ∀ block, mean block →
      stringOf (named (ascii "type") block) ≠ ascii "tool_use") :
    toolUsesIn blocks = [] := by
  unfold toolUsesIn
  induction related with
  | nil => rfl
  | @cons mean block means blocks here _ inductionHypothesis =>
      rw [List.filter_cons_of_neg
        (by simpa using others mean (List.mem_cons_self ..) block here)]
      exact inductionHypothesis fun m member => others m (List.mem_cons_of_mem _ member)

theorem toolUsesIn_calls {calls : List Value} {blocks : List Rfc8259.Json}
    (related : List.Forall₂ (fun (mean : Rfc8259.Json → Prop) block => mean block)
      (calls.map ToolUseOf) blocks) :
    toolUsesIn blocks = calls.map callText := by
  unfold toolUsesIn
  rw [List.forall₂_map_left_iff] at related
  induction related with
  | nil => rfl
  | @cons call block calls blocks here _ inductionHypothesis =>
      rw [List.filter_cons_of_pos (by simpa using type_of_fields here.fields), List.map_cons,
        inductionHypothesis, here.text]
      rfl

theorem toolUsesIn_append (front back : List Rfc8259.Json) :
    toolUsesIn (front ++ back) = toolUsesIn front ++ toolUsesIn back := by
  simp [toolUsesIn]

/-- A content has no `tool_use` block. -/
theorem toolUsesIn_content {c : Option Value} {tree : Rfc8259.Json} (content : ContentOf c tree) :
    toolUsesIn tree.elements = [] := by
  rw [ContentOf] at content
  split at content
  · obtain ⟨blocks, rfl, related⟩ := content
    rw [Rfc8259.Json.elements_ofElements]
    apply toolUsesIn_others related
    intro mean member block meant
    obtain ⟨part, -, rfl⟩ := List.mem_map.mp member
    rw [textFields] at meant
    rw [type_of_fields meant]
    decide
  · obtain ⟨text, -, s, rfl, -⟩ := content
    rfl

/-- The content of a message with calls has one `tool_use` block for each named
call. -/
theorem toolUsesIn_calls_content {c : Option Value} {calls : List Value} {tree : Rfc8259.Json}
    (content : CallsOf c calls tree) :
    toolUsesIn tree.elements = (namedCalls calls).map callText := by
  obtain ⟨text, -, blocks, rfl, related⟩ := content
  rw [Rfc8259.Json.elements_ofElements]
  cases empty : text.isEmpty with
  | true =>
      rw [empty, if_pos rfl, List.nil_append] at related
      exact toolUsesIn_calls related
  | false =>
      rw [empty, if_neg (by simp), List.singleton_append] at related
      cases related with
      | @cons _ block _ blocks here rest =>
          have text : toolUsesIn [block] = [] := by
            apply toolUsesIn_others (List.Forall₂.cons here List.Forall₂.nil)
            intro mean member other meant
            rw [List.mem_singleton.mp member, textFields] at meant
            rw [type_of_fields meant]
            decide
          rw [← List.singleton_append, toolUsesIn_append, text, List.nil_append]
          exact toolUsesIn_calls rest

/-- The `tool_use` blocks a turn should have. -/
def Group.toolUses : Group → List Bytes
  | .results _ => []
  | .message m => (assistantCalls m).map callText

theorem elementsOf_named {name : Bytes} {tree value : Rfc8259.Json}
    (found : named name tree = some value) : elementsOf name tree = value.elements := by
  rw [elementsOf, found]
  rfl

/-- The `tool_use` blocks of a turn are those of its message. -/
theorem toolUsesIn_turn {g : Group} {turn : Rfc8259.Json} (turnOf : TurnOf g turn) :
    toolUsesIn (elementsOf (ascii "content") turn) = g.toolUses := by
  cases g with
  | results ms =>
      obtain ⟨content, found, blocks, rfl, related⟩ := @IsObject.named _ turn turnOf
        (ascii "content") (ascii "content", IsArray (ms.map ResultOf)) (by rfl)
      rw [elementsOf_named found, Rfc8259.Json.elements_ofElements]
      apply toolUsesIn_others related
      intro mean member block meant
      obtain ⟨m, -, rfl⟩ := List.mem_map.mp member
      rw [type_of_fields meant]
      decide
  | message m =>
      obtain ⟨content, found, means⟩ := @IsObject.named _ turn turnOf
        (ascii "content") (ascii "content", TurnContent m) (by rfl)
      dsimp only at means
      rw [elementsOf_named found, Group.toolUses, assistantCalls]
      rw [TurnContent] at means
      cases given : callsOf m with
      | none =>
          rw [given] at means
          rw [toolUsesIn_content means]
          split <;> rfl
      | some calls =>
          rw [given] at means
          dsimp only at means
          split at means
          · rename_i assistant
            rw [if_pos assistant]
            exact toolUsesIn_calls_content means
          · rename_i other
            rw [if_neg other, toolUsesIn_content means]
            rfl

theorem toolUses_withResults (ms : List Value) (groups : List Group) :
    (withResults ms groups).flatMap Group.toolUses = groups.flatMap Group.toolUses := by
  cases groups with
  | nil => rfl
  | cons g groups =>
      cases g with
      | results more => rfl
      | message m => rfl

/-- Messages in turns have the calls of the messages, in order. -/
theorem toolUses_grouped (msgs : List Value) :
    (grouped msgs).flatMap Group.toolUses =
      msgs.flatMap fun m => (assistantCalls m).map callText := by
  induction msgs with
  | nil => rfl
  | cons m rest inductionHypothesis =>
      rw [grouped, List.flatMap_cons, ← inductionHypothesis]
      split
      · rename_i tool
        have none : assistantCalls m = [] := by
          rw [assistantCalls, if_neg (by rw [tool]; decide)]
        rw [toolUses_withResults, none]
        rfl
      · rw [List.flatMap_cons]
        rfl

/-- System messages call nothing. -/
theorem toolUses_turnMessages (msgs : List Value) :
    ((turnMessages msgs).flatMap fun m => (assistantCalls m).map callText) =
      msgs.flatMap fun m => (assistantCalls m).map callText := by
  induction msgs with
  | nil => rfl
  | cons m rest inductionHypothesis =>
      rw [turnMessages] at inductionHypothesis ⊢
      cases system : isSystemRole (roleOf m) with
      | true =>
          have none : assistantCalls m = [] := by
            rw [assistantCalls, if_neg]
            intro assistant
            rw [assistant] at system
            exact absurd system (by decide)
          rw [List.filter_cons_of_neg (by simp [system]), inductionHypothesis,
            List.flatMap_cons, none]
          rfl
      | false =>
          rw [List.filter_cons_of_pos (by simp [system]), List.flatMap_cons,
            inductionHypothesis, List.flatMap_cons]

theorem toolUses_turns {groups : List Group} {turns : List Rfc8259.Json}
    (related : List.Forall₂ TurnOf groups turns) :
    (turns.flatMap fun turn => toolUsesIn (elementsOf (ascii "content") turn)) =
      groups.flatMap Group.toolUses := by
  induction related with
  | nil => rfl
  | cons here _ inductionHypothesis =>
      rw [List.flatMap_cons, List.flatMap_cons, toolUsesIn_turn here, inductionHypothesis]

/-- A Messages body has one `tool_use` block for each named call of the assistant's
messages, in order, and each holds the arguments as they decode. -/
theorem toolUseTexts_messages {msgs : List Value} {tree : Rfc8259.Json}
    (body : MessagesBody msgs tree) :
    toolUseTexts tree = msgs.flatMap fun m => (assistantCalls m).map callText := by
  obtain ⟨messages, found, turns, rfl, related⟩ := body.messages
  rw [toolUseTexts, elementsOf_named found, Rfc8259.Json.elements_ofElements,
    ← toolUses_turnMessages, ← toolUses_grouped]
  rw [List.forall₂_map_left_iff] at related
  exact toolUses_turns related

/-! ## What is refused -/

/-- A call with a name is written only when its arguments are taken. -/
theorem toolUse_named {call : Value} (name : callName call ≠ []) {block : Option Bytes}
    (used : AnthropicTurns.toolUse call = some block) :
    ∃ input, appendArguments (callArguments call) = some input := by
  rw [AnthropicTurns.toolUse] at used
  rw [callName] at name
  cases found : call.find (ascii "function") with
  | none =>
      rw [found] at name
      exact absurd rfl name
  | some fn =>
      rw [found] at used name
      dsimp only [Option.elim] at used name
      rw [if_neg (by simpa using name)] at used
      obtain ⟨input, taken, -⟩ := Option.map_eq_some_iff.mp used
      refine ⟨input, ?_⟩
      rw [callArguments, found]
      exact taken

theorem toolUses_taken {calls : List Value} {any : Bool} {blocks : Bytes}
    (used : AnthropicTurns.toolUses calls any = some blocks) :
    ∀ call ∈ namedCalls calls, ∃ input, appendArguments (callArguments call) = some input := by
  induction calls generalizing any blocks with
  | nil => simp [namedCalls]
  | cons first rest inductionHypothesis =>
      rw [AnthropicTurns.toolUses] at used
      cases here : AnthropicTurns.toolUse first with
      | none => simp [here] at used
      | some block =>
          have later : ∃ any blocks, AnthropicTurns.toolUses rest any = some blocks := by
            rw [here] at used
            cases block with
            | none => exact ⟨any, blocks, used⟩
            | some block =>
                obtain ⟨more, usedMore, -⟩ := Option.map_eq_some_iff.mp used
                exact ⟨true, more, usedMore⟩
          obtain ⟨_, _, later⟩ := later
          intro call member
          obtain ⟨inside, name⟩ := List.mem_filter.mp member
          rcases List.mem_cons.mp inside with rfl | rest
          · exact toolUse_named (by simpa using name) here
          · exact inductionHypothesis later call (List.mem_filter.mpr ⟨rest, name⟩)

/-- A step over a message of the assistant has taken the arguments of its calls. -/
theorem walkMessage_taken {t t' : AnthropicTurns} {m : Value}
    (walked : walkMessage AnthropicTurns.hooks t m = some t') :
    ∀ call ∈ assistantCalls m, ∃ input, appendArguments (callArguments call) = some input := by
  intro call member
  rw [assistantCalls] at member
  split at member
  · rename_i assistant
    cases given : callsOf m with
    | none =>
        rw [given] at member
        exact absurd member (by simp [namedCalls])
    | some calls =>
        rw [given] at member
        obtain ⟨value, filtered, same⟩ := Option.map_eq_some_iff.mp given
        obtain ⟨found, isCalls⟩ := Option.filter_eq_some_iff.mp filtered
        rw [walkMessage, ← roleOf, assistant, if_neg (by decide), if_neg (by decide),
          if_pos rfl, found] at walked
        dsimp only at walked
        rw [if_pos (by simpa using isCalls)] at walked
        change AnthropicTurns.toolCalls t (m.find (ascii "content")) value = some t' at walked
        rw [AnthropicTurns.toolCalls] at walked
        split at walked
        · exact absurd walked (by simp)
        · obtain ⟨blocks, used, -⟩ := Option.map_eq_some_iff.mp walked
          rw [same] at used
          exact toolUses_taken used call member
  · exact absurd member (by simp)

/-- An accepted request has taken the arguments of every call. -/
theorem messagesRequest_taken {v : Value} {bedrock : Bool} {o : RequestOut}
    (accepted : (messagesRequest v bedrock o).1 = true) :
    ∀ msgs ∈ messagesOf v, ∀ m ∈ msgs, ∀ call ∈ assistantCalls m,
      ∃ input, appendArguments (callArguments call) = some input := by
  intro msgs found m member
  rw [messagesRequest] at accepted
  split at accepted
  · exact absurd accepted (by simp)
  · rw [messagesBody, Option.mem_def.mp found] at accepted
    dsimp only at accepted
    split at accepted
    · exact absurd accepted (by simp [RequestOut.settle])
    · split at accepted
      · rename_i system params turns joined _ walked
        obtain ⟨s₁, s₂, here⟩ := walkMessages_each walked m member
        exact walkMessage_taken here
      · exact absurd accepted (by simp [RequestOut.settle])

/-- Arguments that decode to something that is not one object refuse the request. -/
theorem Translator.translate_refuses_arguments
    {t : Translator} (isMessages : t.isMessages = true) {opaqueNames : List Bytes}
    {body model : Bytes} {msgs : List Value} {m call : Value}
    (found : messagesOf (Json.parse body .unique opaqueNames).1 = some msgs) (member : m ∈ msgs)
    (calls : call ∈ assistantCalls m) (given : unescapeString (callArguments call) ≠ [])
    (other : ¬ ∃ text : Text, unescapeString (callArguments call) = text.render ∧
      text.value.isObject = true) :
    (t.translate opaqueNames body model).1 = false := by
  obtain ⟨bedrock, request⟩ := t.request_messages isMessages
  by_contra notRefused
  have accepted : (t.translate opaqueNames body model).1 = true := by simpa using notRefused
  rw [Translator.translate] at accepted
  dsimp only at accepted
  split at accepted
  · rw [request] at accepted
    obtain ⟨input, taken⟩ := messagesRequest_taken accepted msgs found m member call calls
    rw [appendArguments_refused given other] at taken
    exact absurd taken (by simp)
  · exact absurd accepted (by simp)

/-! ## The calls of a reply -/

/-- The raw `arguments` of the calls in a completion, in order. -/
def argumentLiterals (tree : Rfc8259.Json) : List Bytes :=
  (elementsOf (ascii "choices") tree).flatMap fun choice =>
    ((named (ascii "message") choice).elim [] (elementsOf (ascii "tool_calls"))).map fun call =>
      stringOf ((named (ascii "function") call).bind (named (ascii "arguments")))

theorem literal_toolCall {block : Value} {call : Rfc8259.Json} (toolCall : ToolCallOf block call) :
    stringOf ((named (ascii "function") call).bind (named (ascii "arguments"))) =
      (inputSpan block).flatMap escapedByte := by
  obtain ⟨function, found, isFunction⟩ := @IsObject.named _ call toolCall (ascii "function")
    (ascii "function", FunctionOf block) (by rfl)
  obtain ⟨arguments, inside, string⟩ := @IsObject.named _ function isFunction
    (ascii "arguments") (ascii "arguments", IsString ((inputSpan block).flatMap escapedByte))
    (by rfl)
  rw [found, Option.bind_some, inside]
  exact stringOf_isString string

theorem literals_toolCalls {blocks : List Value} {calls : List Rfc8259.Json}
    (related : List.Forall₂ ToolCallOf blocks calls) :
    (calls.map fun call =>
      stringOf ((named (ascii "function") call).bind (named (ascii "arguments")))) =
      blocks.map fun block => (inputSpan block).flatMap escapedByte := by
  induction related with
  | nil => rfl
  | cons here _ inductionHypothesis =>
      rw [List.map_cons, List.map_cons, literal_toolCall here, inductionHypothesis]

theorem toolCalls_message {blocks : List Value} {message : Rfc8259.Json}
    (reply : ReplyMessage blocks message) :
    ∃ calls, elementsOf (ascii "tool_calls") message = calls ∧
      List.Forall₂ ToolCallOf (toolBlocks blocks) calls := by
  cases empty : (toolBlocks blocks).isEmpty with
  | true =>
      rw [ReplyMessage, empty, if_pos rfl] at reply
      have absent : named (ascii "tool_calls") message = none :=
        reply.named_none (show ascii "tool_calls" ∉ [ascii "role", ascii "content"] by decide)
      refine ⟨[], ?_, ?_⟩
      · rw [elementsOf, absent]
        rfl
      · rw [List.isEmpty_iff.mp empty]
        exact List.Forall₂.nil
  | false =>
      rw [ReplyMessage, empty, if_neg (by simp)] at reply
      obtain ⟨value, found, calls, rfl, related⟩ := @IsObject.named _ message reply
        (ascii "tool_calls")
        (ascii "tool_calls", IsArray ((toolBlocks blocks).map ToolCallOf)) (by rfl)
      rw [List.forall₂_map_left_iff] at related
      refine ⟨calls, ?_, related⟩
      rw [elementsOf_named found, Rfc8259.Json.elements_ofElements]

/-- A completion with this message has these arguments, one for each call. -/
theorem literals_completion {blocks : List Value} {id model finish : Bytes} {now : Int}
    {usage : OpenAi.Usage} {total : Int} {tree : Rfc8259.Json}
    (completion : CompletionOf id model (ReplyMessage blocks) finish now usage total tree) :
    argumentLiterals tree =
      (toolBlocks blocks).map fun block => (inputSpan block).flatMap escapedByte := by
  obtain ⟨choices, found, elements, rfl, related⟩ := @IsObject.named _ tree completion
    (ascii "choices") (ascii "choices", IsArray [ChoiceOf (ReplyMessage blocks) finish]) (by rfl)
  rw [argumentLiterals, elementsOf_named found, Rfc8259.Json.elements_ofElements]
  cases related with
  | @cons _ choice _ rest here none =>
      cases none
      obtain ⟨message, inside, reply⟩ := @IsObject.named _ choice here (ascii "message")
        (ascii "message", ReplyMessage blocks) (by rfl)
      obtain ⟨calls, same, relatedCalls⟩ := toolCalls_message reply
      rw [List.flatMap_singleton, inside]
      dsimp only [Option.elim]
      rw [same]
      exact literals_toolCalls relatedCalls

/-- What a reply's input becomes. -/
theorem inputSpan_of_find {block input : Value} (found : block.find (ascii "input") = some input)
    (given : input.sv.bytes ≠ []) : inputSpan block = input.sv.bytes := by
  rw [inputSpan, found, Option.filter_some, if_pos (by simpa using given)]

/-- The `arguments` of a reply, each of which decodes to the input of its block. -/
theorem argumentLiterals_reply {now : Int} {body : Bytes} {v : Value}
    (parsed : parseObject body = some v)
    (accepted : (anthropicToOpenaiResponse now body).ok = true) :
    ∃ tree : Rfc8259.Json, (anthropicToOpenaiResponse now body).out = tree.render ∧
      argumentLiterals tree = (toolBlocks (arrayOf (v.find (ascii "content")))).map fun block =>
        (inputSpan block).flatMap escapedByte := by
  obtain ⟨id, model, finish, tree, shape, -, completion⟩ :=
    anthropic_completes now body parsed accepted
  exact ⟨tree, shape, literals_completion completion⟩

/-! ## Both directions -/

/-- Arguments that are one object are placed in a request byte for byte, and an input
that is one object comes back from a reply as a string that decodes to it; arguments
that are neither empty nor one object refuse the request. -/
theorem arguments_survive (o : Bytes) (object : IsObjectText o) :
    (∀ raw, unescapeString raw = o → appendArguments raw = some o ∧ decodedArguments raw = o) ∧
      (∀ (t : Translator) (opaqueNames : List Bytes) (body model : Bytes),
        t.isMessages = true → (∀ c ∈ model, isPlain c = true) →
        (t.translate opaqueNames body model).1 = true →
        ∃ (msgs : List Value) (tree : Rfc8259.Json),
          messagesOf (Json.parse body .unique opaqueNames).1 = some msgs ∧
          (t.translate opaqueNames body model).2.body = tree.render ∧
          toolUseTexts tree = msgs.flatMap fun m => (assistantCalls m).map callText) ∧
      (∀ (now : Int) (body : Bytes) (v : Value), parseObject body = some v →
        (anthropicToOpenaiResponse now body).ok = true →
        ∃ tree : Rfc8259.Json, (anthropicToOpenaiResponse now body).out = tree.render ∧
          (argumentLiterals tree).map unescapeString =
            (toolBlocks (arrayOf (v.find (ascii "content")))).map inputSpan ∧
          ∀ block ∈ toolBlocks (arrayOf (v.find (ascii "content"))), ∀ input,
            block.find (ascii "input") = some input → input.sv.bytes = o →
            ∃ literal ∈ argumentLiterals tree,
              unescapeString literal = o ∧ appendArguments literal = some o) ∧
      ∀ (t : Translator) (opaqueNames : List Bytes) (body model : Bytes) (msgs : List Value)
        (m call : Value), t.isMessages = true →
        messagesOf (Json.parse body .unique opaqueNames).1 = some msgs → m ∈ msgs →
        call ∈ assistantCalls m → unescapeString (callArguments call) ≠ [] →
        (¬ ∃ text : Text, unescapeString (callArguments call) = text.render ∧
          text.value.isObject = true) →
        (t.translate opaqueNames body model).1 = false := by
  refine ⟨?_, ?_, ?_, ?_⟩
  · intro raw decodes
    refine ⟨appendArguments_object object decodes, ?_⟩
    rw [decodedArguments, decodes, if_neg (by simpa using object.nonempty)]
  · intro t opaqueNames body model isMessages plain accepted
    obtain ⟨msgs, turns, found, -, tree, shape, -, messages⟩ :=
      t.translate_messages isMessages plain accepted
    exact ⟨msgs, tree, found, shape, toolUseTexts_messages messages⟩
  · intro now body v parsed accepted
    obtain ⟨tree, shape, literals⟩ := argumentLiterals_reply parsed accepted
    refine ⟨tree, shape, ?_, ?_⟩
    · rw [literals, List.map_map]
      apply List.map_congr_left
      intro block _
      exact unescapeString_escaped (inputSpan block)
    · intro block member input found same
      have span : inputSpan block = o := by
        rw [inputSpan_of_find found (by rw [same]; exact object.nonempty), same]
      have decodes : unescapeString ((inputSpan block).flatMap escapedByte) = o := by
        rw [unescapeString_escaped, span]
      refine ⟨(inputSpan block).flatMap escapedByte, ?_, decodes,
        appendArguments_object object decodes⟩
      rw [literals]
      exact List.mem_map_of_mem member
  · intro t opaqueNames body model msgs m call isMessages found member calls given other
    exact t.translate_refuses_arguments isMessages found member calls given other

/-- The same of an object with an escape in it. -/
theorem arguments_survive_escape :
    IsObjectText (ascii "\x7b\"q\":\"a\\nb\"\x7d") ∧
      ∀ raw, unescapeString raw = ascii "\x7b\"q\":\"a\\nb\"\x7d" →
        appendArguments raw = some (ascii "\x7b\"q\":\"a\\nb\"\x7d") ∧
          decodedArguments raw = ascii "\x7b\"q\":\"a\\nb\"\x7d" :=
  ⟨by decide +kernel,
    (arguments_survive (ascii "\x7b\"q\":\"a\\nb\"\x7d") (by decide +kernel)).1⟩

end Translate
end Llmbridge
