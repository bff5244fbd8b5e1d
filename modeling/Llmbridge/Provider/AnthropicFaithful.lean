import Llmbridge.Provider.ContentRefused
import Llmbridge.Provider.JsonUnescape
import Llmbridge.Provider.TranslateRequestCorrect

/-!
# The conversation an Anthropic request holds

What a faithful rendering of a conversation is, said of the output's tree without the
walk: its turns, the text of each, and the breakpoints of the parts.  The walk writes
that, unless a breakpoint stands in a tool result or beside tool calls, where content
is flattened and the breakpoint lost.
-/

namespace Llmbridge
namespace Translate

open Rfc8259
open Json (Value View Spanned Writes Field IsObject IsArray IsString IsSpan named
  unescapeString)

/-! ## Groups -/

/-- The messages of a turn. -/
def Group.messages : Group → List Value
  | .results ms => ms
  | .message m => [m]

/-- A turn of results. -/
def Group.isResults : Group → Bool
  | .results _ => true
  | .message _ => false

/-- The messages in order, every maximal run of tool messages a group of its own. -/
structure Grouping (msgs : List Value) (groups : List Group) : Prop where
  messages : groups.flatMap Group.messages = msgs
  results : ∀ ms, .results ms ∈ groups → ms ≠ [] ∧ ∀ m ∈ ms, roleOf m = ascii "tool"
  message : ∀ m, .message m ∈ groups → roleOf m ≠ ascii "tool"
  maximal : groups.IsChain fun g h => ¬ (g.isResults = true ∧ h.isResults = true)

theorem Grouping.withResult {m : Value} {msgs : List Value} {groups : List Group}
    (grouping : Grouping msgs groups) (tool : roleOf m = ascii "tool") :
    Grouping (m :: msgs) (withResults [m] groups) := by
  cases groups with
  | nil =>
      refine ⟨?_, ?_, ?_, ?_⟩
      · rw [← grouping.messages]
        rfl
      · intro ms member
        rw [withResults, List.mem_singleton, Group.results.injEq] at member
        · subst member
          exact ⟨by simp, by simpa using tool⟩
        · simp
      · intro other member
        rw [withResults, List.mem_singleton] at member
        · exact absurd member (by simp)
        · simp
      · exact List.IsChain.singleton _
  | cons g groups =>
      cases g with
      | results more =>
          have here := grouping.results more (List.mem_cons_self ..)
          refine ⟨?_, ?_, ?_, ?_⟩
          · rw [← grouping.messages]
            rfl
          · intro ms member
            rcases List.mem_cons.mp member with same | later
            · rw [Group.results.injEq] at same
              subst same
              exact ⟨by simp, List.forall_mem_cons.mpr ⟨tool, here.2⟩⟩
            · exact grouping.results ms (List.mem_cons_of_mem _ later)
          · intro other member
            rcases List.mem_cons.mp member with same | later
            · exact absurd same (by simp)
            · exact grouping.message other (List.mem_cons_of_mem _ later)
          · have chain := grouping.maximal
            cases groups with
            | nil => exact List.IsChain.singleton _
            | cons h groups =>
                rw [List.isChain_cons_cons] at chain
                exact List.IsChain.cons_cons chain.1 chain.2
      | message w =>
          refine ⟨?_, ?_, ?_, ?_⟩
          · rw [← grouping.messages]
            rfl
          · intro ms member
            rcases List.mem_cons.mp member with same | later
            · rw [Group.results.injEq] at same
              subst same
              exact ⟨by simp, by simpa using tool⟩
            · exact grouping.results ms later
          · intro other member
            rcases List.mem_cons.mp member with same | later
            · exact absurd same (by simp)
            · exact grouping.message other later
          · exact List.IsChain.cons_cons (by simp [Group.isResults]) grouping.maximal

theorem Grouping.withMessage {m : Value} {msgs : List Value} {groups : List Group}
    (grouping : Grouping msgs groups) (notTool : roleOf m ≠ ascii "tool") :
    Grouping (m :: msgs) (.message m :: groups) := by
  refine ⟨?_, ?_, ?_, ?_⟩
  · rw [← grouping.messages]
    rfl
  · intro ms member
    rcases List.mem_cons.mp member with same | later
    · exact absurd same (by simp)
    · exact grouping.results ms later
  · intro other member
    rcases List.mem_cons.mp member with same | later
    · rw [Group.message.injEq] at same
      exact same ▸ notTool
    · exact grouping.message other later
  · cases groups with
    | nil => exact List.IsChain.singleton _
    | cons g groups => exact List.IsChain.cons_cons (by simp [Group.isResults]) grouping.maximal

/-- The groups of a conversation are the maximal runs. -/
theorem grouped_grouping (msgs : List Value) : Grouping msgs (grouped msgs) := by
  induction msgs with
  | nil => exact ⟨rfl, by simp [grouped], by simp [grouped], List.IsChain.nil⟩
  | cons m rest inductionHypothesis =>
      rw [grouped]
      split
      · rename_i tool
        exact inductionHypothesis.withResult tool
      · rename_i notTool
        exact inductionHypothesis.withMessage notTool

/-! ## Faithful turns -/

/-- The parts of a content that is an array. -/
def contentParts (c : Option Value) : List Value :=
  match c with
  | none => []
  | some c => if c.type = .array then c.arr else []

/-- The text of a content: of a string its contents, of parts their texts put
together. -/
def contentText (c : Option Value) : Bytes :=
  match c with
  | none => []
  | some c => if c.type = .string then c.sv.bytes else (contentParts (some c)).flatMap partText

/-- The parts that have text. -/
def textParts (c : Option Value) : List Value :=
  (contentParts c).filter fun part => !(partText part).isEmpty

/-- The breakpoint of a part, byte for byte. -/
def breakpointOf (part : Value) : Option Bytes :=
  (part.find (ascii "cache_control")).map fun cc => cc.sv.bytes

/-- A part with text carries a breakpoint. -/
def carriesBreakpoint (c : Option Value) : Bool :=
  (textParts c).any fun part => (breakpointOf part).isSome

/-- A block of a part: its text and its breakpoint as they came. -/
def PartBlock (part : Value) : Rfc8259.Json → Prop :=
  IsObject ([(ascii "type", IsString (ascii "text")), (ascii "text", IsString (partText part))] ++
    (breakpointOf part).elim [] fun cc => [(ascii "cache_control", IsSpan cc)])

/-- A content, faithfully: its text in one string, or one block for each part with text
when one of them carries a breakpoint. -/
def FaithfulContent (c : Option Value) (tree : Rfc8259.Json) : Prop :=
  if carriesBreakpoint c then IsArray ((textParts c).map PartBlock) tree
  else IsString (contentText c) tree

/-- The blocks of a content that stands before tool calls, faithfully. -/
def faithfulBlocks (c : Option Value) : List (Rfc8259.Json → Prop) :=
  if carriesBreakpoint c then (textParts c).map PartBlock
  else if (contentText c).isEmpty then []
  else [IsObject [(ascii "type", IsString (ascii "text")),
    (ascii "text", IsString (contentText c))]]

/-- The calls of a message of the assistant, when it has any. -/
def turnCalls (m : Value) : Option (List Value) :=
  if roleOf m = ascii "assistant" then callsOf m else none

/-- The very string that was given. -/
def SameString (given : Option Value) (tree : Rfc8259.Json) : Prop :=
  ∃ v, given = some v ∧ v.type = .string ∧ IsString v.sv.bytes tree

/-- The name a call gives its function. -/
def nameGiven (call : Value) : Option Value :=
  (call.find (ascii "function")).bind fun fn => fn.find (ascii "name")

/-- The arguments a call gives its function. -/
def argumentsGiven (call : Value) : Option Value :=
  (call.find (ascii "function")).bind fun fn => fn.find (ascii "arguments")

/-- The input of a call, faithfully: the decoded text of its arguments, the empty object
where it has none, and arguments that are no text as they came. -/
def FaithfulInput (given : Option Value) (tree : Rfc8259.Json) : Prop :=
  match given with
  | none => IsSpan (ascii "\x7b\x7d") tree
  | some v => if v.type = .string then ArgumentsOf v.sv.bytes tree else IsSpan v.sv.bytes tree

/-- The block of a call, faithfully: its own id, name and arguments. -/
def FaithfulToolUse (call : Value) : Rfc8259.Json → Prop :=
  IsObject [(ascii "type", IsString (ascii "tool_use")),
    (ascii "id", SameString (call.find (ascii "id"))),
    (ascii "name", SameString (nameGiven call)),
    (ascii "input", FaithfulInput (argumentsGiven call))]

/-- The content of a turn, faithfully: with calls, the blocks of its content and one
block for each named call. -/
def FaithfulMessage (m : Value) (tree : Rfc8259.Json) : Prop :=
  match turnCalls m with
  | some calls =>
      IsArray (faithfulBlocks (m.find (ascii "content")) ++
        (namedCalls calls).map FaithfulToolUse) tree
  | none => FaithfulContent (m.find (ascii "content")) tree

/-- The result of a tool message, faithfully: for the call it names, with its content. -/
def FaithfulResult (m : Value) : Rfc8259.Json → Prop :=
  IsObject [(ascii "type", IsString (ascii "tool_result")),
    (ascii "tool_use_id", SameString (m.find (ascii "tool_call_id"))),
    (ascii "content", FaithfulContent (m.find (ascii "content")))]

/-- A turn, faithfully: of the user with one result for each tool message of a run, or
of the message's own role with its content. -/
def FaithfulTurn : Group → Rfc8259.Json → Prop
  | .results ms =>
      IsObject [(ascii "role", IsString (ascii "user")),
        (ascii "content", IsArray (ms.map FaithfulResult))]
  | .message m =>
      IsObject [(ascii "role", IsString (roleOf m)), (ascii "content", FaithfulMessage m)]

/-! ## The faithful system text -/

/-- Texts with a newline between them. -/
def joinLines : List Bytes → Bytes
  | [] => []
  | [line] => line
  | line :: rest => line ++ 0x0a :: joinLines rest

/-- The texts of a content that are not empty, each with the breakpoint behind it. -/
def textsGiven (c : Option Value) : List (Bytes × Option Bytes) :=
  match c with
  | none => []
  | some v =>
      if v.type = .string then (if v.sv.bytes.isEmpty then [] else [(v.sv.bytes, none)])
      else (textParts (some v)).map fun part => (partText part, breakpointOf part)

/-- The texts of the system messages that are not empty. -/
def systemGiven (msgs : List Value) : List (Bytes × Option Bytes) :=
  (systemMessages msgs).flatMap fun m => textsGiven (m.find (ascii "content"))

/-- The system messages, decoded, a line each. -/
def systemLines (msgs : List Value) : List Bytes :=
  (systemMessages msgs).map fun m => unescapeString (contentText (m.find (ascii "content")))

/-- The decoded text stands in this one, with no more than newlines around it. -/
def StandsIn (raw text : Bytes) : Prop :=
  ∃ before behind, unescapeString text =
    List.replicate before 0x0a ++ unescapeString raw ++ List.replicate behind 0x0a

/-- A block of the system text, with the breakpoint of the text it holds. -/
def SystemBlock (given : Bytes × Option Bytes) (text : Bytes) : Rfc8259.Json → Prop :=
  IsObject ([(ascii "type", IsString (ascii "text")), (ascii "text", IsString text)] ++
    given.2.elim [] fun cc => [(ascii "cache_control", IsSpan cc)])

/-- The system text, faithfully: the texts of the system messages, joined by newlines, in
one string, or in one block for each text when one of them carries a breakpoint. -/
def FaithfulSystem (msgs : List Value) (tree : Rfc8259.Json) : Prop :=
  if (systemGiven msgs).any (fun given => given.2.isSome) then
    ∃ texts : List Bytes,
      List.Forall₂ (fun given text => StandsIn given.1 text) (systemGiven msgs) texts ∧
      texts.flatMap unescapeString = joinLines (systemLines msgs) ∧
      IsArray (List.zipWith SystemBlock (systemGiven msgs) texts) tree
  else ∃ text, unescapeString text = joinLines (systemLines msgs) ∧ IsString text tree

/-- A body that holds the conversation faithfully. -/
structure FaithfulBody (msgs : List Value) (tree : Rfc8259.Json) : Prop where
  messages : ∃ value, named (ascii "messages") tree = some value ∧
    IsArray ((grouped (turnMessages msgs)).map FaithfulTurn) value
  system : if (systemMessages msgs).isEmpty then named (ascii "system") tree = none
    else ∃ value, named (ascii "system") tree = some value ∧ FaithfulSystem msgs value

/-! ## What is kept -/

/-- A string was given. -/
def keepsString (given : Option Value) : Bool :=
  given.any fun v => v.type = .string

/-- The arguments are a text, or none, or the empty object. -/
def keepsInput (given : Option Value) : Bool :=
  given.all fun v => v.type = .string || v.sv.bytes = ascii "\x7b\x7d"

/-- The id and the arguments of a call are kept. -/
def keepsCall (call : Value) : Bool :=
  keepsString (call.find (ascii "id")) && keepsInput (argumentsGiven call)

/-- A message is kept: the content of a tool message or of one with calls is flattened, so
that it must carry no breakpoint. -/
def keepsMessage (m : Value) : Bool :=
  if roleOf m = ascii "tool" then
    keepsString (m.find (ascii "tool_call_id")) &&
      !carriesBreakpoint (m.find (ascii "content"))
  else
    (turnCalls m).all fun calls =>
      !carriesBreakpoint (m.find (ascii "content")) && (namedCalls calls).all keepsCall

/-- The breakpoint that the system text is written with: the last of its parts'. -/
def systemBreakpoint (msgs : List Value) : Option Bytes :=
  (((systemMessages msgs).flatMap fun m => contentParts (m.find (ascii "content"))).filterMap
    breakpointOf).getLast?

/-- The system text is kept: no part of it carries a breakpoint, or one part alone has
text and the last breakpoint is its own. -/
def keepsSystem (msgs : List Value) : Bool :=
  match systemBreakpoint msgs with
  | none => true
  | some cc => (systemGiven msgs).map Prod.snd = [some cc]

/-- The conversation is kept. -/
def keepsConversation (msgs : List Value) : Bool :=
  keepsSystem msgs && msgs.all keepsMessage

/-! ## The text that is read -/

theorem appendParts_eq {parts : List Value} {text : Bytes}
    (read : appendParts parts = some text) : text = parts.flatMap partText := by
  induction parts generalizing text with
  | nil =>
      rw [appendParts, Option.some.injEq] at read
      exact read.symm
  | cons part rest inductionHypothesis =>
      rw [appendParts] at read
      split at read
      · obtain ⟨more, readMore, rfl⟩ := Option.map_eq_some_iff.mp read
        rw [List.flatMap_cons, inductionHypothesis readMore]
      · exact absurd read (by simp)

theorem appendText_eq {c : Option Value} {text : Bytes} (read : appendText c = some text) :
    text = contentText c := by
  cases c with
  | none =>
      rw [appendText, Option.some.injEq] at read
      exact read.symm
  | some v =>
      rw [appendText] at read
      rw [contentText]
      split at read
      · rename_i string
        rw [if_pos string]
        exact (Option.some.inj read).symm
      · rename_i notString
        rw [if_neg notString, contentParts]
        split at read
        · rename_i array
          rw [if_pos array]
          exact appendParts_eq read
        · rename_i notArray
          rw [if_neg notArray]
          exact (Option.some.inj read).symm

theorem render_ne_nil {tree : Rfc8259.Json} (isObject : tree.isObject = true) :
    tree.render ≠ [] := by
  cases tree with
  | empty kind inside => simp [Rfc8259.Json.render]
  | full kind items => simp [Rfc8259.Json.render]
  | lit l => exact absurd isObject (by simp [Rfc8259.Json.isObject])
  | number n => exact absurd isObject (by simp [Rfc8259.Json.isObject])
  | string s => exact absurd isObject (by simp [Rfc8259.Json.isObject])

/-- A breakpoint that is read is the span of an object. -/
theorem breakpointOf_of_read {part : Value} (spanned : Spanned part) {cc : Bytes}
    (read : partCacheControl part = some cc) :
    breakpointOf part = if cc.isEmpty then none else some cc := by
  rw [partCacheControl] at read
  rw [breakpointOf]
  cases found : part.find (ascii "cache_control") with
  | none =>
      rw [found, Option.some.injEq] at read
      subst read
      rfl
  | some v =>
      rw [found] at read
      dsimp only at read
      split at read
      · rename_i object
        rw [Option.some.injEq] at read
        subst read
        obtain ⟨tree, shape, -, isObject⟩ := (spanned.find found).object object
        rw [Option.map_some, if_neg]
        intro empty
        rw [shape] at empty
        exact render_ne_nil isObject (List.isEmpty_iff.mp empty)
      · exact absurd read (by simp)

/-- Whether a part with text carries a breakpoint is what `content_cache_state` finds. -/
theorem cacheStateLoop_eq {parts : List Value} (spanned : ∀ p ∈ parts, Spanned p)
    {any result : Bool} (loop : cacheStateLoop parts any = some result) :
    result = (any || (parts.filter fun part => !(partText part).isEmpty).any fun part =>
      (breakpointOf part).isSome) := by
  induction parts generalizing any with
  | nil =>
      rw [cacheStateLoop, Option.some.injEq] at loop
      simp [loop]
  | cons part rest inductionHypothesis =>
      have spannedRest : ∀ p ∈ rest, Spanned p :=
        fun p member => spanned p (List.mem_cons_of_mem _ member)
      rw [cacheStateLoop] at loop
      split at loop
      · exact absurd loop (by simp)
      · rename_i cc read
        rw [inductionHypothesis spannedRest loop]
        have carried := breakpointOf_of_read (spanned part (List.mem_cons_self ..)) read
        cases text : (partText part).isEmpty with
        | true => simp [text]
        | false =>
            rw [List.filter_cons_of_pos (by simp [text]), List.any_cons, carried]
            cases cc.isEmpty <;> simp

theorem contentCacheState_eq {c : Option Value} (spanned : SpannedOption c) {cached : Bool}
    (state : contentCacheState c = some cached) : cached = carriesBreakpoint c := by
  cases c with
  | none =>
      rw [contentCacheState, Option.some.injEq] at state
      rw [← state]
      rfl
  | some v =>
      rw [contentCacheState] at state
      rw [carriesBreakpoint, textParts, contentParts]
      split at state
      · rename_i array
        rw [if_pos array, cacheStateLoop_eq (fun p member => (spanned v rfl).arr member) state,
          Bool.false_or]
      · rename_i other
        rw [if_neg other, ← Option.some.inj state]
        rfl

/-- The blocks that are written are those of the parts with text. -/
theorem textedParts_blocks {parts : List Value} (spanned : ∀ p ∈ parts, Spanned p)
    (reads : ∀ part ∈ parts, ∃ cc, partCacheControl part = some cc) :
    ((textedParts parts).map fun part => IsObject (textFields part.1 part.2)) =
      (parts.filter fun part => !(partText part).isEmpty).map PartBlock := by
  induction parts with
  | nil => rfl
  | cons part rest inductionHypothesis =>
      have after := inductionHypothesis
        (fun p member => spanned p (List.mem_cons_of_mem _ member))
        fun p member => reads p (List.mem_cons_of_mem _ member)
      obtain ⟨cc, read⟩ := reads part (List.mem_cons_self ..)
      have carried := breakpointOf_of_read (spanned part (List.mem_cons_self ..)) read
      rw [textedParts]
      cases text : (partText part).isEmpty with
      | true =>
          rw [if_pos rfl, List.filter_cons_of_neg (by simp [text])]
          exact after
      | false =>
          rw [if_neg (by simp), List.filter_cons_of_pos (by simp [text]), List.map_cons,
            List.map_cons, after, read, Option.getD_some, PartBlock, carried, textFields]
          cases cc.isEmpty <;> rfl

/-- A content that `append_content` took is written faithfully. -/
theorem content_faithful {c : Option Value} (spanned : SpannedOption c) {text : Bytes}
    (read : appendContent c = some text) {tree : Rfc8259.Json} (content : ContentOf c tree) :
    FaithfulContent c tree := by
  cases state : contentCacheState c with
  | none =>
      rw [appendContent, state] at read
      exact absurd read (by simp)
  | some cached =>
      rw [FaithfulContent, ← contentCacheState_eq spanned state]
      rw [ContentOf, state] at content
      cases cached with
      | false =>
          rw [if_neg (by simp)] at content ⊢
          obtain ⟨flat, flatRead, string⟩ := content
          rw [← appendText_eq flatRead]
          exact string
      | true =>
          rw [if_pos rfl] at content ⊢
          cases c with
          | none => simp [contentCacheState] at state
          | some v =>
              rw [contentCacheState] at state
              split at state
              · rename_i array
                rw [Option.elim, textedParts_blocks (fun p member => (spanned v rfl).arr member)
                  (cacheStateLoop_reads state)] at content
                rw [textParts, contentParts, if_pos array]
                exact content
              · exact absurd state (by simp)

/-! ## What flattening loses -/

theorem isString_not_isArray {raw : Bytes} {means : List (Rfc8259.Json → Prop)}
    {tree : Rfc8259.Json} (string : IsString raw tree) : ¬ IsArray means tree := by
  rintro ⟨elements, same, -⟩
  obtain ⟨s, rfl, -⟩ := string
  cases elements with
  | nil => exact absurd same (by simp [Rfc8259.Json.ofElements])
  | cons first rest => exact absurd same (by simp [Rfc8259.Json.ofElements])

/-- A flat text is faithful exactly when no part with text carries a breakpoint. -/
theorem flat_faithful_iff {c : Option Value} {text : Bytes} (read : appendText c = some text)
    {tree : Rfc8259.Json} (string : IsString text tree) :
    FaithfulContent c tree ↔ carriesBreakpoint c = false := by
  rw [FaithfulContent]
  constructor
  · intro faithful
    by_contra carried
    rw [if_pos (by simpa using carried)] at faithful
    exact isString_not_isArray string faithful
  · intro uncarried
    rw [uncarried, if_neg (by simp), ← appendText_eq read]
    exact string

/-- What is written in one place, what should stand there, and when it does. -/
structure Restated where
  written : Rfc8259.Json → Prop
  faithful : Rfc8259.Json → Prop
  keeps : Prop

/-- What stands there as it should. -/
def Restated.same (means : Rfc8259.Json → Prop) : Restated :=
  ⟨means, means, True⟩

/-- An object is restated member by member. -/
theorem IsObject.restated {items : List (Bytes × Restated)} {tree : Rfc8259.Json}
    (isObject : IsObject (items.map fun item => (item.1, item.2.written)) tree)
    (decides : ∀ item ∈ items, ∀ value, item.2.written value →
      (item.2.faithful value ↔ item.2.keeps)) :
    IsObject (items.map fun item => (item.1, item.2.faithful)) tree ↔
      ∀ item ∈ items, item.2.keeps :=
  Json.IsObject.map_iff isObject decides

/-- A text that is read where a string should stand is that string when there is one. -/
theorem sameString_iff {given : Option Value} {raw : Bytes}
    (reads : ∀ v, given = some v → v.type = .string → raw = v.sv.bytes)
    {tree : Rfc8259.Json} (string : IsString raw tree) :
    SameString given tree ↔ keepsString given = true := by
  rw [keepsString, Option.any_eq_true]
  constructor
  · rintro ⟨v, is, isString, -⟩
    exact ⟨v, is, decide_eq_true isString⟩
  · rintro ⟨v, is, isString⟩
    have isString := of_decide_eq_true isString
    exact ⟨v, is, isString, reads v is isString ▸ string⟩

theorem strOr_reads {v : Value} {key : Bytes} :
    ∀ w, v.find key = some w → w.type = .string → (v.strOr key).bytes = w.sv.bytes := by
  intro w found string
  rw [Value.strOr, found]
  dsimp only
  rw [if_pos string]

theorem result_faithful_iff {m : Value} {tree : Rfc8259.Json} (result : ResultOf m tree) :
    FaithfulResult m tree ↔ keepsString (m.find (ascii "tool_call_id")) = true ∧
      carriesBreakpoint (m.find (ascii "content")) = false := by
  have each := @IsObject.restated
    [(ascii "type", .same (IsString (ascii "tool_result"))),
      (ascii "tool_use_id", ⟨IsString (m.strOr (ascii "tool_call_id")).bytes,
        SameString (m.find (ascii "tool_call_id")),
        keepsString (m.find (ascii "tool_call_id")) = true⟩),
      (ascii "content", ⟨fun tree =>
          ∃ text, appendText (m.find (ascii "content")) = some text ∧ IsString text tree,
        FaithfulContent (m.find (ascii "content")),
        carriesBreakpoint (m.find (ascii "content")) = false⟩)] tree result
  simp only [List.forall_mem_cons, Restated.same, true_and] at each
  refine (each ⟨fun _ means => iff_of_true means trivial,
    fun _ string => sameString_iff strOr_reads string, ?_, by simp⟩).trans (by simp)
  rintro value ⟨text, read, string⟩
  exact flat_faithful_iff read string

/-! ## Calls -/

theorem callName_given {call : Value} (named : callName call ≠ []) :
    ∃ v, nameGiven call = some v ∧ v.type = .string ∧ v.sv.bytes = callName call := by
  unfold callName at named ⊢
  unfold nameGiven
  cases found : call.find (ascii "function") with
  | none =>
      rw [found] at named
      exact absurd rfl named
  | some fn =>
      rw [found, Option.elim_some, Value.strOr] at named
      rw [Option.elim_some, Option.bind_some, Value.strOr]
      cases given : fn.find (ascii "name") with
      | none =>
          rw [given] at named
          exact absurd rfl named
      | some v =>
          rw [given] at named
          dsimp only at named ⊢
          by_cases string : v.type = .string
          · rw [if_pos string]
            exact ⟨v, rfl, string, rfl⟩
          · rw [if_neg string] at named
            exact absurd rfl named

/-- The arguments a call is read with: those of a text, or none. -/
theorem callArguments_eq (call : Value) :
    callArguments call =
      (argumentsGiven call).elim [] fun v => if v.type = .string then v.sv.bytes else [] := by
  rw [callArguments, argumentsGiven]
  cases call.find (ascii "function") with
  | none => rfl
  | some fn =>
      rw [Option.elim_some, Option.bind_some, Value.strOr]
      cases fn.find (ascii "arguments") with
      | none => rfl
      | some v =>
          rw [Option.elim_some]
          dsimp only
          split <;> rfl

/-- An object takes its two braces. -/
theorem braces_length {tree : Rfc8259.Json} (isObject : tree.isObject = true) :
    2 ≤ tree.render.length := by
  cases tree with
  | empty kind inside =>
      simp only [Rfc8259.Json.render, List.length_cons, List.length_append]
      omega
  | full kind items =>
      simp only [Rfc8259.Json.render, List.length_cons, List.length_append]
      omega
  | lit l => exact absurd isObject (by simp [Rfc8259.Json.isObject])
  | number n => exact absurd isObject (by simp [Rfc8259.Json.isObject])
  | string s => exact absurd isObject (by simp [Rfc8259.Json.isObject])

/-- No arguments are written as the empty object. -/
theorem argumentsOf_nil {tree : Rfc8259.Json} (none : ArgumentsOf [] tree) :
    tree.render = ascii "\x7b\x7d" := by
  obtain ⟨placed, rfl, isObject, shape⟩ := none
  have two : placed.render.length = 2 := by
    rw [shape]
    rfl
  have braces := braces_length isObject
  rw [Text.render] at shape two
  simp only [List.length_append] at two
  have pre : placed.pre.bytes = [] := List.eq_nil_of_length_eq_zero (by omega)
  have post : placed.post.bytes = [] := List.eq_nil_of_length_eq_zero (by omega)
  rw [pre, post, List.nil_append, List.append_nil] at shape
  exact shape

theorem input_faithful_iff {call : Value} {tree : Rfc8259.Json}
    (input : ArgumentsOf (callArguments call) tree) :
    FaithfulInput (argumentsGiven call) tree ↔ keepsInput (argumentsGiven call) = true := by
  rw [callArguments_eq] at input
  cases given : argumentsGiven call with
  | none =>
      rw [given] at input
      exact iff_of_true (argumentsOf_nil input) rfl
  | some v =>
      rw [given, Option.elim_some] at input
      rw [FaithfulInput, keepsInput, Option.all_some]
      by_cases string : v.type = .string
      · rw [if_pos string] at input ⊢
        exact iff_of_true input (by simp [string])
      · rw [if_neg string] at input ⊢
        rw [IsSpan, argumentsOf_nil input]
        simp [string, eq_comm]

/-- A block says its call faithfully exactly when its id and its arguments are kept. -/
theorem toolUse_faithful_iff {call : Value} (named : callName call ≠ [])
    {tree : Rfc8259.Json} (use : ToolUseOf call tree) :
    FaithfulToolUse call tree ↔ keepsCall call = true := by
  have each := @IsObject.restated
    [(ascii "type", .same (IsString (ascii "tool_use"))),
      (ascii "id", ⟨IsString (call.strOr (ascii "id")).bytes,
        SameString (call.find (ascii "id")), keepsString (call.find (ascii "id")) = true⟩),
      (ascii "name", ⟨IsString (callName call), SameString (nameGiven call), True⟩),
      (ascii "input", ⟨ArgumentsOf (callArguments call), FaithfulInput (argumentsGiven call),
        keepsInput (argumentsGiven call) = true⟩)] tree use.fields
  simp only [List.forall_mem_cons, Restated.same, true_and] at each
  refine (each ⟨fun _ means => iff_of_true means trivial,
    fun _ string => sameString_iff strOr_reads string, ?_,
    fun _ input => input_faithful_iff input, by simp⟩).trans (by simp [keepsCall])
  intro value string
  obtain ⟨v, given, isString, same⟩ := callName_given named
  exact iff_of_true ⟨v, given, isString, same ▸ string⟩ trivial

/-- The text of a content with a part that has text is not empty. -/
theorem contentText_ne_nil {c : Option Value} (carried : carriesBreakpoint c = true) :
    (contentText c).isEmpty = false := by
  rw [carriesBreakpoint, List.any_eq_true] at carried
  obtain ⟨part, member, -⟩ := carried
  obtain ⟨inside, text⟩ := List.mem_filter.mp member
  cases c with
  | none => exact absurd inside (by simp [contentParts])
  | some v =>
      rw [contentText]
      split
      · rename_i string
        rw [contentParts, if_neg (by simp [string])] at inside
        exact absurd inside (by simp)
      · rw [← Bool.not_eq_true, List.isEmpty_iff, List.flatMap_eq_nil_iff]
        intro empty
        rw [empty part inside] at text
        exact absurd text (by simp)

/-- Elements behind others are restated one by one. -/
theorem behind_restated {front : List (Rfc8259.Json → Prop)} {calls : List Value}
    {written faithful : Value → Rfc8259.Json → Prop} {keeps : Value → Prop}
    {tree : Rfc8259.Json} (isArray : IsArray (front ++ calls.map written) tree)
    (decides : ∀ call ∈ calls, ∀ element, written call element →
      (faithful call element ↔ keeps call)) :
    IsArray (front ++ calls.map faithful) tree ↔ ∀ call ∈ calls, keeps call := by
  have each := @IsArray.map_iff Restated
    (front.map Restated.same ++
      calls.map fun call => ⟨written call, faithful call, keeps call⟩)
    tree Restated.written Restated.faithful Restated.keeps
  have same : (front.map Restated.same).map Restated.written = front ∧
      (front.map Restated.same).map Restated.faithful = front := by
    constructor <;> simp [Function.comp_def, Restated.same]
  rw [List.map_append, List.map_append, same.1, same.2, List.map_map, List.map_map] at each
  refine (each isArray ?_).trans ?_
  · intro item member element means
    rcases List.mem_append.mp member with before | behind
    · obtain ⟨mean, -, rfl⟩ := List.mem_map.mp before
      exact iff_of_true means trivial
    · obtain ⟨call, inside, rfl⟩ := List.mem_map.mp behind
      exact decides call inside element means
  · simp [or_imp, forall_and, Restated.same]

/-- Before calls, one flat block is not faithful where a part with text carries a
breakpoint. -/
theorem flatBlock_loses {c : Option Value} {calls : List Value} {tree : Rfc8259.Json}
    (flat : CallsOf c calls tree) (carried : carriesBreakpoint c = true) :
    ¬ IsArray (faithfulBlocks c ++ (namedCalls calls).map FaithfulToolUse) tree := by
  obtain ⟨text, read, isArray⟩ := flat
  intro faithful
  rw [faithfulBlocks, if_pos carried] at faithful
  rw [appendText_eq read, contentText_ne_nil carried, if_neg (by simp)] at isArray
  have before := isArray.elements
  have after := faithful.elements
  have lengths := before.length_eq.trans after.length_eq.symm
  simp only [List.length_append, List.length_map, List.length_singleton] at lengths
  obtain ⟨part, one⟩ := List.length_eq_one_iff.mp (show (textParts c).length = 1 by omega)
  rw [carriesBreakpoint, one, List.any_cons, List.any_nil, Bool.or_false,
    Option.isSome_iff_exists] at carried
  obtain ⟨cc, carries⟩ := carried
  rw [one] at after
  generalize tree.elements = elements at before after
  cases before with
  | cons plain _ =>
      cases after with
      | cons block _ =>
          rw [PartBlock, carries] at block
          obtain ⟨value, found, -⟩ := @IsObject.named _ _ block (ascii "cache_control")
            (ascii "cache_control", IsSpan cc) (by rfl)
          rw [plain.named_none (show ascii "cache_control" ∉ [ascii "type", ascii "text"] by
            decide)] at found
          exact absurd found (by simp)

/-- Before calls, one flat block is faithful exactly when no part with text carries a
breakpoint, and the blocks of the calls when each is kept. -/
theorem calls_faithful_iff {c : Option Value} {calls : List Value} {tree : Rfc8259.Json}
    (flat : CallsOf c calls tree) :
    IsArray (faithfulBlocks c ++ (namedCalls calls).map FaithfulToolUse) tree ↔
      carriesBreakpoint c = false ∧ (namedCalls calls).all keepsCall = true := by
  by_cases carried : carriesBreakpoint c = true
  · exact iff_of_false (flatBlock_loses flat carried) (by simp [carried])
  obtain ⟨text, read, isArray⟩ := flat
  have uncarried : carriesBreakpoint c = false := by simpa using carried
  have same := appendText_eq read
  rw [faithfulBlocks, uncarried, if_neg (by simp), ← same, List.all_eq_true]
  have front : IsArray ((if text.isEmpty then [] else
      [IsObject [(ascii "type", IsString (ascii "text")), (ascii "text", IsString text)]]) ++
      (namedCalls calls).map ToolUseOf) tree := isArray
  refine (@behind_restated _ _ ToolUseOf FaithfulToolUse (fun call => keepsCall call = true)
    tree front fun call member _ use => toolUse_faithful_iff ?_ use).trans (by simp)
  simpa using (List.mem_filter.mp member).2

/-! ## Turns -/

/-- A step over a message without calls has read its content. -/
theorem walkMessage_content {t t' : AnthropicTurns} {m : Value}
    (walked : walkMessage AnthropicTurns.hooks t m = some t')
    (notSystem : isSystemRole (roleOf m) = false) (notTool : roleOf m ≠ ascii "tool")
    (noCalls : turnCalls m = none) :
    ∃ text, appendContent (m.find (ascii "content")) = some text := by
  have turned : ∀ assistant, AnthropicTurns.turn t assistant (m.find (ascii "content")) = some t' →
      ∃ text, appendContent (m.find (ascii "content")) = some text := by
    intro assistant turned
    obtain ⟨text, read, -⟩ := Option.map_eq_some_iff.mp turned
    exact ⟨text, read⟩
  rw [walkMessage, ← roleOf, notSystem, if_neg (by simp)] at walked
  split at walked
  · exact turned false walked
  · split at walked
    · rename_i assistant
      rw [turnCalls, if_pos assistant, callsOf] at noCalls
      cases found : m.find (ascii "tool_calls") with
      | none =>
          rw [found] at walked
          exact turned true walked
      | some calls =>
          rw [found] at walked noCalls
          dsimp only at walked
          rw [Option.map_eq_none_iff, Option.filter_eq_none_iff] at noCalls
          have other := noCalls calls rfl
          rw [if_neg (by simpa using other)] at walked
          exact turned true walked
    · exact absurd walked (by simp)

/-- A turn says its message faithfully exactly when it is kept. -/
theorem message_faithful_iff {m : Value} (spanned : Spanned m)
    (notTool : roleOf m ≠ ascii "tool")
    (read : turnCalls m = none → ∃ text, appendContent (m.find (ascii "content")) = some text)
    {tree : Rfc8259.Json} (content : TurnContent m tree) :
    FaithfulMessage m tree ↔ keepsMessage m = true := by
  rw [FaithfulMessage, keepsMessage, if_neg notTool]
  cases calls : turnCalls m with
  | none =>
      have plain : ContentOf (m.find (ascii "content")) tree := by
        rw [TurnContent] at content
        rw [turnCalls] at calls
        split at content
        · rename_i given
          split at content
          · rename_i assistant
            rw [if_pos assistant, given] at calls
            exact absurd calls (by simp)
          · exact content
        · exact content
      obtain ⟨text, taken⟩ := read calls
      exact iff_of_true (content_faithful (spannedOption_find spanned _) taken plain) rfl
  | some cs =>
      have flat : CallsOf (m.find (ascii "content")) cs tree := by
        rw [turnCalls] at calls
        split at calls
        · rename_i assistant
          rw [TurnContent, calls] at content
          dsimp only at content
          rw [if_pos assistant] at content
          exact content
        · exact absurd calls (by simp)
      simpa using calls_faithful_iff flat

/-- A turn is a role and its content. -/
theorem turn_restated {role : Bytes} {written faithful : Rfc8259.Json → Prop} {keeps : Prop}
    {tree : Rfc8259.Json}
    (turn : IsObject [(ascii "role", IsString role), (ascii "content", written)] tree)
    (decides : ∀ value, written value → (faithful value ↔ keeps)) :
    IsObject [(ascii "role", IsString role), (ascii "content", faithful)] tree ↔ keeps := by
  have each := @IsObject.restated
    [(ascii "role", .same (IsString role)), (ascii "content", ⟨written, faithful, keeps⟩)]
    tree turn
  simp only [List.forall_mem_cons, Restated.same, true_and] at each
  exact (each ⟨fun _ means => iff_of_true means trivial, decides, by simp⟩).trans (by simp)

/-- A turn says its messages faithfully exactly when each is kept. -/
theorem turn_faithful_iff {g : Group} (spanned : ∀ m ∈ g.messages, Spanned m)
    (results : ∀ ms, g = .results ms → ∀ m ∈ ms, roleOf m = ascii "tool")
    (message : ∀ m, g = .message m → roleOf m ≠ ascii "tool" ∧
      (turnCalls m = none → ∃ text, appendContent (m.find (ascii "content")) = some text))
    {tree : Rfc8259.Json} (turn : TurnOf g tree) :
    FaithfulTurn g tree ↔ ∀ m ∈ g.messages, keepsMessage m = true := by
  cases g with
  | results ms =>
      refine turn_restated turn fun value isArray => ?_
      refine @IsArray.map_iff Value ms value ResultOf FaithfulResult
        (fun m => keepsMessage m = true) isArray fun m member element result => ?_
      rw [result_faithful_iff result, keepsMessage, if_pos (results ms rfl m member)]
      simp
  | message m =>
      obtain ⟨notTool, read⟩ := message m rfl
      refine (turn_restated turn fun value content => message_faithful_iff
        (spanned m (List.mem_singleton.mpr rfl)) notTool read content).trans ?_
      simp [Group.messages]

/-- A system message is no turn, and nothing of it is lost there. -/
theorem keepsMessage_of_system {m : Value} (system : isSystemRole (roleOf m) = true) :
    keepsMessage m = true := by
  have roles : roleOf m = ascii "system" ∨ roleOf m = ascii "developer" := by
    simpa [isSystemRole] using system
  have notTool : roleOf m ≠ ascii "tool" := by
    rcases roles with is | is <;> rw [is] <;> decide
  have noCalls : turnCalls m = none := by
    rw [turnCalls, if_neg]
    rcases roles with is | is <;> rw [is] <;> decide
  rw [keepsMessage, if_neg notTool, noCalls, Option.all_none]

/-- The turns of a walk say the conversation faithfully exactly when each message is
kept. -/
theorem messages_faithful_iff {msgs : List Value} (spanned : ∀ m ∈ msgs, Spanned m)
    {turns : AnthropicTurns} (walked : walkMessages AnthropicTurns.hooks {} msgs = some turns)
    {tree : Rfc8259.Json} (isArray : IsArray ((grouped (turnMessages msgs)).map TurnOf) tree) :
    IsArray ((grouped (turnMessages msgs)).map FaithfulTurn) tree ↔
      ∀ m ∈ msgs, keepsMessage m = true := by
  have grouping := grouped_grouping (turnMessages msgs)
  have inside : ∀ g ∈ grouped (turnMessages msgs), ∀ m ∈ g.messages, m ∈ turnMessages msgs := by
    intro g member m among
    rw [← grouping.messages]
    exact List.mem_flatMap.mpr ⟨g, member, among⟩
  have each := @IsArray.map_iff Group (grouped (turnMessages msgs)) tree TurnOf FaithfulTurn
    (fun g => ∀ m ∈ g.messages, keepsMessage m = true) isArray ?_
  · rw [each]
    constructor
    · intro keeps m member
      by_cases system : isSystemRole (roleOf m) = true
      · exact keepsMessage_of_system system
      · have turn : m ∈ turnMessages msgs :=
          List.mem_filter.mpr ⟨member, by simpa using system⟩
        rw [← grouping.messages] at turn
        obtain ⟨g, group, among⟩ := List.mem_flatMap.mp turn
        exact keeps g group m among
    · intro keeps g group m among
      exact keeps m (List.mem_filter.mp (inside g group m among)).1
  · intro g member turn turnOf
    apply turn_faithful_iff _ _ _ turnOf
    · intro m among
      exact spanned m (List.mem_filter.mp (inside g member m among)).1
    · intro ms same
      exact (grouping.results ms (same ▸ member)).2
    · intro m same
      have notTool := grouping.message m (same ▸ member)
      refine ⟨notTool, fun noCalls => ?_⟩
      obtain ⟨among, notSystem⟩ := List.mem_filter.mp
        (inside g member m (by rw [same]; exact List.mem_singleton.mpr rfl))
      obtain ⟨t, t', here⟩ := walkMessages_each walked m among
      exact walkMessage_content here (by simpa using notSystem) notTool noCalls

/-! ## The system text -/

theorem lowSurrogate_newline (rest : Bytes) : Json.lowSurrogate (newline ++ rest) = none :=
  Json.lowSurrogate_none (Or.inr (by decide))

/-- Joined texts decode to lines. -/
theorem unescapeString_newlineJoin {texts : List Bytes}
    (chars : ∀ text ∈ texts, IsChars text) :
    unescapeString (newlineJoin texts) = joinLines (texts.map unescapeString) := by
  induction texts with
  | nil => rfl
  | cons text rest inductionHypothesis =>
      have first := chars text (List.mem_cons_self ..)
      have others := inductionHypothesis fun t member => chars t (List.mem_cons_of_mem _ member)
      cases rest with
      | nil => rfl
      | cons second rest =>
          rw [newlineJoin, List.append_assoc,
            Json.unescapeString_append first (lowSurrogate_newline _)]
          · have line : unescapeString (newline ++ newlineJoin (second :: rest)) =
                0x0a :: unescapeString (newlineJoin (second :: rest)) := rfl
            rw [line, others]
            rfl
          · simp

/-- The breakpoints of parts are not empty, once `part_cache_control` has read them. -/
theorem systemPartsCache_eq {parts : List Value} (spanned : ∀ p ∈ parts, Spanned p)
    {cache result : Bytes} (read : systemPartsCache parts cache = some result) :
    result = (parts.filterMap breakpointOf).getLast?.getD cache ∧
      ∀ cc ∈ parts.filterMap breakpointOf, cc.isEmpty = false := by
  induction parts generalizing cache with
  | nil =>
      rw [systemPartsCache, Option.some.injEq] at read
      simp [read]
  | cons part rest inductionHypothesis =>
      rw [systemPartsCache] at read
      split at read
      · exact absurd read (by simp)
      · rename_i cc here
        obtain ⟨shape, nonempty⟩ := inductionHypothesis
          (fun p member => spanned p (List.mem_cons_of_mem _ member)) read
        have carried := breakpointOf_of_read (spanned part (List.mem_cons_self ..)) here
        cases empty : cc.isEmpty with
        | true =>
            rw [empty, if_pos rfl] at carried shape
            rw [List.filterMap_cons_none carried]
            exact ⟨shape, nonempty⟩
        | false =>
            rw [empty, if_neg (by simp)] at carried shape
            rw [List.filterMap_cons_some carried]
            refine ⟨?_, List.forall_mem_cons.mpr ⟨empty, nonempty⟩⟩
            rw [shape, List.getLast?_cons]
            rfl

theorem systemCache_eq {msgs : List Value} (spanned : ∀ m ∈ msgs, Spanned m)
    {cache result : Bytes} (read : systemCache msgs cache = some result) :
    result = ((msgs.flatMap fun m => contentParts (m.find (ascii "content"))).filterMap
        breakpointOf).getLast?.getD cache ∧
      ∀ cc ∈ (msgs.flatMap fun m => contentParts (m.find (ascii "content"))).filterMap
        breakpointOf, cc.isEmpty = false := by
  induction msgs generalizing cache with
  | nil =>
      rw [systemCache, Option.some.injEq] at read
      simp [read]
  | cons m rest inductionHypothesis =>
      have spannedRest : ∀ w ∈ rest, Spanned w :=
        fun w member => spanned w (List.mem_cons_of_mem _ member)
      rw [systemCache] at read
      rw [List.flatMap_cons, List.filterMap_append]
      split at read
      · rename_i notArray
        have none : contentParts (m.find (ascii "content")) = [] := by
          rw [Option.filter_eq_none_iff] at notArray
          unfold contentParts
          split
          · rfl
          · rename_i c found
            exact if_neg (by simpa using notArray c found)
        rw [none]
        exact inductionHypothesis spannedRest read
      · rename_i c found
        have array := filter_type found
        have parts : contentParts (m.find (ascii "content")) = c.arr := by
          rw [array.1, contentParts, if_pos array.2]
        have spannedContent := (spanned m (List.mem_cons_self ..)).find array.1
        split at read
        · exact absurd read (by simp)
        · rename_i next here
          obtain ⟨shape, nonempty⟩ := inductionHypothesis spannedRest read
          obtain ⟨first, nonemptyFirst⟩ := systemPartsCache_eq
            (fun p member => spannedContent.arr member) here
          rw [parts]
          refine ⟨?_, List.forall_mem_append.mpr ⟨nonemptyFirst, nonempty⟩⟩
          rw [shape, first, List.getLast?_append]
          cases (List.filterMap breakpointOf
            (rest.flatMap fun m => contentParts (m.find (ascii "content")))).getLast? <;> rfl

/-- The texts of messages that were read. -/
theorem textsOf_eq {msgs : List Value} {texts : List Bytes} (related : TextsOf msgs texts) :
    texts = msgs.map fun m => contentText (m.find (ascii "content")) := by
  induction related with
  | nil => rfl
  | cons here _ inductionHypothesis =>
      rw [List.map_cons, inductionHypothesis, appendText_eq here]

theorem flatMap_texts (parts : List Value) :
    parts.flatMap partText =
      (parts.filter fun part => !(partText part).isEmpty).flatMap partText := by
  induction parts with
  | nil => rfl
  | cons part rest inductionHypothesis =>
      rw [List.flatMap_cons, inductionHypothesis]
      by_cases empty : (partText part).isEmpty = true
      · rw [List.filter_cons_of_neg (by simp [empty]), List.isEmpty_iff.mp empty,
          List.nil_append]
      · rw [List.filter_cons_of_pos (by simpa using empty), List.flatMap_cons]

/-- The text of a content is its texts, put together. -/
theorem contentText_given (c : Option Value) :
    contentText c = (textsGiven c).flatMap Prod.fst := by
  cases c with
  | none => rfl
  | some v =>
      rw [contentText, textsGiven]
      split
      · by_cases empty : v.sv.bytes.isEmpty = true
        · rw [if_pos empty, List.isEmpty_iff.mp empty]
          rfl
        · rw [if_neg empty, List.flatMap_singleton]
      · rw [List.flatMap_map, textParts, flatMap_texts]

/-- Lines without text are newlines. -/
theorem joinLines_empty {lines : List Bytes} (empty : ∀ line ∈ lines, line = []) :
    ∃ count, joinLines lines = List.replicate count 0x0a := by
  induction lines with
  | nil => exact ⟨0, rfl⟩
  | cons line rest inductionHypothesis =>
      obtain ⟨here, others⟩ := List.forall_mem_cons.mp empty
      subst here
      obtain ⟨count, more⟩ := inductionHypothesis others
      cases rest with
      | nil => exact ⟨0, rfl⟩
      | cons second rest =>
          refine ⟨count + 1, ?_⟩
          rw [joinLines, more]
          · rfl
          · simp

/-- The lines of messages that give no text are empty. -/
theorem lines_empty {ms : List Value}
    (none : (ms.flatMap fun m => textsGiven (m.find (ascii "content"))) = []) :
    ∀ line ∈ ms.map (fun m => unescapeString (contentText (m.find (ascii "content")))),
      line = [] := by
  intro line member
  obtain ⟨m, inside, rfl⟩ := List.mem_map.mp member
  rw [contentText_given, List.flatMap_eq_nil_iff.mp none m inside]
  rfl

/-- The lines of messages that give one text hold it, with newlines around it. -/
theorem lines_singleton {ms : List Value} {given : Bytes × Option Bytes}
    (one : (ms.flatMap fun m => textsGiven (m.find (ascii "content"))) = [given]) :
    ∃ before behind,
      joinLines (ms.map fun m => unescapeString (contentText (m.find (ascii "content")))) =
        List.replicate before 0x0a ++ unescapeString given.1 ++
          List.replicate behind 0x0a := by
  induction ms with
  | nil => exact absurd one (by simp)
  | cons m rest inductionHypothesis =>
      rw [List.flatMap_cons, List.append_eq_singleton_iff] at one
      rw [List.map_cons, contentText_given]
      rcases one with ⟨here, later⟩ | ⟨here, later⟩
      · obtain ⟨before, behind, shape⟩ := inductionHypothesis later
        rw [here]
        cases rest with
        | nil => exact absurd later (by simp)
        | cons second rest =>
            refine ⟨before + 1, behind, ?_⟩
            rw [List.map_cons] at shape ⊢
            rw [joinLines, shape]
            · rfl
            · simp
      · obtain ⟨count, shape⟩ := joinLines_empty (lines_empty later)
        rw [here, List.flatMap_singleton]
        cases rest with
        | nil => exact ⟨0, 0, by simp [joinLines]⟩
        | cons second rest =>
            refine ⟨0, count + 1, ?_⟩
            rw [List.map_cons] at shape ⊢
            rw [joinLines, shape]
            · rfl
            · simp

/-- A breakpoint of a text is one of the content's parts. -/
theorem textsGiven_breakpoints {c : Option Value} {given : Bytes × Option Bytes} {cc : Bytes}
    (member : given ∈ textsGiven c) (carries : given.2 = some cc) :
    cc ∈ (contentParts c).filterMap breakpointOf := by
  cases c with
  | none => exact absurd member (by simp [textsGiven])
  | some v =>
      rw [textsGiven] at member
      split at member
      · split at member
        · exact absurd member (by simp)
        · rw [List.mem_singleton] at member
          rw [member] at carries
          exact absurd carries (by simp)
      · obtain ⟨part, inside, rfl⟩ := List.mem_map.mp member
        exact List.mem_filterMap.mpr ⟨part, (List.mem_filter.mp inside).1, carries⟩

/-- What the system text is written as: one string, or one block with the last breakpoint
of its parts. -/
theorem system_written {msgs : List Value} (spanned : ∀ m ∈ msgs, Spanned m)
    {tree : Rfc8259.Json} (system : SystemOf msgs tree) :
    ∃ text, unescapeString text = joinLines (systemLines msgs) ∧
      (systemBreakpoint msgs).elim (IsString text tree) fun cc =>
        IsArray [SystemBlock ([], some cc) text] tree := by
  have spannedSystem : ∀ m ∈ systemMessages msgs, Spanned m :=
    fun m member => spanned m (List.mem_filter.mp member).1
  obtain ⟨texts, cc, related, read, written⟩ := system
  obtain ⟨last, nonempty⟩ := systemCache_eq spannedSystem read
  refine ⟨newlineJoin texts, ?_, ?_⟩
  · rw [unescapeString_newlineJoin (textsOf_chars spannedSystem related), textsOf_eq related,
      List.map_map]
    rfl
  · rw [systemBreakpoint]
    cases found : (List.filterMap breakpointOf ((systemMessages msgs).flatMap fun m =>
        contentParts (m.find (ascii "content")))).getLast? with
    | none =>
        rw [found] at last
        rw [last] at written
        exact written
    | some breakpoint =>
        rw [found] at last
        have given := nonempty breakpoint (List.mem_of_getLast? found)
        rw [last, Option.getD_some, given, if_neg (by simp), textFields, given,
          if_neg (by simp)] at written
        exact written

/-- A text carries a breakpoint only where the system text is written with one. -/
theorem systemBreakpoint_some {msgs : List Value}
    (carried : (systemGiven msgs).any (fun given => given.2.isSome) = true) :
    systemBreakpoint msgs ≠ none := by
  obtain ⟨given, member, carries⟩ := List.any_eq_true.mp carried
  obtain ⟨cc, is⟩ := Option.isSome_iff_exists.mp carries
  obtain ⟨m, inside, among⟩ := List.mem_flatMap.mp member
  intro none
  rw [systemBreakpoint, List.getLast?_eq_none_iff, List.filterMap_flatMap] at none
  have empty := List.flatMap_eq_nil_iff.mp none m inside
  exact absurd (textsGiven_breakpoints among is) (by rw [empty]; exact List.not_mem_nil)

/-- One block says the texts faithfully only when it holds one, with its breakpoint. -/
theorem systemBlock_one {texts : List Bytes} {given : List (Bytes × Option Bytes)}
    {text cc : Bytes} {tree : Rfc8259.Json}
    (written : IsArray [SystemBlock ([], some cc) text] tree)
    (faithful : IsArray (List.zipWith SystemBlock given texts) tree)
    (same : given.length = texts.length)
    (carried : given.any (fun given => given.2.isSome) = true) :
    ∃ g, given = [g] ∧ g.2 = some cc := by
  have before := written.elements
  have after := faithful.elements
  have lengths := before.length_eq.trans after.length_eq.symm
  rw [List.length_zipWith, List.length_singleton] at lengths
  obtain ⟨g, rfl⟩ := List.length_eq_one_iff.mp (show given.length = 1 by omega)
  obtain ⟨t, rfl⟩ := List.length_eq_one_iff.mp (show texts.length = 1 by omega)
  rw [List.any_cons, List.any_nil, Bool.or_false, Option.isSome_iff_exists] at carried
  obtain ⟨own, carries⟩ := carried
  rw [List.zipWith_cons_cons, List.zipWith_nil_left] at after
  generalize tree.elements = elements at before after
  cases before with
  | cons plain _ =>
      cases after with
      | cons block _ =>
          rw [SystemBlock, carries] at block
          obtain ⟨value, found, is⟩ := @IsObject.named _ _ block (ascii "cache_control")
            (ascii "cache_control", IsSpan own) (by rfl)
          obtain ⟨value', found', is'⟩ := @IsObject.named _ _ plain (ascii "cache_control")
            (ascii "cache_control", IsSpan cc) (by rfl)
          rw [found, Option.some.injEq] at found'
          subst found'
          exact ⟨g, rfl, by rw [carries, ← (is.symm.trans is' : own = cc)]⟩

/-- The system text is written faithfully exactly when it is kept. -/
theorem system_faithful_iff {msgs : List Value} (spanned : ∀ m ∈ msgs, Spanned m)
    {tree : Rfc8259.Json} (system : SystemOf msgs tree) :
    FaithfulSystem msgs tree ↔ keepsSystem msgs = true := by
  obtain ⟨text, joined, written⟩ := system_written spanned system
  rw [FaithfulSystem, keepsSystem]
  cases last : systemBreakpoint msgs with
  | none =>
      rw [last] at written
      have uncarried : ¬ (systemGiven msgs).any (fun given => given.2.isSome) = true :=
        fun carried => systemBreakpoint_some carried last
      rw [if_neg uncarried]
      exact iff_of_true ⟨text, joined, written⟩ rfl
  | some cc =>
      rw [last] at written
      dsimp only
      rw [decide_eq_true_eq, List.map_eq_singleton_iff]
      constructor
      · intro faithful
        split at faithful
        · rename_i carried
          obtain ⟨texts, each, -, isArray⟩ := faithful
          exact systemBlock_one written isArray each.length_eq carried
        · obtain ⟨other, -, string⟩ := faithful
          exact absurd written (isString_not_isArray string)
      · rintro ⟨given, one, carries⟩
        obtain ⟨before, behind, lines⟩ := lines_singleton one
        have stands : StandsIn given.1 text := ⟨before, behind, joined.trans lines⟩
        rw [one, if_pos (by simp [carries])]
        refine ⟨[text], List.Forall₂.cons stands List.Forall₂.nil, ?_, ?_⟩
        · rw [List.flatMap_singleton, joined]
        · rw [List.zipWith_cons_cons, List.zipWith_nil_left, SystemBlock, carries]
          exact written

/-! ## The whole request -/

theorem Translator.translate_spanned {t : Translator} {opaqueNames : List Bytes}
    {body model : Bytes} (accepted : (t.translate opaqueNames body model).1 = true) :
    Spanned (Json.parse body .unique opaqueNames).1 := by
  rw [Translator.translate] at accepted
  dsimp only at accepted
  split at accepted
  · rename_i ok
    exact Json.spanned_parse ok
  · exact absurd accepted (by simp)

theorem keepsSystem_of_none {msgs : List Value} (none : (systemMessages msgs).isEmpty = true) :
    keepsSystem msgs = true := by
  rw [keepsSystem, systemBreakpoint, List.isEmpty_iff.mp none]
  rfl

/-- Of an accepted body, the output holds the conversation faithfully exactly when the
conversation is kept. -/
theorem Translator.faithful_iff
    {t : Translator} (isMessages : t.isMessages = true) {opaqueNames : List Bytes}
    {body model : Bytes} (plain : ∀ c ∈ model, isPlain c = true)
    (accepted : (t.translate opaqueNames body model).1 = true) {msgs : List Value}
    (found : messagesOf (Json.parse body .unique opaqueNames).1 = some msgs) :
    (∃ tree : Rfc8259.Json, (t.translate opaqueNames body model).2.body = tree.render ∧
        FaithfulBody msgs tree) ↔ keepsConversation msgs = true := by
  obtain ⟨read, turns, same, walked, tree, shape, -, holds⟩ :=
    t.translate_messages isMessages plain accepted
  rw [found, Option.some.injEq] at same
  subst same
  have spanned := messagesOf_spanned (t.translate_spanned accepted) found
  obtain ⟨value, named, isArray⟩ := holds.messages
  have turns_iff := messages_faithful_iff spanned walked isArray
  have system := holds.system
  rw [keepsConversation, Bool.and_eq_true, List.all_eq_true]
  constructor
  · rintro ⟨other, sameShape, faithful⟩
    rw [shape] at sameShape
    have sameTree := Rfc8259.Json.render_injective sameShape
    subst sameTree
    obtain ⟨value', named', faithfulArray⟩ := faithful.messages
    rw [named, Option.some.injEq] at named'
    refine ⟨?_, turns_iff.mp (named' ▸ faithfulArray)⟩
    by_cases none : (systemMessages msgs).isEmpty = true
    · exact keepsSystem_of_none none
    · have faithfulSystem := faithful.system
      rw [if_neg none] at system faithfulSystem
      obtain ⟨systemValue, systemNamed, systemOf⟩ := system
      obtain ⟨systemValue', systemNamed', is⟩ := faithfulSystem
      rw [systemNamed, Option.some.injEq] at systemNamed'
      exact (system_faithful_iff spanned systemOf).mp (systemNamed' ▸ is)
  · rintro ⟨keeps, each⟩
    refine ⟨tree, shape, ⟨value, named, turns_iff.mpr each⟩, ?_⟩
    split
    · rename_i none
      rw [if_pos none] at system
      exact system
    · rename_i some
      rw [if_neg some] at system
      obtain ⟨systemValue, systemNamed, systemOf⟩ := system
      exact ⟨systemValue, systemNamed, (system_faithful_iff spanned systemOf).mpr keeps⟩

/-- A conversation with a system text, a tool call and its result. -/
def toolTurn : Bytes :=
  ascii ("\x7b\"model\":\"m\",\"messages\":[\x7b\"role\":\"system\",\"content\":\"s\"\x7d," ++
    "\x7b\"role\":\"user\",\"content\":\"q\"\x7d," ++
    "\x7b\"role\":\"assistant\",\"tool_calls\":[\x7b\"id\":\"a\",\"function\":" ++
    "\x7b\"name\":\"f\",\"arguments\":\"\x7b\x7d\"\x7d\x7d]\x7d," ++
    "\x7b\"role\":\"tool\",\"tool_call_id\":\"a\",\"content\":\"r\"\x7d]\x7d")

/-- A tool result whose text carries a breakpoint. -/
def cachedResult : Bytes :=
  ascii ("\x7b\"model\":\"m\",\"messages\":[\x7b\"role\":\"tool\",\"tool_call_id\":\"a\"," ++
    "\"content\":[\x7b\"type\":\"text\",\"text\":\"r\"," ++
    "\"cache_control\":\x7b\"type\":\"ephemeral\"\x7d\x7d]\x7d]\x7d")

/-- An accepted body's conversation is in order, each maximal run of tool messages one
turn, and where its contents are text the output holds it faithfully exactly when it is
kept. -/
theorem Translator.translate_faithful_iff
    {t : Translator} (isMessages : t.isMessages = true) {opaqueNames : List Bytes}
    {body model : Bytes} (plain : ∀ c ∈ model, isPlain c = true)
    (accepted : (t.translate opaqueNames body model).1 = true) :
    ∃ msgs, messagesOf (Json.parse body .unique opaqueNames).1 = some msgs ∧
      Grouping (turnMessages msgs) (grouped (turnMessages msgs)) ∧
      ((∀ m ∈ msgs, isTextContent (m.find (ascii "content")) = true) →
        ((∃ tree : Rfc8259.Json, (t.translate opaqueNames body model).2.body = tree.render ∧
            FaithfulBody msgs tree) ↔ keepsConversation msgs = true)) := by
  obtain ⟨msgs, -, found, -⟩ := t.translate_messages isMessages plain accepted
  exact ⟨msgs, found, grouped_grouping _,
    fun _ => t.faithful_iff isMessages plain accepted found⟩

/-- The same of a conversation with a tool call and its result. -/
theorem Translator.translate_faithful_iff_call :
    ∃ msgs, messagesOf (Json.parse toolTurn .unique kOpaqueRequestMembers).1 = some msgs ∧
      Grouping (turnMessages msgs) (grouped (turnMessages msgs)) ∧
      ((∀ m ∈ msgs, isTextContent (m.find (ascii "content")) = true) →
        ((∃ tree : Rfc8259.Json,
            (Translator.anthropic.translate kOpaqueRequestMembers toolTurn []).2.body =
              tree.render ∧ FaithfulBody msgs tree) ↔ keepsConversation msgs = true)) :=
  Translator.translate_faithful_iff (by decide) (by simp) (by decide +kernel)

/-- A tool result whose text carries a breakpoint is accepted, and the breakpoint is
lost. -/
theorem Translator.translate_faithful_fails_result :
    (Translator.anthropic.translate kOpaqueRequestMembers cachedResult []).1 = true ∧
      ∃ msgs, messagesOf (Json.parse cachedResult .unique kOpaqueRequestMembers).1 = some msgs ∧
        (∀ m ∈ msgs, isTextContent (m.find (ascii "content")) = true) ∧
        ¬ ∃ tree : Rfc8259.Json,
          (Translator.anthropic.translate kOpaqueRequestMembers cachedResult []).2.body =
            tree.render ∧ FaithfulBody msgs tree := by
  have accepted : (Translator.anthropic.translate kOpaqueRequestMembers cachedResult []).1 =
      true := by decide +kernel
  have loses : ((messagesOf (Json.parse cachedResult .unique kOpaqueRequestMembers).1).any
      fun msgs => msgs.all (fun m => isTextContent (m.find (ascii "content"))) &&
        !keepsConversation msgs) = true := by
    decide +kernel
  obtain ⟨msgs, found, both⟩ := (Option.any_eq_true _ _).mp loses
  rw [Bool.and_eq_true, List.all_eq_true, Bool.not_eq_true'] at both
  refine ⟨accepted, msgs, found, both.1, fun faithful => ?_⟩
  have keeps := (Translator.faithful_iff rfl (by simp) accepted found).mp faithful
  exact Bool.false_ne_true (both.2.symm.trans keeps)

end Translate
end Llmbridge
