import Llmbridge.Provider.AnthropicWalk

/-!
# The members of a translated request

Everything a request translator writes beside the turns: the tools, the choice among
them, the parameters and the system text.  Each is a run of members that goes on
after the first member of the body.
-/

namespace Llmbridge
namespace Translate

open Rfc8259
open Json (Value View Spanned Writes Places Part Field IsObject IsArray IsString IsNumeral IsSpan
  moreParts writes_string writes_plain writes_number writes_lit writes_span writes_array
  writes_members)

/-- The value is a tree, whatever it says. -/
def AnyValue (_ : Rfc8259.Json) : Prop := True

/-- The text goes on with members whose names are among these, in this order. -/
def Continues (text : Bytes) (names : List Bytes) : Prop :=
  ∃ parts : List Part, text = moreParts parts ∧ (∀ p ∈ parts, p.Ok) ∧
    (parts.map Part.name).Sublist names

theorem Continues.nil (names : List Bytes) : Continues [] names :=
  ⟨[], rfl, by simp, List.nil_sublist _⟩

theorem Continues.member
    {text : Bytes} {means : Rfc8259.Json → Prop} (name value : Bytes)
    (plain : name.all isPlain = true) (places : Places value means)
    (shape : text = 0x2c :: (quoted name ++ 0x3a :: value)) :
    Continues text [name] := by
  refine ⟨[⟨name, value, means⟩], ?_, ?_, List.Sublist.refl _⟩
  · rw [shape, Json.moreParts_cons, Json.moreParts_nil, List.append_nil]
  · intro p member
    rw [List.mem_singleton.mp member]
    exact Part.ok plain places

theorem Continues.append {first second : Bytes} {names more : List Bytes}
    (before : Continues first names) (after : Continues second more) :
    Continues (first ++ second) (names ++ more) := by
  obtain ⟨parts, rfl, ok, among⟩ := before
  obtain ⟨others, rfl, okOthers, amongOthers⟩ := after
  refine ⟨parts ++ others, (Json.moreParts_append parts others).symm, ?_, ?_⟩
  · intro p member
    rcases List.mem_append.mp member with here | there
    · exact ok p here
    · exact okOthers p there
  · rw [List.map_append]
    exact among.append amongOthers

/-- A body: a first member and the members that go on after it. -/
theorem Continues.body
    {first : Part} {text : Bytes} {names : List Bytes} (continues : Continues text names)
    (ok : first.Ok) (distinct : (first.name :: names).Nodup) :
    Writes (0x7b :: (quoted first.name ++ 0x3a :: (first.text ++ (text ++ [0x7d]))))
      fun tree => tree.isObject = true ∧
        (tree.members.map fun member => member.1.bytes).Sublist (first.name :: names) := by
  obtain ⟨parts, rfl, okParts, among⟩ := continues
  have written := @writes_members _ first parts rfl ?_ ?_
  · apply written.mono
    intro tree isObject
    obtain ⟨object, same⟩ := isObject.names
    refine ⟨object, ?_⟩
    rw [same, List.map_map]
    exact among.cons_cons _
  · intro p member
    rcases List.mem_cons.mp member with rfl | later
    · exact ok
    · exact okParts p later
  · exact List.Nodup.sublist (among.cons_cons _) distinct

/-! ## Tools -/

theorem filter_type {v w : Value} {key : Bytes} {type : Json.ValueType}
    (found : (v.find key).filter (fun x => decide (x.type = type)) = some w) :
    v.find key = some w ∧ w.type = type := by
  obtain ⟨same, isType⟩ := Option.filter_eq_some_iff.mp found
  exact ⟨same, by simpa using isType⟩

/-- The type of a choice is one of four words, or none is made. -/
theorem toolChoice_type (tc : Option Value) :
    (toolChoice tc).1 ∈ [[], ascii "auto", ascii "any", ascii "none", ascii "tool"] := by
  unfold toolChoice
  cases tc with
  | none => simp
  | some v =>
      dsimp only
      split
      · split
        · simp
        · split
          · simp
          · split <;> simp
      · split
        · simp
        · split <;> simp

theorem toolChoice_name {tc : Option Value} (spanned : SpannedOption tc) :
    IsChars (toolChoice tc).2 := by
  unfold toolChoice
  cases tc with
  | none => exact IsChars.nil
  | some v =>
      dsimp only
      split
      · exact IsChars.nil
      · split
        · exact IsChars.nil
        · rename_i f found
          exact ((spanned v rfl).find found).strOr _

/-- An object of a first member and others, some of which may be left out. -/
theorem Continues.object
    {text more : Bytes} {means : Rfc8259.Json → Prop} {names : List Bytes}
    (continues : Continues more names) (name value : Bytes) (plain : name.all isPlain = true)
    (places : Places value means) (distinct : (name :: names).Nodup)
    (shape : text = 0x7b :: (quoted name ++ 0x3a :: (value ++ (more ++ [0x7d])))) :
    Writes text AnyValue := by
  rw [shape]
  exact (@Continues.body ⟨name, value, means⟩ more names continues (Part.ok plain places)
    distinct).mono fun _ _ => trivial

/-- A member that may be left out. -/
theorem Continues.optional
    {text : Bytes} {means : Rfc8259.Json → Prop} {left : Bool} (name value : Bytes)
    (plain : name.all isPlain = true) (places : left = false → Places value means)
    (shape : text = 0x2c :: (quoted name ++ 0x3a :: value)) :
    Continues (if left then [] else text) [name] := by
  cases left with
  | true => exact Continues.nil _
  | false => exact Continues.member name value plain (places rfl) shape

/-- `append_tool_choice` writes one member or none. -/
theorem continues_toolChoice {tc parallel : Option Value} (spanned : SpannedOption tc) :
    Continues (appendToolChoice tc parallel) [ascii "tool_choice"] := by
  rw [appendToolChoice]
  dsimp only
  split
  · exact Continues.nil _
  · have typed := toolChoice_type tc
    have named := toolChoice_name spanned
    generalize (toolChoice tc).1 = type at typed ⊢
    generalize (toolChoice tc).2 = name at named ⊢
    generalize (parallel.any (fun p => p.type = .bool && !p.boolean) &&
      type != ascii "none") = serial
    have plain : (if type.isEmpty then ascii "auto" else type).all isPlain = true := by
      simp only [List.mem_cons, List.not_mem_nil, or_false] at typed
      rcases typed with rfl | rfl | rfl | rfl | rfl <;> decide
    generalize (if type.isEmpty then ascii "auto" else type) = chosen at plain ⊢
    have nameMember : Continues (if name.isEmpty then [] else ascii ",\"name\":" ++ quoted name)
        [ascii "name"] :=
      Continues.optional _ _ (by decide) (fun _ => (writes_string named).places) rfl
    have serialMember : Continues
        (if !serial then [] else ascii ",\"disable_parallel_tool_use\":" ++ Lit.true.text)
        [ascii "disable_parallel_tool_use"] :=
      Continues.optional _ _ (by decide) (fun _ => (writes_lit .true).places) rfl
    refine Continues.member (ascii "tool_choice") _ (by decide)
      (Continues.object (nameMember.append serialMember) (ascii "type") _ (by decide)
        (writes_plain plain).places (by decide) rfl).places ?_
    cases serial <;> simp only [quoted, List.append_assoc, List.cons_append, Bool.not_true,
      Bool.not_false, if_true, if_false, Bool.false_eq_true] <;> rfl

theorem writes_inputSchema {fn : Value} (spanned : Spanned fn) :
    Writes (inputSchema fn) AnyValue := by
  rw [inputSchema]
  split
  · rename_i params found
    obtain ⟨same, container⟩ := Option.filter_eq_some_iff.mp found
    simp only [Bool.and_eq_true, Bool.or_eq_true, decide_eq_true_eq] at container
    exact (writes_span (spanned.find same) container.1).mono fun _ _ => trivial
  · have properties : Places (ascii "\x7b\x7d") AnyValue :=
      ⟨(Rfc8259.Json.empty .object Ws.nil).bare, rfl, trivial, trivial⟩
    have type : (ascii "object").all isPlain = true := by decide
    exact Continues.object (Continues.member (ascii "properties") _ (by decide) properties rfl)
      (ascii "type") _ (by decide) (writes_plain type).places (by decide) rfl

theorem places_toolCacheControl {tool fn : Value} (spanned : Spanned tool)
    (spannedFn : Spanned fn) (nonempty : (toolCacheControl tool fn).isEmpty = false) :
    Places (toolCacheControl tool fn) AnyValue := by
  rw [toolCacheControl] at nonempty ⊢
  split
  · rename_i cc found
    obtain ⟨same, type⟩ := filter_type found
    exact ((writes_span (spannedFn.find same) (Or.inl type)).mono fun _ _ => trivial).places
  · rename_i notFn
    rw [notFn] at nonempty
    dsimp only at nonempty ⊢
    split
    · rename_i cc found
      obtain ⟨same, type⟩ := filter_type found
      exact ((writes_span (spanned.find same) (Or.inl type)).mono fun _ _ => trivial).places
    · rename_i notTool
      rw [notTool] at nonempty
      simp at nonempty

/-- A declared tool is one object. -/
theorem writes_toolDeclaration {tool : Value} (spanned : Spanned tool) :
    ∀ text ∈ toolDeclaration tool, Writes text AnyValue := by
  intro text written
  rw [Option.mem_def, toolDeclaration] at written
  split at written
  · exact absurd written (by simp)
  · rename_i fn found
    have spannedFn := spanned.find (filter_type found).1
    dsimp only at written
    split at written
    · exact absurd written (by simp)
    · rw [Option.some.injEq] at written
      subst written
      have description : Continues
          (if (fn.strOr (ascii "description")).bytes.isEmpty then []
            else ascii ",\"description\":" ++ quoted (fn.strOr (ascii "description")).bytes)
          [ascii "description"] :=
        Continues.optional _ _ (by decide) (fun _ => (writes_string (spannedFn.strOr _)).places) rfl
      have schema : Continues (ascii ",\"input_schema\":" ++ inputSchema fn)
          [ascii "input_schema"] :=
        Continues.member _ _ (by decide) (writes_inputSchema spannedFn).places rfl
      have cache : Continues
          (if (toolCacheControl tool fn).isEmpty then []
            else ascii ",\"cache_control\":" ++ toolCacheControl tool fn)
          [ascii "cache_control"] :=
        Continues.optional _ _ (by decide)
          (fun nonempty => places_toolCacheControl spanned spannedFn nonempty) rfl
      refine Continues.object (description.append (schema.append cache)) (ascii "name") _
        (by decide) (writes_string (spannedFn.strOr (ascii "name"))).places (by decide) ?_
      simp only [List.append_assoc]
      rfl

/-- Texts each of which is a value make an array. -/
theorem writes_values {texts : List Bytes} (values : ∀ text ∈ texts, Writes text AnyValue) :
    Writes (0x5b :: (commaJoin texts ++ [0x5d])) AnyValue := by
  have related : List.Forall₂ Writes texts (texts.map fun _ => AnyValue) := by
    induction texts with
    | nil => exact List.Forall₂.nil
    | cons text rest inductionHypothesis =>
        exact List.Forall₂.cons (values text (List.mem_cons_self ..))
          (inductionHypothesis fun t member => values t (List.mem_cons_of_mem _ member))
  exact (writes_array related).mono fun _ _ => trivial

/-- `append_tools` writes the tools and the choice among them. -/
theorem continues_tools {v : Value} (spanned : Spanned v) :
    Continues (appendTools v) [ascii "tools", ascii "tool_choice"] := by
  rw [appendTools]
  split
  · exact Continues.nil _
  · rename_i tools found
    have spannedTools := spanned.find (filter_type found).1
    dsimp only
    split
    · exact Continues.nil _
    · have declared : Writes
          (0x5b :: (commaJoin (tools.arr.filterMap toolDeclaration) ++ [0x5d])) AnyValue := by
        apply writes_values
        intro text member
        obtain ⟨tool, inside, declared⟩ := List.mem_filterMap.mp member
        exact writes_toolDeclaration (spannedTools.arr inside) text declared
      refine Continues.append (Continues.member (ascii "tools") _ (by decide) declared.places ?_)
        (continues_toolChoice (spannedOption_find spanned _))
      simp only [List.append_assoc]
      rfl

/-! ## Parameters -/

theorem stopStrings_eq {values : List Value} (spanned : ∀ v ∈ values, Spanned v) :
    ∀ strings ∈ stopStrings values, ∀ text ∈ strings, Writes text AnyValue := by
  induction values with
  | nil =>
      intro strings written
      rw [stopStrings, Option.mem_some_iff] at written
      subst written
      simp
  | cons v rest inductionHypothesis =>
      intro strings written
      rw [stopStrings] at written
      split at written
      · rename_i type
        obtain ⟨more, moreWritten, rfl⟩ :=
          Option.map_eq_some_iff.mp (Option.mem_def.mp written)
        intro text member
        rcases List.mem_cons.mp member with rfl | later
        · have chars := (spanned v (List.mem_cons_self ..)).string type
          exact (writes_string chars).mono fun _ _ => trivial
        · exact inductionHypothesis (fun w inside => spanned w (List.mem_cons_of_mem _ inside))
            more moreWritten text later
      · exact absurd written (by simp)

/-- What a parameter is given is a value. -/
theorem writes_paramValue {kind : Param} {p : Value} (spanned : Spanned p) {text : Bytes}
    (written : paramValue kind p = some (some text)) : Writes text AnyValue := by
  have number : p.type = .number → Writes p.sv.bytes AnyValue := fun type =>
    (writes_number (spanned.number type)).mono fun _ _ => trivial
  cases kind with
  | true =>
      rw [paramValue, Option.some.injEq] at written
      split at written
      · rw [Option.some.injEq] at written
        subst written
        exact (writes_lit .true).mono fun _ _ => trivial
      · exact absurd written (by simp)
  | number =>
      rw [paramValue, Option.some.injEq] at written
      split at written
      · rename_i type
        rw [Option.some.injEq] at written
        subst written
        exact number type
      · exact absurd written (by simp)
  | unit =>
      rw [paramValue] at written
      split at written
      · exact absurd written (by simp)
      · rename_i type
        split at written
        · simp only [Option.some.injEq] at written
          subst written
          exact number (by simpa using type)
        · exact absurd written (by simp)
  | stops =>
      rw [paramValue] at written
      split at written
      · exact absurd written (by simp)
      · split at written
        · rename_i type
          simp only [Option.some.injEq] at written
          subst written
          have one := @writes_values [quoted p.sv.bytes] fun text member => by
            rw [List.mem_singleton.mp member]
            exact (writes_string (spanned.string type)).mono fun _ _ => trivial
          exact one
        · split at written
          · exact absurd written (by simp)
          · split at written
            · exact absurd written (by simp)
            · obtain ⟨strings, stringsWritten, same⟩ := Option.map_eq_some_iff.mp written
              rw [Option.some.injEq] at same
              subst same
              exact writes_values (stopStrings_eq (fun w member => spanned.arr member)
                strings stringsWritten)

/-- The parameters are members under their rules' names, in order. -/
theorem continues_paramsLoop {v : Value} (spanned : Spanned v) {rules : List ParamRule}
    (plain : ∀ r ∈ rules, r.target.all isPlain = true) :
    ∀ text ∈ paramsLoop v rules, Continues text (rules.map ParamRule.target) := by
  induction rules with
  | nil =>
      intro text written
      rw [paramsLoop, Option.mem_some_iff] at written
      exact written ▸ Continues.nil _
  | cons r rest inductionHypothesis =>
      have later := inductionHypothesis fun q member => plain q (List.mem_cons_of_mem _ member)
      have skip : ∀ text ∈ paramsLoop v rest,
          Continues text ((r :: rest).map ParamRule.target) := fun text written => by
        simpa using (Continues.nil [r.target]).append (later text written)
      intro text written
      rw [Option.mem_def, paramsLoop] at written
      split at written
      · exact skip text written
      · rename_i p found
        split at written
        · exact absurd written (by simp)
        · exact skip text written
        · rename_i value given
          obtain ⟨more, moreWritten, rfl⟩ := Option.map_eq_some_iff.mp written
          have here : Continues (ascii ",\"" ++ r.target ++ ascii "\":" ++ value) [r.target] := by
            refine Continues.member r.target value (plain r (List.mem_cons_self ..))
              (writes_paramValue (spanned.find found) given).places ?_
            simp only [quoted, List.append_assoc, List.cons_append]
            rfl
          have both := here.append (later more moreWritten)
          simpa only [List.append_assoc, List.map_cons, List.singleton_append] using both

/-- The parameters Anthropic has. -/
def paramNames : List Bytes :=
  [ascii "temperature", ascii "top_p", ascii "stop_sequences", ascii "stream"]

theorem continues_params {v : Value} (spanned : Spanned v) :
    ∀ text ∈ appendParams v, Continues text paramNames := by
  apply continues_paramsLoop spanned
  have plain : (kParams.all fun r => r.target.all isPlain) = true := by decide
  exact List.all_eq_true.mp plain

/-- `max_tokens_of` is a number or the default it is given. -/
theorem maxTokensOf_number {v : Value} (spanned : Spanned v) (default : Bytes) :
    IsNumber (maxTokensOf v default) ∨ maxTokensOf v default = default := by
  rw [maxTokensOf]
  split
  · rcases spanned.numOr (ascii "max_tokens") ⟨0, default⟩ with number | same
    · exact Or.inl number
    · exact Or.inr (by rw [same])
  · rename_i nonempty
    rcases spanned.numOr (ascii "max_completion_tokens") {} with number | same
    · exact Or.inl number
    · rw [same] at nonempty
      simp at nonempty

/-! ## The system text -/

/-- The texts of messages, in order. -/
def TextsOf (msgs : List Value) (texts : List Bytes) : Prop :=
  List.Forall₂ (fun m text => appendText (m.find (ascii "content")) = some text) msgs texts

/-- An escaped newline. -/
def newline : Bytes := ascii "\\n"

/-- Texts with an escaped newline between them. -/
def newlineJoin : List Bytes → Bytes
  | [] => []
  | [text] => text
  | text :: rest => text ++ newline ++ newlineJoin rest

theorem newlineJoin_cons (text : Bytes) (rest : List Bytes) :
    newlineJoin (text :: rest) = text ++ rest.flatMap fun more => newline ++ more := by
  induction rest generalizing text with
  | nil => simp [newlineJoin]
  | cons second rest inductionHypothesis =>
      rw [newlineJoin, inductionHypothesis, List.flatMap_cons]
      · simp
      · simp

theorem newline_chars : IsChars newline := by
  have shape : newline = [0x5c, 0x6e] := by decide
  rw [shape]
  exact IsChars.escape 0x6e [] (by decide) IsChars.nil

theorem newlineJoin_chars {texts : List Bytes} (chars : ∀ text ∈ texts, IsChars text) :
    IsChars (newlineJoin texts) := by
  induction texts with
  | nil => exact IsChars.nil
  | cons text rest inductionHypothesis =>
      have first := chars text (List.mem_cons_self ..)
      have others := inductionHypothesis fun t member => chars t (List.mem_cons_of_mem _ member)
      cases rest with
      | nil => exact first
      | cons second rest =>
          rw [newlineJoin]
          · exact (first.append newline_chars).append others
          · simp

/-- The texts of the system messages are joined in order. -/
theorem systemTexts_eq {msgs : List Value} {first : Bool} {text : Bytes}
    (written : systemTexts msgs first = some text) :
    ∃ texts, TextsOf msgs texts ∧
      text = if first then newlineJoin texts else texts.flatMap fun more => newline ++ more := by
  induction msgs generalizing first text with
  | nil =>
      rw [systemTexts, Option.some.injEq] at written
      subst written
      exact ⟨[], List.Forall₂.nil, by cases first <;> rfl⟩
  | cons m rest inductionHypothesis =>
      rw [systemTexts] at written
      split at written
      · exact absurd written (by simp)
      · rename_i here hereWritten
        obtain ⟨more, moreWritten, rfl⟩ := Option.map_eq_some_iff.mp written
        obtain ⟨texts, related, shape⟩ := inductionHypothesis moreWritten
        refine ⟨here :: texts, List.Forall₂.cons hereWritten related, ?_⟩
        rw [shape, newlineJoin_cons]
        cases first <;> simp [newline]

theorem textsOf_chars {msgs : List Value} {texts : List Bytes}
    (spanned : ∀ m ∈ msgs, Spanned m) (related : TextsOf msgs texts) :
    ∀ text ∈ texts, IsChars text := by
  induction related with
  | nil => simp
  | cons here _ inductionHypothesis =>
      intro text member
      rcases List.mem_cons.mp member with rfl | later
      · exact appendText_chars
          (spannedOption_find (spanned _ (List.mem_cons_self ..)) _) _ here
      · exact inductionHypothesis (fun m inside => spanned m (List.mem_cons_of_mem _ inside))
          text later

/-- A breakpoint is a container's span. -/
def IsCache (cc : Bytes) : Prop :=
  cc.isEmpty = false → Writes cc (IsSpan cc)

theorem isCache_nil : IsCache [] := fun nonempty => absurd nonempty (by simp)

theorem isCache_part {part : Value} (spanned : Spanned part) {cc : Bytes}
    (read : partCacheControl part = some cc) : IsCache cc := by
  intro nonempty
  rw [partCacheControl] at read
  split at read
  · rw [Option.some.injEq] at read
    rw [← read] at nonempty
    exact absurd nonempty (by simp)
  · rename_i v found
    split at read
    · rename_i type
      rw [Option.some.injEq] at read
      exact read ▸ writes_span (spanned.find found) (Or.inl type)
    · exact absurd read (by simp)

theorem isCache_parts {parts : List Value} (spanned : ∀ p ∈ parts, Spanned p) {cache : Bytes}
    (held : IsCache cache) : ∀ result ∈ systemPartsCache parts cache, IsCache result := by
  induction parts generalizing cache with
  | nil =>
      intro result read
      rw [systemPartsCache, Option.mem_some_iff] at read
      exact read ▸ held
  | cons part rest inductionHypothesis =>
      intro result read
      rw [Option.mem_def, systemPartsCache] at read
      split at read
      · exact absurd read (by simp)
      · rename_i cc here
        refine inductionHypothesis (fun p member => spanned p (List.mem_cons_of_mem _ member))
          ?_ result read
        split
        · exact held
        · exact isCache_part (spanned part (List.mem_cons_self ..)) here

theorem isCache_system {msgs : List Value} (spanned : ∀ m ∈ msgs, Spanned m) {cache : Bytes}
    (held : IsCache cache) : ∀ result ∈ systemCache msgs cache, IsCache result := by
  induction msgs generalizing cache with
  | nil =>
      intro result read
      rw [systemCache, Option.mem_some_iff] at read
      exact read ▸ held
  | cons m rest inductionHypothesis =>
      have spannedRest : ∀ w ∈ rest, Spanned w :=
        fun w member => spanned w (List.mem_cons_of_mem _ member)
      intro result read
      rw [Option.mem_def, systemCache] at read
      split at read
      · exact inductionHypothesis spannedRest held result read
      · rename_i c found
        have spannedContent := (spanned m (List.mem_cons_self ..)).find (filter_type found).1
        split at read
        · exact absurd read (by simp)
        · rename_i next here
          exact inductionHypothesis spannedRest
            (isCache_parts (fun p member => spannedContent.arr member) held next here)
            result read

/-- What `system` says: the texts joined, in one string, or in one block with the last
breakpoint. -/
def SystemOf (msgs : List Value) (tree : Rfc8259.Json) : Prop :=
  ∃ texts cc, TextsOf (systemMessages msgs) texts ∧
    systemCache (systemMessages msgs) [] = some cc ∧
    if cc.isEmpty then IsString (newlineJoin texts) tree
    else IsArray [IsObject (textFields (newlineJoin texts) cc)] tree

/-- The system member, when there is a system message. -/
def systemParts (msgs : List Value) (value : Bytes) : List Part :=
  if (systemMessages msgs).isEmpty then [] else [⟨ascii "system", value, SystemOf msgs⟩]

/-- `append_system` writes one member, or nothing without a system message. -/
theorem writes_system {msgs : List Value} (spanned : ∀ m ∈ msgs, Spanned m) :
    ∀ text ∈ appendSystem msgs, ∃ value, text = moreParts (systemParts msgs value) ∧
      ∀ p ∈ systemParts msgs value, p.Ok := by
  have spannedSystem : ∀ m ∈ systemMessages msgs, Spanned m :=
    fun m member => spanned m (List.mem_filter.mp member).1
  intro text written
  rw [Option.mem_def, appendSystem] at written
  split at written
  · exact absurd written (by simp)
  · rename_i cache cacheRead
    have isCache := isCache_system spannedSystem isCache_nil cache cacheRead
    split at written
    · rename_i none
      rw [Option.some.injEq] at written
      exact ⟨[], by rw [systemParts, if_pos none, ← written]; rfl,
        by rw [systemParts, if_pos none]; simp⟩
    · rename_i some
      obtain ⟨joined, joinedWritten, rfl⟩ := Option.map_eq_some_iff.mp written
      obtain ⟨texts, related, shape⟩ := systemTexts_eq joinedWritten
      rw [if_pos rfl] at shape
      have chars : IsChars joined :=
        shape ▸ newlineJoin_chars (textsOf_chars spannedSystem related)
      by_cases uncached : cache.isEmpty = true
      · refine ⟨quoted joined, ?_, ?_⟩
        · rw [if_pos uncached, systemParts, if_neg some, Json.moreParts_cons,
            Json.moreParts_nil, List.append_nil]
          rfl
        · rw [systemParts, if_neg some]
          intro p member
          rw [List.mem_singleton.mp member]
          exact Part.ok (by decide) ((writes_string chars).mono fun tree string =>
            ⟨texts, cache, related, cacheRead, by
              rw [if_pos uncached, ← shape]
              exact string⟩).places
      · have block := @writes_textFields _ cache chars fun p member => by
          rw [cacheParts, if_neg uncached, List.mem_singleton] at member
          rw [member]
          exact Part.ok (by decide) (isCache (by simpa using uncached)).places
        have array := writes_array (List.Forall₂.cons block List.Forall₂.nil)
        refine ⟨0x5b :: (commaJoin [ascii "\x7b\"type\":\"text\",\"text\":" ++ quoted joined ++
            (if cache.isEmpty then [] else ascii ",\"cache_control\":" ++ cache) ++
            ascii "\x7d"] ++ [0x5d]), ?_, ?_⟩
        · rw [if_neg uncached, if_neg uncached, systemParts, if_neg some, Json.moreParts_cons,
            Json.moreParts_nil]
          simp only [commaJoin, List.append_assoc, List.append_nil]
          rfl
        · rw [systemParts, if_neg some]
          intro p member
          rw [List.mem_singleton.mp member]
          exact Part.ok (by decide) (array.mono fun tree isArray =>
            ⟨texts, cache, related, cacheRead,
              by rw [if_neg uncached, ← shape]; exact isArray⟩).places

end Translate
end Llmbridge
