import Llmbridge.Provider.ReadUsage
import Llmbridge.Provider.ScanUsage
import Llmbridge.Provider.TranslateResponseCorrect

/-!
# Counts written and read back

A translated response states its counts twice: in its body, and in the record that is
returned beside it.  The scan that the gateway makes of such a body finds the record.
-/

namespace Llmbridge
namespace Translate

open Rfc8259
open Json (Writes Places Part Field objectText)
open JsonScan
open OpenAi (Usage Raw readMembers readStep readUsage kUsageKeys countText scannedKeys
  scanUsage)

/-! ## The members of a written object -/

/-- What a member written without whitespace shows a reader. -/
def shown (p : Part) : Bytes × Bytes :=
  (p.name, p.text)

/-- An object written of its parts has their members. -/
theorem writes_rawMembers {parts : List Part}
    (ok : ∀ p ∈ parts, (∀ c ∈ p.name, isPlain c = true) ∧ Writes p.text p.means)
    (distinct : (parts.map Part.name).Nodup) :
    Writes (0x7b :: (commaJoin (parts.map Part.written) ++ [0x7d])) fun tree =>
      rawMembers tree = parts.map shown := by
  have exactly := @Json.writes_parts
    (parts.map fun p => ⟨p.name, p.text, fun tree => tree.render = p.text⟩) (by
      intro q member
      obtain ⟨p, listed, rfl⟩ := List.mem_map.mp member
      obtain ⟨plain, written⟩ := ok p listed
      exact ⟨plain, (written.exact.mono fun _ both => both.2).places⟩) (by
      rw [List.map_map]
      exact distinct)
  simp only [List.map_map] at exactly
  refine exactly.mono fun tree meant => ?_
  obtain ⟨members, rfl, -, related⟩ := meant
  rw [rawMembers, Json.members_ofMembers, List.map_map]
  clear exactly ok distinct
  induction parts generalizing members with
  | nil =>
      cases related
      rfl
  | cons p parts inductionHypothesis =>
      cases related with
      | cons here rest =>
          rw [List.map_cons, List.map_cons, inductionHypothesis _ rest]
          exact congrArg₂ _ (Prod.ext here.1 here.2) rfl

/-- A reader of a written object sees its members in order. -/
theorem forEachMember_written {σ : Type} (f : σ → Bytes → Bytes → σ × Bool) (s : σ)
    {first : Part} {rest : List Part}
    (ok : ∀ p ∈ first :: rest, (∀ c ∈ p.name, isPlain c = true) ∧ Writes p.text p.means)
    (distinct : ((first :: rest).map Part.name).Nodup) :
    (forEachMember f (objectText first rest) s).2 =
      eachMember f s ((first :: rest).map shown) := by
  obtain ⟨tree, shape, -, members⟩ := writes_rawMembers ok distinct
  have located : Located (objectText first rest) 0 (Ws.nil.bytes ++ tree.render) := by
    refine ⟨[], ?_⟩
    rw [Json.objectText_eq, shape]
    simp
  rw [forEachMember_located f Ws.nil tree located, members]

/-! ## Reading the counts -/

/-- A count that is not below zero is written in digits. -/
theorem countText_eq {v : Int} (nonnegative : 0 ≤ v) : countText v = decimalDigits v.toNat := by
  rw [countText, if_neg (by omega), OpenAi.decimal, if_neg (by omega)]
  exact congrArg decimalDigits (by omega)

/-- A written count is read back. -/
theorem count_countText {v : Int} (nonnegative : 0 ≤ v) (small : v < 10 ^ 18) :
    count (countText v) = v := by
  rw [countText_eq nonnegative, count_decimalDigits (by omega)]
  omega

/-- A count begins with a digit. -/
theorem countText_head (v : Int) : ∃ c rest, countText v = c :: rest ∧ isDigit c = true := by
  have digits : ∀ n : Nat, ∃ c rest, decimalDigits n = c :: rest ∧ isDigit c = true := by
    intro n
    obtain ⟨c, rest, shape⟩ := List.exists_cons_of_ne_nil (decimalDigits_ne_nil n)
    exact ⟨c, rest, shape, decimalDigits_isDigit n c (by rw [shape]; exact List.mem_cons_self)⟩
  have nonnegative : ¬ (if v < 0 then 0 else v) < 0 := by omega
  rw [countText, OpenAi.decimal, if_neg nonnegative]
  exact digits _

/-- A count is looked up by its name and its parent. -/
theorem readStep_count (levels : Nat) (parent : Bytes) (r : Raw) (k : Bytes) (v : Int) :
    readStep kUsageKeys levels parent r k (countText v) =
      ((kUsageKeys.find? fun key => ascii key.name = k ∧ ascii key.parent = parent).elim r
        fun key => key.set r (key.parse (countText v)), true) := by
  obtain ⟨c, rest, shape, digit⟩ := countText_head v
  have other : ∀ d : Byte, isDigit d = false → (countText v).head? ≠ some d := by
    rintro d notDigit same
    rw [shape, List.head?_cons, Option.some.injEq] at same
    rw [same, notDigit] at digit
    exact Bool.noConfusion digit
  unfold readStep
  rw [if_neg (other _ (by decide)), if_neg (fun both => other _ (by decide) both.2),
    if_neg (fun both => other _ (by decide) both.2)]
  cases kUsageKeys.find? fun key => ascii key.name = k ∧ ascii key.parent = parent with
  | none => rfl
  | some key => rfl

/-- The text of an object of one count. -/
theorem detailPart_text (name inner : String) (v : Int) :
    (detailPart name inner v).text = objectText (countPart inner v) [] := by
  simp only [detailPart, countPart, objectText, Json.moreParts_nil, quoted, List.append_assoc,
    List.cons_append, List.nil_append]
  rfl

/-- A count is a plain name and a number. -/
theorem countPart_writes {name : String} (plain : (ascii name).all isPlain = true) (v : Int) :
    (∀ c ∈ (countPart name v).name, isPlain c = true) ∧
      Writes (countPart name v).text (countPart name v).means :=
  ⟨List.all_eq_true.mp plain, Json.writes_number (decimal_isNumber _)⟩

/-- A detail is a plain name and an object of one count. -/
theorem detailPart_writes {name inner : String} (plain : (ascii name).all isPlain = true)
    (plainInner : (ascii inner).all isPlain = true) (v : Int) :
    (∀ c ∈ (detailPart name inner v).name, isPlain c = true) ∧
      Writes (detailPart name inner v).text (detailPart name inner v).means := by
  refine ⟨List.all_eq_true.mp plain, Json.writes_members (countPart inner v) []
    (detailPart_text name inner v) ?_ (List.nodup_singleton _)⟩
  intro p member
  rw [List.mem_singleton.mp member]
  exact countPart_ok plainInner v

/-- The prompt's count is read back. -/
theorem readStep_prompt (levels : Nat) (r : Raw) {v : Int} (nonnegative : 0 ≤ v)
    (small : v < 10 ^ 18) :
    readStep kUsageKeys levels [] r (ascii "prompt_tokens") (countText v) =
      ({ r with prompt := v }, true) := by
  rw [readStep_count]
  show ({ r with prompt := count (countText v) }, true) = _
  rw [count_countText nonnegative small]

/-- So is the completion's. -/
theorem readStep_completion (levels : Nat) (r : Raw) {v : Int} (nonnegative : 0 ≤ v)
    (small : v < 10 ^ 18) :
    readStep kUsageKeys levels [] r (ascii "completion_tokens") (countText v) =
      ({ r with completion := v }, true) := by
  rw [readStep_count]
  show ({ r with completion := count (countText v) }, true) = _
  rw [count_countText nonnegative small]

/-- No count of a record is a total. -/
theorem readStep_total (levels : Nat) (r : Raw) (v : Int) :
    readStep kUsageKeys levels [] r (ascii "total_tokens") (countText v) = (r, true) := by
  rw [readStep_count]
  rfl

/-- An object below a member is read with the member as its parent. -/
theorem readStep_detail (levels : Nat) (r : Raw) (name : String) {inner : String}
    (plainInner : (ascii inner).all isPlain = true) (v : Int) :
    readStep kUsageKeys (levels + 1) [] r (ascii name) (detailPart name inner v).text =
      ((readStep kUsageKeys levels (ascii name) r (ascii inner) (countText v)).1, true) := by
  have inside := @forEachMember_written _ (readStep kUsageKeys levels (ascii name)) r
    (countPart inner v) [] (by
      intro p member
      rw [List.mem_singleton.mp member]
      exact countPart_writes plainInner v) (List.nodup_singleton _)
  rw [detailPart_text]
  show (readMembers kUsageKeys (levels + 1) (objectText (countPart inner v) []) (ascii name) r,
    true) = _
  rw [OpenAi.readMembers_succ, inside]
  show (eachMember _ r [(ascii inner, countText v)], true) = _
  rw [eachMember]
  cases readStep kUsageKeys levels (ascii name) r (ascii inner) (countText v) with
  | mk r' goes => cases goes <;> rfl

/-- So is the cached part of the prompt. -/
theorem readStep_cached (levels : Nat) (r : Raw) {v : Int} (nonnegative : 0 ≤ v)
    (small : v < 10 ^ 18) :
    readStep kUsageKeys (levels + 1) [] r (ascii "prompt_tokens_details")
        (detailPart "prompt_tokens_details" "cached_tokens" v).text =
      ({ r with cached := v }, true) := by
  rw [readStep_detail levels r _ (by decide), readStep_count]
  show ({ r with cached := count (countText v) }, true) = _
  rw [count_countText nonnegative small]

/-- So is the reasoning part of the completion. -/
theorem readStep_reasoning (levels : Nat) (r : Raw) {v : Int} (nonnegative : 0 ≤ v)
    (small : v < 10 ^ 18) :
    readStep kUsageKeys (levels + 1) [] r (ascii "completion_tokens_details")
        (detailPart "completion_tokens_details" "reasoning_tokens" v).text =
      ({ r with reasoning := v }, true) := by
  rw [readStep_detail levels r _ (by decide), readStep_count]
  show ({ r with reasoning := count (countText v) }, true) = _
  rw [count_countText nonnegative small]

/-- Every part of a usage is a plain name and its value. -/
theorem usageParts_writes (u : Usage) (total : Int) :
    ∀ p ∈ usageParts u total, (∀ c ∈ p.name, isPlain c = true) ∧ Writes p.text p.means := by
  simp only [usageParts, usageRest, List.forall_mem_cons, List.forall_mem_append]
  refine ⟨countPart_writes (by decide) _, ⟨countPart_writes (by decide) _,
    countPart_writes (by decide) _, by simp⟩, ?_, ?_⟩
  · intro p member
    split at member
    · rw [List.mem_singleton.mp member]
      exact detailPart_writes (by decide) (by decide) _
    · exact absurd member (by simp)
  · intro p member
    split at member
    · rw [List.mem_singleton.mp member]
      exact detailPart_writes (by decide) (by decide) _
    · exact absurd member (by simp)

/-- A walk goes on behind a member that does not end it. -/
theorem eachMember_next {σ : Type} {f : σ → Bytes → Bytes → σ × Bool} {s s' : σ} {k v : Bytes}
    (step : f s k v = (s', true)) (rest : List (Bytes × Bytes)) :
    eachMember f s ((k, v) :: rest) = eachMember f s' rest := by
  rw [eachMember, step]

/-- The cached part is read back, or is absent and zero. -/
theorem eachMember_cached (levels : Nat) (r : Raw) {v : Int} (small : v < 10 ^ 18)
    (rest : List (Bytes × Bytes)) :
    eachMember (readStep kUsageKeys (levels + 1) []) r
        ((if 0 < v then [detailPart "prompt_tokens_details" "cached_tokens" v] else []).map
          shown ++ rest) =
      eachMember (readStep kUsageKeys (levels + 1) [])
        { r with cached := if 0 < v then v else r.cached } rest := by
  by_cases positive : 0 < v
  · rw [if_pos positive, if_pos positive]
    exact eachMember_next (readStep_cached levels r (by omega) small) rest
  · rw [if_neg positive, if_neg positive]
    rfl

/-- The reasoning part is read back, or is absent. -/
theorem eachMember_reasoning (levels : Nat) (r : Raw) {v : Int} (small : v < 10 ^ 18) :
    eachMember (readStep kUsageKeys (levels + 1) []) r
        ((if 0 ≤ v then
          [detailPart "completion_tokens_details" "reasoning_tokens" v] else []).map shown) =
      { r with reasoning := if 0 ≤ v then v else r.reasoning } := by
  by_cases nonnegative : 0 ≤ v
  · rw [if_pos nonnegative, if_pos nonnegative]
    exact eachMember_next (readStep_reasoning levels r nonnegative small) []
  · rw [if_neg nonnegative, if_neg nonnegative]
    rfl

/-- The counts of a record that a response states. -/
structure Stated (u : Usage) : Prop where
  input : 0 ≤ u.input ∧ u.input < 10 ^ 18
  out : 0 ≤ u.out ∧ u.out < 10 ^ 18
  cached : u.cached < 10 ^ 18
  reasoning : u.reasoning < 10 ^ 18

/-- The members a usage object is read by. -/
theorem readMembers_usage (levels : Nat) {u : Usage} (total : Int) (stated : Stated u) :
    readMembers kUsageKeys (levels + 2) (usageObject u total) [] {} =
      { prompt := u.input
        completion := u.out
        cached := if 0 < u.cached then u.cached else -1
        reasoning := if 0 ≤ u.reasoning then u.reasoning else -1 } := by
  obtain ⟨⟨input, inputSmall⟩, ⟨out, outSmall⟩, cachedSmall, reasoningSmall⟩ := stated
  have distinct : ((usageParts u total).map Part.name).Nodup :=
    List.Nodup.sublist (usageRest_names u total) (by decide)
  rw [OpenAi.readMembers_succ, usageObject,
    forEachMember_written _ _ (usageParts_writes u total) distinct]
  refine (eachMember_next (readStep_prompt _ _ input inputSmall) _).trans ?_
  refine (eachMember_next (readStep_completion _ _ out outSmall) _).trans ?_
  refine (eachMember_next (readStep_total _ _ _) _).trans ?_
  show eachMember _ _ (List.map shown ([] ++ (_ ++ _))) = _
  rw [List.nil_append, List.map_append, eachMember_cached _ _ cachedSmall,
    eachMember_reasoning _ _ reasoningSmall]

/-- The counts that a written usage object is read back with. -/
theorem readUsage_written {u : Usage} (total : Int) (stated : Stated u) :
    readUsage (usageObject u total) false =
      { input := u.input
        out := u.out
        cached := if 0 < u.cached then u.cached else -1
        reasoning := if 0 ≤ u.reasoning then u.reasoning else -1 } := by
  obtain ⟨levels, enough⟩ : ∃ levels, (usageObject u total).length + 1 = levels + 2 := by
    refine ⟨(usageObject u total).length - 1, ?_⟩
    have some : 0 < (usageObject u total).length := by
      rw [usageObject, objectText, List.length_cons]
      omega
    omega
  rw [readUsage, if_neg (by simp), enough, readMembers_usage levels total stated,
    OpenAi.fromUsage, OpenAi.counts]
  rw [if_pos (Or.inl stated.input.1)]
  rfl

/-! ## Finding the usage object -/

/-- The length of a member's text. -/
theorem member_text_length (member : Rfc8259.Member) :
    member.text.length = member.key.render.length + member.2.pre.bytes.length +
      member.2.value.render.length + member.2.post.bytes.length := by
  rw [Rfc8259.Member.key_render, Rfc8259.Member.text, Text.render]
  simp only [List.length_append, List.length_cons, List.length_nil]
  omega

/-- The last member of an object is the last one found, when it is looked for and its
separator is in the window. -/
theorem inItems_last {τ : Type} {names : KeyNames τ} {lo : Nat} {last : Rfc8259.Member}
    {tag : τ} (named : names.named last.1.bytes = some tag)
    (isObject : last.2.value.isObject = true) :
    ∀ (rest : List Rfc8259.Member) (first : Rfc8259.Member) (sep : Nat),
      (first :: rest).getLast? = some last →
      lo ≤ sep + 1 + (Items.ofMembers first rest).render.length - (last.text.length + 1) →
      (names.inItems lo sep (sep + 1) (Items.ofMembers first rest)).getLast? =
        some (tag, last.2.value.render) := by
  intro rest
  induction rest with
  | nil =>
      intro first sep isLast inside
      rw [List.getLast?_singleton, Option.some.injEq] at isLast
      subst isLast
      have size : (Items.ofMembers first []).render.length = first.text.length := by
        rw [Items.ofMembers_render]
        rfl
      have head : @KeyNames.ofHead _ names .object first.key = some tag := named
      rw [Items.ofMembers, KeyNames.inItems, KeyNames.ofItem, head]
      dsimp only
      rw [if_pos ⟨by omega, isObject⟩]
      rfl
  | cons second rest inductionHypothesis =>
      intro first sep isLast inside
      rw [List.getLast?_cons_cons] at isLast
      have size : (Items.ofMembers first (second :: rest)).render.length =
          first.text.length + 1 + (Items.ofMembers second rest).render.length := by
        rw [member_text_length, Items.ofMembers, Items.render]
        simp only [List.length_append, List.length_cons]
        omega
      have text := member_text_length first
      have inside' : lo ≤ sep + 1 + first.key.render.length + first.2.pre.bytes.length +
          first.2.value.render.length + first.2.post.bytes.length + 1 +
          (Items.ofMembers second rest).render.length - (last.text.length + 1) := by
        omega
      have later := inductionHypothesis second _ isLast inside'
      rw [Items.ofMembers, KeyNames.inItems, List.getLast?_append, later]
      rfl

/-- A count is short. -/
theorem countText_length {v : Int} (small : v < 10 ^ 19) : (countText v).length ≤ 19 := by
  have nonnegative : 0 ≤ if v < 0 then 0 else v := by omega
  have eq : countText v = decimalDigits (if v < 0 then 0 else v).toNat := by
    rw [countText, OpenAi.decimal, if_neg (by omega)]
    exact congrArg decimalDigits (by omega)
  rw [eq]
  exact decimalDigits_length_le (by decide) (by omega)

/-- A usage object is short. -/
theorem usageObject_length {u : Usage} {total : Int} (stated : Stated u)
    (small : totalOf u total < 10 ^ 19) : (usageObject u total).length ≤ 300 := by
  obtain ⟨⟨input, inputSmall⟩, ⟨out, outSmall⟩, cachedSmall, reasoningSmall⟩ := stated
  have input := @countText_length u.input (by omega)
  have out := @countText_length u.out (by omega)
  have total := countText_length small
  have cached := @countText_length u.cached (by omega)
  have reasoning := @countText_length u.reasoning (by omega)
  have names : (ascii "prompt_tokens").length = 13 ∧ (ascii "completion_tokens").length = 17 ∧
      (ascii "total_tokens").length = 12 ∧ (ascii "cached_tokens").length = 13 ∧
      (ascii "prompt_tokens_details").length = 21 ∧ (ascii "reasoning_tokens").length = 16 ∧
      (ascii "completion_tokens_details").length = 25 ∧ (ascii "\x7b\"").length = 2 ∧
      (ascii "\":").length = 2 ∧ (ascii "\x7d").length = 1 := by
    decide
  unfold usageObject usageRest
  split_ifs <;>
    simp only [objectText, Json.moreParts_cons, Json.moreParts_nil, countPart, detailPart, quoted,
      List.cons_append, List.nil_append, List.length_append, List.length_cons, List.length_nil,
      names] <;>
    omega

/-- A text from brace to brace has no whitespace around its value. -/
theorem text_bare {text : Text} {inside : Bytes}
    (shape : text.render = 0x7b :: (inside ++ [0x7d])) :
    text.value.render = text.render := by
  have none : text.pre.bytes = [] := by
    cases spaces : text.pre.bytes with
    | nil => rfl
    | cons c rest =>
        have ws := text.pre.ok c (by rw [spaces]; exact List.mem_cons_self)
        rw [Text.render, spaces, List.cons_append, List.cons.injEq] at shape
        rw [shape.1] at ws
        exact absurd ws (by decide)
  have none' : text.post.bytes = [] := by
    rcases List.eq_nil_or_concat text.post.bytes with empty | ⟨rest, c, spaces⟩
    · exact empty
    · have ws := text.post.ok c (by rw [spaces]; simp)
      have lasts := congrArg List.getLast? shape
      rw [Text.render, spaces, ← List.append_assoc, List.concat_eq_append,
        ← List.append_assoc, List.getLast?_concat, ← List.cons_append,
        List.getLast?_concat] at lasts
      rw [Option.some.inj lasts] at ws
      exact absurd ws (by decide)
  rw [Text.render, none, none', List.nil_append, List.append_nil]

/-- A completion is read back with the counts it was written with. -/
theorem scanUsage_settled {now : Int} {r : Response} (settled : Settled now r)
    (accepted : r.ok = true) (stated : Stated r.usage) :
    scanUsage r.out =
      { input := r.usage.input
        out := r.usage.out
        cached := if 0 < r.usage.cached then r.usage.cached else -1
        reasoning := if 0 ≤ r.usage.reasoning then r.usage.reasoning else -1 } := by
  unfold Settled at settled
  rw [if_pos accepted] at settled
  obtain ⟨id, model, message, finish, means, total, shape, ok, given, small⟩ := settled
  obtain ⟨tree, rendered, -, members, rfl, texts, related⟩ := Json.writes_parts ok
    (completionParts_distinct id model message finish means now r.usage total)
  rw [completion_eq means now r.usage total given, Json.objectText_eq] at shape
  simp only [completionParts, completionRest, List.map_cons, List.map_nil] at related texts
  rcases related with _ | ⟨-, _ | ⟨-, _ | ⟨-, _ | ⟨-, _ | ⟨-, _ | ⟨field, _ | _⟩⟩⟩⟩⟩⟩
  rename_i first second third fourth fifth last
  obtain ⟨name, meant⟩ := field
  have isObject := meant.names.1
  simp only [List.map_cons, List.map_nil, List.cons.injEq, and_true] at texts
  have lastText := texts.2.2.2.2.2
  have same : last.2.render = usageObject r.usage total := by
    rw [Rfc8259.Member.text, Part.written, name] at lastText
    exact (List.cons.inj (List.append_cancel_left lastText)).2
  have value : last.2.value.render = usageObject r.usage total := by
    rw [← same]
    rw [usageObject, Json.objectText_eq] at same
    exact text_bare same
  have bound : totalOf r.usage total < 10 ^ 19 := by
    have := stated.input
    have := stated.out
    rw [totalOf]
    split_ifs <;> omega
  have size : last.text.length ≤ 308 := by
    have object := usageObject_length stated bound
    have word : (ascii "usage").length = 5 := by decide
    rw [lastText, Part.written]
    simp only [quoted, List.length_append, List.length_cons, List.length_nil, word]
    omega
  have text : r.out =
      (Text.mk Ws.nil (Json.ofMembers [first, second, third, fourth, fifth, last])
        Ws.nil).render := by
    rw [shape]
    simp only [completionParts, List.map_cons] at rendered
    rw [Text.render, ← rendered]
    simp [completionRest]
  have named : scannedKeys.named last.1.bytes = some false := by
    rw [name]
    show scannedKeys.named (ascii "usage") = some false
    decide
  have inside : OpenAi.windowStart r.out.length OpenAi.kUsageWindow ≤
      0 + 1 + (Items.ofMembers first [second, third, fourth, fifth, last]).render.length -
        (last.text.length + 1) := by
    have length : r.out.length =
        (Items.ofMembers first [second, third, fourth, fifth, last]).render.length + 2 := by
      rw [text, Text.render, Json.ofMembers, Json.render]
      simp
    unfold OpenAi.windowStart OpenAi.kUsageWindow
    split_ifs <;> omega
  have found : (scannedKeys.inText (OpenAi.windowStart r.out.length OpenAi.kUsageWindow)
      (Text.mk Ws.nil (Json.ofMembers [first, second, third, fourth, fifth, last])
        Ws.nil)).getLast? = some (false, last.2.value.render) :=
    inItems_last named isObject [second, third, fourth, fifth, last] first 0 rfl inside
  rw [text, OpenAi.scanUsage_correct, ← text, found]
  dsimp only
  rw [value, readUsage_written total stated]

/-! ## The counts returned -/

/-- An iteration states no reasoning. -/
theorem iteration_reasoning (r : Raw) (e : OpenAi.Iteration) :
    (r.iteration e).reasoning = r.reasoning := by
  unfold OpenAi.Raw.iteration
  dsimp only
  split_ifs <;> rfl

/-- A usage object states no reasoning count or one that is not negative. -/
theorem reasoning_kept : OpenAi.Kept kUsageKeys fun r => -1 ≤ r.reasoning where
  iteration r e holds := by rwa [iteration_reasoning]
  audioIn _ _ holds := holds
  audioOut _ _ holds := holds
  speed _ _ holds := holds
  geo _ _ holds := holds
  set key member r raw holds := by
    have least := (count_bounds raw).1
    simp only [kUsageKeys, List.mem_cons, List.not_mem_nil, or_false] at member
    rcases member with rfl | rfl | rfl | rfl | rfl | rfl | rfl | rfl | rfl | rfl | rfl | rfl |
      rfl | rfl | rfl | rfl | rfl | rfl | rfl | rfl | rfl | rfl | rfl | rfl | rfl <;>
      first | exact holds | exact least

/-- The reasoning of a usage is not below -1. -/
theorem usageOf_reasoning (object : Bytes) : -1 ≤ (OpenAi.usageOf object).reasoning := by
  have read := reasoning_kept.readMembers (object.length + 1) object []
    (r := {}) (show (-1 : Int) ≤ -1 by decide)
  have same : ∀ r : Raw, (OpenAi.fromUsage r).reasoning = r.reasoning := by
    intro r
    have extra : ∀ u : Usage, (OpenAi.extras r u).reasoning = u.reasoning := by
      intro u
      unfold OpenAi.extras
      dsimp only
      split_ifs <;> rfl
    rw [OpenAi.fromUsage, extra, OpenAi.counts]
    split_ifs <;> rfl
  rw [OpenAi.usageOf, readUsage, if_neg (by simp), same]
  exact read

/-- Nor is that of Gemini's counts. -/
theorem geminiCounts_reasoning (v : Json.Value) : -1 ≤ (geminiCounts v).1.reasoning := by
  unfold geminiCounts
  split
  · decide
  · have least := fun raw => (count_bounds raw).1
    unfold OpenAi.geminiUsage
    dsimp only
    split_ifs
    · omega
    · exact least _

/-- What a translator returns beside its output. -/
def Returned (u : Usage) : Prop :=
  ∃ counted : Usage, u = OpenAi.asWritten counted ∧ -1 ≤ counted.reasoning

/-- The counts of an accepted Anthropic reply. -/
theorem anthropic_returned (now : Int) (body : Bytes)
    (accepted : (anthropicToOpenaiResponse now body).ok = true) :
    Returned (anthropicToOpenaiResponse now body).usage := by
  unfold anthropicToOpenaiResponse at accepted ⊢
  split at accepted
  · exact absurd accepted (by simp)
  · split at accepted
    · exact absurd accepted (by simp)
    · refine ⟨_, rfl, ?_⟩
      split
      · decide
      · exact usageOf_reasoning _

/-- The counts of an accepted Gemini reply. -/
theorem gemini_returned (now : Int) (body : Bytes)
    (accepted : (geminiToOpenaiResponse now body).ok = true) :
    Returned (geminiToOpenaiResponse now body).usage := by
  unfold geminiToOpenaiResponse at accepted ⊢
  split at accepted
  · exact absurd accepted (by simp)
  · dsimp only at accepted ⊢
    split at accepted
    · exact absurd accepted (by simp)
    · exact ⟨_, rfl, geminiCounts_reasoning _⟩

/-- The counts of an accepted Cohere reply. -/
theorem cohere_returned (now : Int) (body : Bytes)
    (accepted : (cohereToOpenaiResponse now body).ok = true) :
    Returned (cohereToOpenaiResponse now body).usage := by
  unfold cohereToOpenaiResponse at accepted ⊢
  split at accepted
  · exact absurd accepted (by simp)
  · split at accepted
    · exact absurd accepted (by simp)
    · refine ⟨_, rfl, ?_⟩
      unfold cohereCounts
      split <;> exact le_refl (-1 : Int)

/-! ## Responses -/

/-- The counts of a record that a response states are below a bound. -/
structure CountsBelow (bound : Int) (u : Usage) : Prop where
  input : u.input < bound
  out : u.out < bound
  cached : u.cached < bound
  reasoning : u.reasoning < bound

/-- Two records state the same input, output, cached and reasoning counts. -/
structure SameCounts (u v : Usage) : Prop where
  input : u.input = v.input
  out : u.out = v.out
  cached : u.cached = v.cached
  reasoning : u.reasoning = v.reasoning

/-- The counts of a settled reply are read back from what was written. -/
theorem Settled.reads_back {now : Int} {r : Response} (settled : Settled now r)
    (accepted : r.ok = true) (returned : Returned r.usage)
    (below : CountsBelow (10 ^ 18) r.usage) : SameCounts (scanUsage r.out) r.usage := by
  obtain ⟨counted, same, reasoning⟩ := returned
  obtain ⟨input, out, cached, reasoningBelow⟩ := below
  have read := scanUsage_settled settled accepted ⟨⟨by
    rw [same, OpenAi.asWritten]
    dsimp only
    omega, input⟩, ⟨by
    rw [same, OpenAi.asWritten]
    dsimp only
    omega, out⟩, cached, reasoningBelow⟩
  rw [read]
  refine ⟨rfl, rfl, ?_, ?_⟩
  · dsimp only
    rw [same, OpenAi.asWritten]
    dsimp only
    omega
  · dsimp only
    rw [same, OpenAi.asWritten]
    dsimp only
    omega

/-- A settled reply is one object. -/
theorem Settled.object {now : Int} {r : Response} (settled : Settled now r)
    (accepted : r.ok = true) :
    ∃ tree : Rfc8259.Json, r.out = tree.render ∧ tree.isObject = true := by
  have completes := settled.completes
  unfold Completes at completes
  rw [if_pos accepted] at completes
  obtain ⟨id, model, finish, message, total, tree, shape, -, meant⟩ := completes
  exact ⟨tree, shape, meant.names.1⟩

/-- A translator writes nothing, or one object whose counts are those it returns; and an
upstream's error is one object with one member.  Counts below 10^17 add up to less than
the bound. -/
theorem responses_read_back (now : Int) (body : Bytes) :
    (∀ r ∈ [anthropicToOpenaiResponse now body, geminiToOpenaiResponse now body,
        cohereToOpenaiResponse now body],
      (r.ok = false → r.out = []) ∧
      (r.ok = true →
        (∃ tree : Rfc8259.Json, r.out = tree.render ∧ tree.isObject = true) ∧
        (CountsBelow (10 ^ 18) r.usage → SameCounts (scanUsage r.out) r.usage))) ∧
    ∀ fallbackType : Bytes, fallbackType.all isPlain = true →
      ∃ (message type : Bytes) (tree : Rfc8259.Json),
        upstreamErrorToOpenai body fallbackType = tree.render ∧ ErrorOf message type tree := by
  have each : ∀ r : Response, Settled now r → (r.ok = true → Returned r.usage) →
      (r.ok = false → r.out = []) ∧
      (r.ok = true →
        (∃ tree : Rfc8259.Json, r.out = tree.render ∧ tree.isObject = true) ∧
        (CountsBelow (10 ^ 18) r.usage → SameCounts (scanUsage r.out) r.usage)) := by
    intro r settled returned
    constructor
    · intro refused
      unfold Settled at settled
      rwa [if_neg (by rw [refused]; decide)] at settled
    · intro accepted
      exact ⟨settled.object accepted, settled.reads_back accepted (returned accepted)⟩
  constructor
  · simp only [List.forall_mem_cons]
    exact ⟨each _ (anthropic_settles now body) (anthropic_returned now body),
      each _ (gemini_settles now body) (gemini_returned now body),
      each _ (cohere_settles now body) (cohere_returned now body), by simp⟩
  · intro fallbackType plain
    obtain ⟨message, type, tree, shape, -, meant⟩ :=
      writes_upstreamError body (default_chars plain)
    exact ⟨message, type, tree, shape, meant⟩

/-- A reply with a cached part of its prompt. -/
def cachedReply : Bytes :=
  ascii "\x7b\"model\":\"m\",\"usage\":\x7b\"input_tokens\":7," ++
    ascii "\"cache_read_input_tokens\":5,\"output_tokens\":3\x7d\x7d"

theorem responses_read_back_cached :
    SameCounts (scanUsage (anthropicToOpenaiResponse 0 cachedReply).out)
        (anthropicToOpenaiResponse 0 cachedReply).usage ∧
      (anthropicToOpenaiResponse 0 cachedReply).usage.input = 12 ∧
      ∃ (message type : Bytes) (tree : Rfc8259.Json),
        upstreamErrorToOpenai cachedReply (ascii "api_error") = tree.render ∧
          ErrorOf message type tree :=
  ⟨(((responses_read_back 0 cachedReply).1 _ List.mem_cons_self).2 (by decide +kernel)).2
      ⟨by decide +kernel, by decide +kernel, by decide +kernel, by decide +kernel⟩,
    by decide +kernel, (responses_read_back 0 cachedReply).2 _ (by decide)⟩

end Translate
end Llmbridge
