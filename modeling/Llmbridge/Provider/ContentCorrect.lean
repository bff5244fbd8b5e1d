import Llmbridge.Provider.Content
import Llmbridge.Provider.JsonWriter

/-!
# What a content field becomes

The text of a content is string contents, and the value `append_content` writes is
a string or an array with one block for each part that has text.
-/

namespace Llmbridge
namespace Translate

open Rfc8259
open Json (Value View Spanned Writes Part Field IsObject IsArray IsString IsSpan moreParts
  writes_string writes_plain writes_span writes_array writes_members)

/-- Every span of an optional value is a piece of the grammar. -/
def SpannedOption (c : Option Value) : Prop :=
  ∀ v ∈ c, Spanned v

theorem spannedOption_find {v : Value} (spanned : Spanned v) (key : Bytes) :
    SpannedOption (v.find key) :=
  fun _ found => spanned.find (Option.mem_def.mp found)

theorem partText_chars {part : Value} (spanned : Spanned part) : IsChars (partText part) :=
  spanned.strOr _

/-! ## The flat text -/

theorem appendParts_chars {parts : List Value} (spanned : ∀ p ∈ parts, Spanned p) :
    ∀ text ∈ appendParts parts, IsChars text := by
  induction parts with
  | nil =>
      intro text written
      rw [appendParts, Option.mem_some_iff] at written
      exact written ▸ IsChars.nil
  | cons part rest inductionHypothesis =>
      intro text written
      rw [appendParts] at written
      split at written
      · obtain ⟨more, writtenMore, rfl⟩ := Option.map_eq_some_iff.mp (Option.mem_def.mp written)
        have first := partText_chars (spanned part (List.mem_cons_self ..))
        exact first.append (inductionHypothesis
          (fun p member => spanned p (List.mem_cons_of_mem _ member)) more writtenMore)
      · exact absurd written (by simp)

/-- What `append_text` writes is string contents. -/
theorem appendText_chars {c : Option Value} (spanned : SpannedOption c) :
    ∀ text ∈ appendText c, IsChars text := by
  intro text written
  cases c with
  | none =>
      rw [appendText, Option.mem_some_iff] at written
      exact written ▸ IsChars.nil
  | some v =>
      have spannedHere := spanned v rfl
      rw [appendText] at written
      split at written
      · rename_i type
        rw [Option.mem_some_iff] at written
        exact written ▸ spannedHere.string type
      · split at written
        · exact appendParts_chars (fun p member => spannedHere.arr member) text written
        · rw [Option.mem_some_iff] at written
          exact written ▸ IsChars.nil

/-! ## The blocks of a cached content -/

/-- The breakpoint as a member of its block, when the part carries one. -/
def cacheParts (cc : Bytes) : List Part :=
  if cc.isEmpty then [] else [⟨ascii "cache_control", cc, IsSpan cc⟩]

/-- What a text block says: its text, and its breakpoint when there is one. -/
def textFields (text cc : Bytes) : List Field :=
  [(ascii "type", IsString (ascii "text")), (ascii "text", IsString text)] ++
    if cc.isEmpty then [] else [(ascii "cache_control", IsSpan cc)]

theorem cacheParts_field (cc : Bytes) :
    (cacheParts cc).map Part.field =
      if cc.isEmpty then [] else [(ascii "cache_control", IsSpan cc)] := by
  rw [cacheParts]
  split <;> rfl

theorem partCacheControl_ok {part : Value} (spanned : Spanned part) {cc : Bytes}
    (read : partCacheControl part = some cc) : ∀ p ∈ cacheParts cc, p.Ok := by
  intro p member
  rw [cacheParts] at member
  split at member
  · exact absurd member (by simp)
  · rename_i nonempty
    rw [List.mem_singleton] at member
    subst member
    refine Part.ok (by decide) ?_
    rw [partCacheControl] at read
    split at read
    · rw [Option.some.injEq] at read
      exact absurd (by rw [← read]; rfl) nonempty
    · rename_i v found
      split at read
      · rename_i type
        rw [Option.some.injEq] at read
        subst read
        exact (writes_span (spanned.find found) (Or.inl type)).places
      · exact absurd read (by simp)

/-- A text block with the text and the breakpoint byte for byte. -/
theorem writes_textFields {text cc : Bytes} (chars : IsChars text)
    (ok : ∀ p ∈ cacheParts cc, p.Ok) :
    Writes (ascii "\x7b\"type\":\"text\",\"text\":" ++ quoted text ++
      (if cc.isEmpty then [] else ascii ",\"cache_control\":" ++ cc) ++ ascii "\x7d")
      (IsObject (textFields text cc)) := by
  rw [textFields, ← cacheParts_field]
  refine writes_members
    ⟨ascii "type", quoted (ascii "text"), IsString (ascii "text")⟩
    (⟨ascii "text", quoted text, IsString text⟩ :: cacheParts cc) ?_ ?_ ?_
  · rw [cacheParts]
    cases cc.isEmpty <;>
      simp only [if_true, if_false, Json.objectText, Json.moreParts_cons, Json.moreParts_nil,
        List.append_assoc, List.cons_append, List.nil_append, Bool.false_eq_true] <;> rfl
  · intro p member
    rcases List.mem_cons.mp member with rfl | later
    · exact Part.ok (by decide) (writes_plain (by decide)).places
    · rcases List.mem_cons.mp later with rfl | cache
      · exact Part.ok (by decide) (writes_string chars).places
      · exact ok p cache
  · have all : [ascii "type", ascii "text", ascii "cache_control"].Nodup := by decide
    refine List.Nodup.sublist ?_ all
    rw [cacheParts]
    cases cc.isEmpty
    · exact List.Sublist.refl _
    · exact List.Sublist.cons_cons _ (List.Sublist.cons_cons _ (List.nil_sublist _))

/-- A block holds the part's text and its breakpoint, both as they came. -/
theorem writes_textBlock {part : Value} (spanned : Spanned part) {cc : Bytes}
    (read : partCacheControl part = some cc) :
    Writes (textBlock part) (IsObject (textFields (partText part) cc)) := by
  rw [textBlock, read]
  exact writes_textFields (partText_chars spanned) (partCacheControl_ok spanned read)

/-- The parts of a content that have text, each with its breakpoint. -/
def textedParts : List Value → List (Bytes × Bytes)
  | [] => []
  | part :: rest =>
      if (partText part).isEmpty then textedParts rest
      else (partText part, (partCacheControl part).getD []) :: textedParts rest

theorem cacheStateLoop_reads {parts : List Value} {any result : Bool}
    (loop : cacheStateLoop parts any = some result) :
    ∀ part ∈ parts, ∃ cc, partCacheControl part = some cc := by
  induction parts generalizing any with
  | nil => simp
  | cons first rest inductionHypothesis =>
      rw [cacheStateLoop] at loop
      cases read : partCacheControl first with
      | none => simp [read] at loop
      | some cc =>
          rw [read] at loop
          intro part member
          rcases List.mem_cons.mp member with rfl | later
          · exact ⟨cc, read⟩
          · exact inductionHypothesis loop part later

/-- The blocks are those of the parts with text. -/
theorem contentBlocks_eq {parts : List Value} {first : Bool} {blocks : Bytes}
    (written : contentBlocks parts first = some blocks)
    (spanned : ∀ p ∈ parts, Spanned p)
    (reads : ∀ part ∈ parts, ∃ cc, partCacheControl part = some cc) :
    ∃ texts : List Bytes,
      blocks = (if first then commaJoin texts else texts.flatMap fun text => 0x2c :: text) ∧
      List.Forall₂ Writes texts
        ((textedParts parts).map fun part => IsObject (textFields part.1 part.2)) := by
  induction parts generalizing first blocks with
  | nil =>
      rw [contentBlocks, Option.some.injEq] at written
      subst written
      exact ⟨[], by cases first <;> rfl, List.Forall₂.nil⟩
  | cons part rest inductionHypothesis =>
      have spannedRest : ∀ p ∈ rest, Spanned p :=
        fun p member => spanned p (List.mem_cons_of_mem _ member)
      have readsRest : ∀ p ∈ rest, ∃ cc, partCacheControl p = some cc :=
        fun p member => reads p (List.mem_cons_of_mem _ member)
      rw [contentBlocks] at written
      split at written
      · exact absurd written (by simp)
      · rw [textedParts]
        by_cases empty : (partText part).isEmpty = true
        · rw [if_pos empty] at written ⊢
          exact inductionHypothesis written spannedRest readsRest
        · rw [if_neg empty] at written ⊢
          obtain ⟨more, writtenMore, rfl⟩ := Option.map_eq_some_iff.mp written
          obtain ⟨texts, shape, writes⟩ :=
            inductionHypothesis writtenMore spannedRest readsRest
          obtain ⟨cc, read⟩ := reads part (List.mem_cons_self ..)
          have block := writes_textBlock (spanned part (List.mem_cons_self ..)) read
          refine ⟨textBlock part :: texts, ?_, ?_⟩
          · rw [shape, commaJoin_cons]
            have comma : ascii "," = [0x2c] := rfl
            cases first <;> simp [comma]
          · rw [List.map_cons, read]
            exact List.Forall₂.cons block writes

/-- What a content says: one string, or one block for each part with text when a part
with text carries a breakpoint. -/
def ContentOf (c : Option Value) (tree : Rfc8259.Json) : Prop :=
  if contentCacheState c = some true then
    IsArray ((textedParts (c.elim [] Value.arr)).map fun part =>
      IsObject (textFields part.1 part.2)) tree
  else ∃ text, appendText c = some text ∧ IsString text tree

/-- What `append_content` writes is a value that says the content. -/
theorem writes_content {c : Option Value} (spanned : SpannedOption c) :
    ∀ text ∈ appendContent c, Writes text (ContentOf c) := by
  intro text written
  rw [Option.mem_def, appendContent] at written
  cases state : contentCacheState c with
  | none => simp [state] at written
  | some cached =>
      rw [state] at written
      cases cached with
      | false =>
          obtain ⟨flat, flatWritten, rfl⟩ := Option.map_eq_some_iff.mp written
          apply (writes_string (appendText_chars spanned flat flatWritten)).mono
          intro tree string
          rw [ContentOf, state, if_neg (by simp)]
          exact ⟨flat, flatWritten, string⟩
      | true =>
          obtain ⟨blocks, blocksWritten, rfl⟩ := Option.map_eq_some_iff.mp written
          cases c with
          | none => simp [contentCacheState] at state
          | some v =>
              have reads : ∀ part ∈ v.arr, ∃ cc, partCacheControl part = some cc := by
                rw [contentCacheState] at state
                split at state
                · exact cacheStateLoop_reads state
                · exact absurd state (by simp)
              obtain ⟨texts, shape, writes⟩ := contentBlocks_eq blocksWritten
                (fun p member => (spanned v rfl).arr member) reads
              have array := writes_array writes
              rw [shape, if_pos rfl]
              apply array.mono
              intro tree isArray
              rw [ContentOf, state, if_pos rfl]
              exact isArray

end Translate
end Llmbridge
