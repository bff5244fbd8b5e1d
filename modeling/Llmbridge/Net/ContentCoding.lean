import Llmbridge.Net.HeaderLists
import Llmbridge.Net.ParseResponse

/-!
# Content codings

What the two parsers take for `encoded`, against the list of codings that the
Content-Encoding lines of a head write together.
-/

namespace Llmbridge
namespace Http

open Rfc8259 (Byte Bytes ascii)
open Http1 (find crlf Clean join)

/-! ## The combined list -/

/-- The codings of the combined Content-Encoding, in order. -/
def contentCodings (lines : List Bytes) : List Bytes :=
  ((values "content-encoding" lines).flatMap pieces).filter fun coding => !coding.isEmpty

/-- The combined list holds a coding other than `identity`. -/
def listsCoding (lines : List Bytes) : Bool :=
  (contentCodings lines).any fun coding => !sameCi coding (ascii "identity")

theorem listsCoding_iff {lines : List Bytes} :
    listsCoding lines = true ↔
      ∃ v ∈ values "content-encoding" lines, ∃ coding ∈ pieces v,
        coding ≠ [] ∧ sameCi coding (ascii "identity") = false := by
  unfold listsCoding contentCodings
  rw [List.any_eq_true]
  constructor
  · rintro ⟨coding, member, differs⟩
    rw [List.mem_filter, List.mem_flatMap] at member
    obtain ⟨⟨v, listed, piece⟩, some⟩ := member
    exact ⟨v, listed, coding, piece, by simpa using some, by simpa using differs⟩
  · rintro ⟨v, listed, coding, piece, some, differs⟩
    refine ⟨coding, ?_, by simpa using differs⟩
    rw [List.mem_filter, List.mem_flatMap]
    exact ⟨⟨v, listed, piece⟩, by simpa using some⟩

/-! ## One line -/

/-- What one Content-Encoding line leaves in `encoded`. -/
def codedByLine (v : Bytes) : Bool :=
  !(ltrim v).isEmpty && !containsCi (ltrim v) (ascii "identity")

theorem codedByLine_eq_false {v : Bytes} :
    codedByLine v = false ↔
      (ltrim v).isEmpty = true ∨ containsCi (ltrim v) (ascii "identity") = true := by
  unfold codedByLine
  rw [Bool.and_eq_false_iff, Bool.not_eq_false', Bool.not_eq_false']

theorem pieces_ltrim (v : Bytes) : pieces (ltrim v) = pieces v := by
  have front : ∀ c ∈ v.takeWhile isOws, isOws c = true :=
    fun c member => List.mem_takeWhile_imp member
  calc pieces (ltrim v) = pieces (v.takeWhile isOws ++ ltrim v) := (pieces_front front _).symm
    _ = pieces v := by rw [ltrim, List.takeWhile_append_dropWhile]

/-- The letters of a listed coding are in the line. -/
theorem containsCi_of_piece
    {coding list t : Bytes} (listed : coding ∈ pieces list) (same : sameCi coding t = true)
    (lower : t.map lc = t) : containsCi list t = true := by
  unfold pieces at listed
  obtain ⟨piece, member, rfl⟩ := List.mem_map.mp listed
  have inside := ((isInfix_trimOws piece).trans (isInfix_of_mem_splitOn member)).map lc
  have maps : (trimOws piece).map lc = t := by
    unfold sameCi at same
    rw [← lower]
    exact beq_iff_eq.mp same
  rw [maps] at inside
  exact find_of_isInfix inside

/-- A list of empty elements alone is commas and blanks. -/
theorem commas_of_pieces
    {list : Bytes} (empty : ∀ piece ∈ pieces list, piece = []) :
    ∀ c ∈ list, isOws c = true ∨ c = 0x2c := by
  induction size : list.length using Nat.strong_induction_on generalizing list with
  | _ n inductionHypothesis =>
      by_cases comma : 0x2c ∈ list
      · obtain ⟨first, second, rfl, -⟩ := List.eq_append_cons_of_mem comma
        rw [List.length_append, List.length_cons] at size
        rw [pieces_comma] at empty
        have before := inductionHypothesis first.length (by omega)
          (fun piece member => empty piece (List.mem_append_left _ member)) rfl
        have behind := inductionHypothesis second.length (by omega)
          (fun piece member => empty piece (List.mem_append_right _ member)) rfl
        intro c member
        rw [List.mem_append, List.mem_cons] at member
        rcases member with member | rfl | member
        · exact before c member
        · exact Or.inr rfl
        · exact behind c member
      · rw [pieces_one comma] at empty
        obtain ⟨front, back, split, frontBlank, backBlank⟩ := trimOws_around list
        rw [empty _ (List.mem_singleton_self _), List.append_nil] at split
        intro c member
        rw [split, List.mem_append] at member
        exact Or.inl (member.elim (frontBlank c) (backBlank c))

/-- Commas and blanks do not hold the letters of a name. -/
theorem containsCi_commas {v : Bytes} (commas : ∀ c ∈ v, isOws c = true ∨ c = 0x2c) :
    containsCi v (ascii "identity") = false := by
  rw [← Bool.not_eq_true]
  unfold containsCi
  rw [find_isSome_iff]
  intro inside
  have member : 0x69 ∈ v.map lc := inside.subset (by decide)
  obtain ⟨c, within, letter⟩ := List.mem_map.mp member
  have plain : ∀ c : Byte, lc c = 0x69 → isOws c = false ∧ c ≠ 0x2c := by decide +kernel
  obtain ⟨notBlank, notComma⟩ := plain c letter
  rcases commas c within with blank | comma
  · rw [notBlank] at blank
    cases blank
  · exact notComma comma

theorem ltrim_eq_nil_iff {v : Bytes} : (ltrim v).isEmpty = true ↔ ∀ c ∈ v, isOws c = true := by
  rw [ltrim, List.isEmpty_iff, List.dropWhile_eq_nil_iff]

/-! ## The walk -/

section Walk

variable {σ : Type} {f : σ → HeaderLine → σ × Bool} {encoded : σ → Bool}

/-- A walk that a Content-Encoding line writes over, and no other line changes. -/
structure ReadsCodings (f : σ → HeaderLine → σ × Bool) (encoded : σ → Bool) : Prop where
  coding : ∀ s h, (f s h).2 = true → h.field = .contentEncoding →
    encoded (f s h).1 = codedByLine h.value
  other : ∀ s h, (f s h).2 = true → h.field ≠ .contentEncoding →
    encoded (f s h).1 = encoded s

/-- The lines of a head write over `encoded` in turn. -/
theorem ReadsCodings.visitLines
    (reads : ReadsCodings f encoded) {s last : σ} {«at» : Nat} {lines : List Bytes}
    (visited : visitLines f s «at» lines = (true, last)) :
    encoded last =
      (values "content-encoding" lines).foldl (fun _ v => codedByLine v) (encoded s) := by
  induction lines generalizing s «at» with
  | nil =>
      rw [Http.visitLines, Prod.mk.injEq] at visited
      rw [visited.2]
      rfl
  | cons line lines inductionHypothesis =>
      rw [visitLines_cons] at visited
      by_cases good : (visitLine f s «at» line).2 = true
      · rw [if_pos good] at visited
        obtain ⟨name, value, isField, step⟩ := visitLine_true good
        rw [step] at good visited
        rw [inductionHypothesis visited, values_cons, isField.nameOf, isField.valueOf,
          @classify_iff _ .contentEncoding (by decide) rfl name]
        by_cases coding : classify name = .contentEncoding
        · rw [reads.coding _ _ good coding, if_pos (decide_eq_true coding), List.foldl_cons]
        · rw [reads.other _ _ good coding, if_neg (by simpa using coding)]
      · rw [if_neg good] at visited
        cases visited

end Walk

/-- What is written over in turn is what the last one writes. -/
theorem foldl_last {α β : Type} (g : α → β) (list : List α) (b : β) :
    list.foldl (fun _ v => g v) b = list.getLast?.elim b g := by
  induction list generalizing b with
  | nil => rfl
  | cons v list inductionHypothesis =>
      rw [List.foldl_cons, inductionHypothesis, List.getLast?_cons]
      cases list.getLast? <;> rfl

theorem readsCodings_request {α : Type} (also : α → HeaderLine → α × Bool) :
    ReadsCodings (requestVisit also) fun w => w.out.encoded := by
  have line : ∀ (w : RequestWalk α) h, (requestVisit also w h).2 = true →
      (requestLine w h).2 = true ∧ (requestVisit also w h).1.out = (requestLine w h).1.out := by
    intro w h ok
    unfold requestVisit at ok ⊢
    generalize requestLine w h = result at ok ⊢
    obtain ⟨next, good⟩ := result
    cases good with
    | false => cases ok
    | true => exact ⟨rfl, rfl⟩
  constructor
  · intro w h ok coding
    rw [(line w h ok).2]
    unfold requestLine
    rw [coding]
    rfl
  · intro w h ok other
    obtain ⟨good, same⟩ := line w h ok
    rw [same]
    unfold requestLine at good ⊢
    cases field : h.field with
    | contentEncoding => exact absurd field other
    | contentLength =>
        rw [field] at good
        dsimp only at good ⊢
        cases length : parseStrictLength h.value with
        | none => rfl
        | some n =>
            dsimp only
            split <;> rfl
    | _ => rfl

theorem readsCodings_response : ReadsCodings responseLine fun w => w.out.encoded := by
  have quota : ∀ (w : ResponseWalk) v q, (w.quota v q).out.encoded = w.out.encoded := by
    intro w v q
    unfold ResponseWalk.quota
    split <;> rfl
  constructor
  · intro w h _ coding
    unfold responseLine
    rw [coding]
    rfl
  · intro w h _ other
    unfold responseLine
    cases field : h.field with
    | contentEncoding => exact absurd field other
    | contentLength =>
        dsimp only
        cases parseStrictLength h.value with
        | none => rfl
        | some n =>
            dsimp only
            split <;> rfl
    | retryAfter =>
        dsimp only
        cases parseStrictLength h.value <;> rfl
    | requestsRemaining | inputTokensRemaining | outputTokensRemaining | tokensRemaining =>
        exact quota w h.value _
    | other =>
        dsimp only
        cases kept h <;> split_ifs <;> rfl
    | _ => rfl

/-! ## The last line -/

/-- The heads whose last Content-Encoding line speaks for all of them. -/
structure CodedByLast (lines : List Bytes) : Prop where
  /-- Where the last line is blank, or has the letters `identity`, no line lists another
  coding. -/
  plain : ∀ v ∈ (values "content-encoding" lines).getLast?,
    (ltrim v).isEmpty = true ∨ containsCi (ltrim v) (ascii "identity") = true →
      listsCoding lines = false
  /-- Where the last line is commas, some line lists a coding. -/
  commas : ∀ v ∈ (values "content-encoding" lines).getLast?,
    0x2c ∈ v → (∀ c ∈ v, isOws c = true ∨ c = 0x2c) → listsCoding lines = true

theorem codedByLine_commas
    {v : Bytes} (comma : 0x2c ∈ v) (commas : ∀ c ∈ v, isOws c = true ∨ c = 0x2c) :
    codedByLine v = true := by
  rw [← Bool.not_eq_false, codedByLine_eq_false, not_or]
  constructor
  · rw [ltrim_eq_nil_iff]
    intro blank
    have isBlank := blank _ comma
    cases isBlank
  · have absent := containsCi_commas fun c member =>
      commas c ((List.dropWhile_suffix isOws).subset member)
    rw [ltrim, absent]
    exact Bool.false_ne_true

/-- A line that is taken for coded and holds more than commas lists a coding. -/
theorem listsCoding_of_line
    {lines : List Bytes} {v : Bytes} (listed : v ∈ values "content-encoding" lines)
    (coded : codedByLine v = true) (more : ¬ ∀ c ∈ v, isOws c = true ∨ c = 0x2c) :
    listsCoding lines = true := by
  obtain ⟨coding, piece, some⟩ : ∃ coding ∈ pieces v, coding ≠ [] := by
    by_contra none
    apply more
    apply commas_of_pieces
    intro coding piece
    by_contra some
    exact none ⟨coding, piece, some⟩
  rw [listsCoding_iff]
  refine ⟨v, listed, coding, piece, some, ?_⟩
  rw [← Bool.not_eq_true]
  intro identity
  rw [← pieces_ltrim] at piece
  have letters := containsCi_of_piece piece identity (by decide)
  rw [codedByLine_eq_false.mpr (Or.inr letters)] at coded
  cases coded

/-- What the last line leaves is right exactly where it speaks for all of them. -/
theorem last_iff {lines : List Bytes} :
    ((values "content-encoding" lines).getLast?.elim false codedByLine = true ↔
      listsCoding lines = true) ↔ CodedByLast lines := by
  cases last : (values "content-encoding" lines).getLast? with
  | none =>
      have unlisted : listsCoding lines = false := by
        rw [← Bool.not_eq_true, listsCoding_iff, List.getLast?_eq_none_iff.mp last]
        rintro ⟨v, member, -⟩
        cases member
      rw [unlisted]
      refine iff_of_true (iff_of_false Bool.false_ne_true Bool.false_ne_true) ⟨?_, ?_⟩
      · intro v member
        rw [last] at member
        cases member
      · intro v member
        rw [last] at member
        cases member
  | some v =>
      have listed := List.mem_of_getLast? last
      rw [Option.elim_some]
      constructor
      · intro right
        constructor
        · intro w member looks
          obtain rfl : v = w := Option.some.inj (last.symm.trans member)
          rw [← Bool.not_eq_true, ← right, codedByLine_eq_false.mpr looks]
          exact Bool.false_ne_true
        · intro w member comma commas
          obtain rfl : v = w := Option.some.inj (last.symm.trans member)
          exact right.mp (codedByLine_commas comma commas)
      · intro speaks
        constructor
        · intro coded
          by_cases commas : ∀ c ∈ v, isOws c = true ∨ c = 0x2c
          · apply speaks.commas v last ?_ commas
            by_contra noComma
            have blank : ∀ c ∈ v, isOws c = true := by
              intro c member
              refine (commas c member).resolve_right ?_
              rintro rfl
              exact noComma member
            rw [codedByLine_eq_false.mpr (Or.inl (ltrim_eq_nil_iff.mpr blank))] at coded
            cases coded
          · exact listsCoding_of_line listed coded commas
        · intro other
          by_contra uncoded
          rw [Bool.not_eq_true, codedByLine_eq_false] at uncoded
          rw [speaks.plain v last uncoded] at other
          cases other

/-! ## The two parsers -/

/-- What `parse_request` takes for `encoded`, whatever its visitor, is right exactly where
the last line speaks for all. -/
theorem parseRequestWith_encoded_iff
    {α : Type} {also : α → HeaderLine → α × Bool} {a : α} {buf : Bytes} {n : Nat}
    (found : find (crlf ++ crlf) buf = some n)
    (accepted : (parseRequestWith also buf {} a).1 ≠ .error)
    {start : Bytes} {lines : List Bytes} (head : buf.take n = join start lines)
    (clean : ∀ line ∈ start :: lines, Clean line) :
    ((parseRequestWith also buf {} a).2.1.encoded = true ↔ listsCoding lines = true) ↔
      CodedByLast lines := by
  unfold parseRequestWith at accepted ⊢
  rw [found] at accepted ⊢
  dsimp only at accepted ⊢
  rw [head] at accepted ⊢
  have walked := @requestHead_walked _ also (join start lines) { headerLen := n + 4 } a
  generalize requestHead also (join start lines) { headerLen := n + 4 } a = verdict
    at accepted walked ⊢
  obtain ⟨ok, out, last⟩ := verdict
  cases ok with
  | false => exact absurd rfl accepted
  | true =>
      obtain ⟨-, start', lines', w, split, clean', visited, -, result⟩ := walked rfl
      obtain ⟨rfl, rfl⟩ := Http1.join_injective clean clean' split
      have encoded := (readsCodings_request also).visitLines visited
      rw [Prod.mk.injEq, Prod.mk.injEq] at result
      obtain ⟨-, rfl, -⟩ := result
      have before : (requestStart (join start lines) { headerLen := n + 4 }).encoded = false :=
        rfl
      dsimp only at encoded ⊢
      rw [encoded, before, foldl_last]
      exact last_iff

/-- What `parse_response_head` takes for `encoded` is right exactly where the last line
speaks for all. -/
theorem parseResponseHead_encoded_iff
    {buf : Bytes} {headRequest : Bool} {out : ResponseHead}
    (complete : parseResponseHead buf {} headRequest = (.complete, out))
    {start : Bytes} {lines : List Bytes}
    (head : buf.take out.headerLen = join start lines ++ (crlf ++ crlf))
    (clean : ∀ line ∈ start :: lines, Clean line) :
    (out.encoded = true ↔ listsCoding lines = true) ↔ CodedByLast lines := by
  obtain ⟨n, status, http11, start', lines', w, keep, found, -, split, clean', visited, -, rfl,
    -⟩ := parseResponseHead_walked complete
  have read := visitLines_response (congrArg Prod.fst visited)
  rw [visited] at read
  have headerLen : w.out.headerLen = n + 4 := read.headerLen
  dsimp only at head
  rw [headerLen, take_of_find found, split] at head
  obtain ⟨rfl, rfl⟩ := Http1.join_injective clean' clean (List.append_cancel_right head)
  have encoded := readsCodings_response.visitLines visited
  dsimp only at encoded ⊢
  rw [encoded, foldl_last]
  exact last_iff

end Http
end Llmbridge
