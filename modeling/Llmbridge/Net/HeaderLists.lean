import Llmbridge.Net.Http

/-!
# Lists in header values

`has_token` reads a comma-separated list.  The blanks around a list do not change
what it names, and a token written behind a comma is named.
-/

namespace Llmbridge
namespace Http

open Rfc8259 (Byte Bytes)

/-! ## Trimming -/

theorem trimOws_cons {c : Byte} (blank : isOws c = true) (v : Bytes) :
    trimOws (c :: v) = trimOws v := by
  unfold trimOws ltrim
  rw [List.dropWhile_cons_of_pos blank]

theorem trimOws_concat {c : Byte} (blank : isOws c = true) (v : Bytes) :
    trimOws (v ++ [c]) = trimOws v := by
  unfold trimOws ltrim
  rw [List.dropWhile_append]
  split
  · next none =>
      rw [List.isEmpty_iff.mp none, List.dropWhile_cons_of_pos blank, List.dropWhile_nil]
  · rw [List.rdropWhile_concat_pos _ _ _ blank]

theorem trimOws_plain {v : Bytes} (plain : ∀ c ∈ v, isOws c = false) : trimOws v = v := by
  have front : ltrim v = v := by
    unfold ltrim
    cases v with
    | nil => rfl
    | cons c v =>
        rw [List.dropWhile_cons_of_neg]
        rw [plain c List.mem_cons_self]
        exact Bool.false_ne_true
  unfold trimOws
  rw [front, List.rdropWhile_eq_self_iff]
  intro some blank
  rw [plain _ (List.getLast_mem some)] at blank
  cases blank

/-- A value is its trimmed text with blanks around it. -/
theorem trimOws_around (v : Bytes) :
    ∃ front back, v = front ++ trimOws v ++ back ∧ (∀ c ∈ front, isOws c = true) ∧
      ∀ c ∈ back, isOws c = true := by
  refine ⟨v.takeWhile isOws, (ltrim v).rtakeWhile isOws, ?_, ?_, ?_⟩
  · unfold trimOws
    rw [List.append_assoc, List.rdropWhile_append_rtakeWhile]
    exact List.takeWhile_append_dropWhile.symm
  · exact fun c member => List.mem_takeWhile_imp member
  · exact fun c member => List.mem_rtakeWhile_imp member

/-! ## Pieces -/

/-- The trimmed pieces between the commas. -/
def pieces (list : Bytes) : List Bytes :=
  (list.splitOn 0x2c).map trimOws

theorem hasToken_pieces {t : Bytes} (some : t ≠ []) (list : Bytes) :
    hasToken list t = (pieces list).any fun piece => sameCi piece t := by
  unfold hasToken listTokens
  cases list with
  | nil =>
      have differs : sameCi [] t = false := by
        cases t with
        | nil => exact absurd rfl some
        | cons c t => rfl
      simp [pieces, trimOws, ltrim, differs]
  | cons c list => rfl

theorem notComma_of_isOws {c : Byte} (blank : isOws c = true) : c ≠ 0x2c := by
  rintro rfl
  cases blank

theorem pieces_cons {c : Byte} (blank : isOws c = true) (list : Bytes) :
    pieces (c :: list) = pieces list := by
  unfold pieces
  rw [List.splitOn_cons_eq_if_modifyHead, if_neg (by simpa using notComma_of_isOws blank)]
  cases split : list.splitOn 0x2c with
  | nil => rfl
  | cons piece rest =>
      rw [List.modifyHead_cons, List.map_cons, List.map_cons, trimOws_cons blank]

theorem pieces_comma (first second : Bytes) :
    pieces (first ++ 0x2c :: second) = pieces first ++ pieces second := by
  unfold pieces
  rw [List.splitOn_append_cons_self, List.map_append]

theorem pieces_one {piece : Bytes} (noComma : 0x2c ∉ piece) : pieces piece = [trimOws piece] := by
  unfold pieces
  rw [List.splitOn_eq_singleton noComma, List.map_singleton]

theorem pieces_concat {c : Byte} (blank : isOws c = true) (list : Bytes) :
    pieces (list ++ [c]) = pieces list := by
  induction size : list.length using Nat.strong_induction_on generalizing list with
  | _ n inductionHypothesis =>
      by_cases comma : 0x2c ∈ list
      · obtain ⟨first, second, rfl, -⟩ := List.eq_append_cons_of_mem comma
        rw [List.length_append, List.length_cons] at size
        rw [List.append_assoc, List.cons_append, pieces_comma, pieces_comma,
          inductionHypothesis second.length (by omega) second rfl]
      · rw [pieces_one comma, pieces_one, trimOws_concat blank]
        rw [List.mem_append, List.mem_singleton, not_or]
        exact ⟨comma, (notComma_of_isOws blank).symm⟩

theorem pieces_front {front : Bytes} (blank : ∀ c ∈ front, isOws c = true) (list : Bytes) :
    pieces (front ++ list) = pieces list := by
  induction front with
  | nil => rfl
  | cons c front inductionHypothesis =>
      rw [List.cons_append, pieces_cons (blank c List.mem_cons_self),
        inductionHypothesis fun d member => blank d (List.mem_cons_of_mem c member)]

theorem pieces_back {back : Bytes} (blank : ∀ c ∈ back, isOws c = true) (list : Bytes) :
    pieces (list ++ back) = pieces list := by
  induction back generalizing list with
  | nil => rw [List.append_nil]
  | cons c back inductionHypothesis =>
      rw [← List.singleton_append, ← List.append_assoc,
        inductionHypothesis fun d member => blank d (List.mem_cons_of_mem c member),
        pieces_concat (blank c List.mem_cons_self)]

/-! ## Tokens -/

/-- The blanks around a list do not matter. -/
theorem hasToken_trimOws {t : Bytes} (some : t ≠ []) (list : Bytes) :
    hasToken (trimOws list) t = hasToken list t := by
  obtain ⟨front, back, split, frontBlank, backBlank⟩ := trimOws_around list
  rw [hasToken_pieces some, hasToken_pieces some]
  apply congrArg fun found => List.any found fun piece => sameCi piece t
  calc pieces (trimOws list) = pieces (front ++ trimOws list ++ back) := by
        rw [pieces_back backBlank, pieces_front frontBlank]
    _ = pieces list := by rw [← split]

theorem sameCi_self (v : Bytes) : sameCi v v = true := by
  unfold sameCi
  exact beq_self_eq_true _

/-- A token is named by itself. -/
theorem hasToken_self
    {t : Bytes} (some : t ≠ []) (noComma : 0x2c ∉ t) (plain : ∀ c ∈ t, isOws c = false) :
    hasToken t t = true := by
  rw [hasToken_pieces some, pieces_one noComma, trimOws_plain plain, List.any_cons,
    sameCi_self]
  rfl

/-- A token behind a comma is named. -/
theorem hasToken_behind
    {t : Bytes} (some : t ≠ []) (noComma : 0x2c ∉ t) (plain : ∀ c ∈ t, isOws c = false)
    (list : Bytes) : hasToken (list ++ 0x2c :: t) t = true := by
  have last := hasToken_self some noComma plain
  rw [hasToken_pieces some] at last ⊢
  rw [pieces_comma, List.any_append, last, Bool.or_true]

theorem hasToken_blank {t : Bytes} (some : t ≠ []) {c : Byte} (blank : isOws c = true)
    (list : Bytes) : hasToken (c :: list) t = hasToken list t := by
  rw [hasToken_pieces some, hasToken_pieces some, pieces_cons blank]

end Http
end Llmbridge
