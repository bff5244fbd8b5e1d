import Llmbridge.Net.SigV4
import Llmbridge.Net.Sha256Correct

/-!
# What a signature covers

Two queries have one canonical form exactly when they name the same parameters the same
number of times, and two requests one canonical request only when they ask for the same.
-/

namespace Llmbridge
namespace SigV4

open Rfc8259 (Byte Bytes ascii isDigit)
open Rfc3986 (isUnreserved upperHex percentDecode percentEncode encodeByte)
open Http (isOws trimOws)
open Http1 (lowerHex)

/-! ## Encoding -/

/-- The bytes are encoded one by one. -/
theorem uriEncode_cons (c : Byte) (s : Bytes) (encodeSlash : Bool) :
    uriEncode (c :: s) encodeSlash =
      (if isUnreserved c || (c == 0x2f && !encodeSlash) then [c]
        else [0x25, upperHex (c.toNat / 16), upperHex (c.toNat % 16)]) ++
        uriEncode s encodeSlash := rfl

/-- Decoding undoes encoding, with or without its slashes. -/
theorem percentDecoded_uriEncode (s : Bytes) (encodeSlash : Bool) :
    percentDecoded (uriEncode s encodeSlash) = s := by
  unfold percentDecoded
  induction s with
  | nil => rfl
  | cons c s inductionHypothesis =>
      rw [uriEncode_cons]
      split
      · rename_i safe
        have other : c ≠ 0x25 := by
          rintro rfl
          exact absurd safe (by cases encodeSlash <;> decide)
        rw [List.singleton_append, Rfc3986.percentDecode_of_ne other, inductionHypothesis]
      · simp only [List.cons_append, List.nil_append]
        rw [Rfc3986.percentDecode_octet (Rfc3986.octet_encoded c _), List.drop_succ_cons,
          List.drop_succ_cons, List.drop_zero, inductionHypothesis]

/-- Encoding loses nothing. -/
theorem uriEncode_injective {s s' : Bytes} {encodeSlash : Bool}
    (same : uriEncode s encodeSlash = uriEncode s' encodeSlash) : s = s' := by
  rw [← percentDecoded_uriEncode s encodeSlash, same, percentDecoded_uriEncode]

/-- A byte of an encoded text. -/
def isEncoded (c : Byte) : Bool :=
  isUnreserved c || c == 0x25 || c == 0x2f

/-- A hex digit may stand in an encoded text. -/
theorem upperHex_isEncoded : ∀ n < 16, isEncoded (upperHex n) = true := by
  decide

/-- An encoded text holds only bytes that need no encoding, and escapes. -/
theorem uriEncode_isEncoded (s : Bytes) (encodeSlash : Bool) :
    ∀ c ∈ uriEncode s encodeSlash, isEncoded c = true := by
  induction s with
  | nil => exact List.forall_mem_nil _
  | cons c s inductionHypothesis =>
      rw [uriEncode_cons]
      refine List.forall_mem_append.mpr ⟨?_, inductionHypothesis⟩
      have small := c.toNat_lt
      split
      · rename_i safe
        refine List.forall_mem_singleton.mpr ?_
        unfold isEncoded
        rcases Bool.or_eq_true_iff.mp safe with plain | slash
        · rw [plain]
          rfl
        · rw [(Bool.and_eq_true_iff.mp slash).1, Bool.or_true]
      · simp only [List.forall_mem_cons]
        exact ⟨by decide, upperHex_isEncoded _ (by omega), upperHex_isEncoded _ (by omega),
          List.forall_mem_nil _⟩

/-- Any other byte is absent from it. -/
theorem uriEncode_free {s : Bytes} {encodeSlash : Bool} {c : Byte} (other : isEncoded c = false) :
    c ∉ uriEncode s encodeSlash := by
  intro member
  exact absurd (other.symm.trans (uriEncode_isEncoded s encodeSlash c member)) (by decide)

/-! ## The order of parameters -/

/-- Pairs are ordered by name and then by value. -/
theorem pairLe_iff (a b : Bytes × Bytes) :
    pairLe a b = true ↔ a.1 < b.1 ∨ a.1 = b.1 ∧ a.2 ≤ b.2 := by
  simp [pairLe]

/-- Bytes are ordered one way. -/
theorem bytes_split (a b : Bytes) : a < b ∨ a = b ∨ b < a := by
  by_cases less : a < b
  · exact Or.inl less
  by_cases more : b < a
  · exact Or.inr (Or.inr more)
  · exact Or.inr (Or.inl (List.le_antisymm more less))

/-- The order of pairs is transitive. -/
theorem pairLe_trans (a b c : Bytes × Bytes) (first : pairLe a b = true)
    (second : pairLe b c = true) : pairLe a c = true := by
  rw [pairLe_iff] at *
  rcases first with less | ⟨same, le⟩
  · rcases second with less' | ⟨same', -⟩
    · exact Or.inl (List.lt_trans less less')
    · exact Or.inl (same' ▸ less)
  · rcases second with less' | ⟨same', le'⟩
    · exact Or.inl (same ▸ less')
    · exact Or.inr ⟨same.trans same', List.le_trans le le'⟩

/-- It is total. -/
theorem pairLe_total (a b : Bytes × Bytes) : (pairLe a b || pairLe b a) = true := by
  rw [Bool.or_eq_true, pairLe_iff, pairLe_iff]
  rcases bytes_split a.1 b.1 with less | same | more
  · exact Or.inl (Or.inl less)
  · exact (List.le_total a.2 b.2).imp (fun le => Or.inr ⟨same, le⟩) fun le =>
      Or.inr ⟨same.symm, le⟩
  · exact Or.inr (Or.inl more)

/-- Pairs that are equal in it are the same. -/
theorem pairLe_antisymm {a b : Bytes × Bytes} (first : pairLe a b = true)
    (second : pairLe b a = true) : a = b := by
  rw [pairLe_iff] at *
  rcases first with less | ⟨same, le⟩
  · rcases second with less' | ⟨same', -⟩
    · exact absurd less' (List.lt_asymm less)
    · exact absurd (same' ▸ less) (List.lt_irrefl _)
  · rcases second with less' | ⟨-, le'⟩
    · exact absurd (same ▸ less') (List.lt_irrefl _)
    · exact Prod.ext same (List.le_antisymm le le')

/-- Parameters in their order. -/
def sorted (params : List (Bytes × Bytes)) : List (Bytes × Bytes) :=
  params.insertionSort fun a b => pairLe a b = true

/-- Sorting keeps the parameters. -/
theorem sorted_perm (params : List (Bytes × Bytes)) : (sorted params).Perm params :=
  List.perm_insertionSort _ params

/-- It puts them in order. -/
theorem sorted_pairwise (params : List (Bytes × Bytes)) :
    (sorted params).Pairwise fun a b => pairLe a b = true := by
  have total : Std.Total fun a b : Bytes × Bytes => pairLe a b = true :=
    ⟨fun a b => Bool.or_eq_true_iff.mp (pairLe_total a b)⟩
  have trans : IsTrans (Bytes × Bytes) fun a b => pairLe a b = true :=
    ⟨fun a b c => pairLe_trans a b c⟩
  exact List.pairwise_insertionSort _ params

/-- Sorting forgets the order, and nothing else. -/
theorem sorted_iff (first second : List (Bytes × Bytes)) :
    sorted first = sorted second ↔ first.Perm second := by
  constructor
  · intro same
    have perm := sorted_perm first
    rw [same] at perm
    exact perm.symm.trans (sorted_perm second)
  · intro perm
    exact List.Perm.eq_of_pairwise (fun a b _ _ le le' => pairLe_antisymm le le')
      (sorted_pairwise first) (sorted_pairwise second)
      (((sorted_perm first).trans perm).trans (sorted_perm second).symm)

/-! ## The canonical query -/

/-- A parameter, decoded. -/
def decodedPair (pair : Bytes × Bytes) : Bytes × Bytes :=
  (percentDecoded pair.1, percentDecoded pair.2)

/-- What a query says: its parameters, decoded, in its order. -/
def parameters (query : Bytes) : List (Bytes × Bytes) :=
  (pairs query).map decodedPair

/-- A decoded parameter, encoded. -/
def writtenPair (pair : Bytes × Bytes) : Bytes × Bytes :=
  (uriEncode pair.1 true, uriEncode pair.2 true)

/-- A written parameter is decoded again. -/
theorem decodedPair_writtenPair (pair : Bytes × Bytes) :
    decodedPair (writtenPair pair) = pair :=
  Prod.ext (percentDecoded_uriEncode pair.1 true) (percentDecoded_uriEncode pair.2 true)

/-- The canonical query is written from what the query says. -/
theorem canonicalQuery_eq (query : Bytes) :
    canonicalQuery query = List.intercalate [0x26]
      ((sorted ((parameters query).map writtenPair)).map pairText) := by
  unfold canonicalQuery parameters
  rw [List.map_map]
  rfl

/-- Every parameter of a sorted list is a written one. -/
theorem sorted_written (params : List (Bytes × Bytes)) :
    ∀ pair ∈ sorted (params.map writtenPair), ∃ p, pair = writtenPair p := by
  intro pair member
  obtain ⟨p, -, rfl⟩ := List.mem_map.mp ((sorted_perm _).mem_iff.mp member)
  exact ⟨p, rfl⟩

/-- A written parameter is split at its own sign. -/
theorem splitPair_pairText (p : Bytes × Bytes) :
    splitPair (pairText (writtenPair p)) = writtenPair p := by
  have free : ∀ c ∈ (writtenPair p).1, (c != 0x3d) = true := by
    intro c member
    rw [bne_iff_ne]
    rintro rfl
    exact uriEncode_free (by decide) member
  unfold splitPair pairText
  rw [List.takeWhile_append_of_pos free, List.dropWhile_append_of_pos free]
  simp

/-- It holds no ampersand, and is not empty. -/
theorem pairText_free (p : Bytes × Bytes) :
    (0x26 : Byte) ∉ pairText (writtenPair p) ∧ pairText (writtenPair p) ≠ [] := by
  constructor
  · unfold pairText
    rw [List.mem_append, List.mem_cons]
    rintro (name | equals | value)
    · exact uriEncode_free (by decide) name
    · exact absurd equals (by decide)
    · exact uriEncode_free (by decide) value
  · exact List.append_ne_nil_of_right_ne_nil _ (List.cons_ne_nil _ _)

/-- The parameters of a text that was written from parameters. -/
theorem pairs_intercalate {params : List (Bytes × Bytes)}
    (written : ∀ pair ∈ params, ∃ p, pair = writtenPair p) :
    pairs (List.intercalate [0x26] (params.map pairText)) = params := by
  have texts : ∀ text ∈ params.map pairText, (0x26 : Byte) ∉ text ∧ text ≠ [] := by
    intro text member
    obtain ⟨pair, inside, rfl⟩ := List.mem_map.mp member
    obtain ⟨p, rfl⟩ := written pair inside
    exact pairText_free p
  have split : ((List.intercalate [0x26] (params.map pairText)).splitOn 0x26).filter
      (fun pair => !pair.isEmpty) = params.map pairText := by
    by_cases none : params.map pairText = []
    · rw [none]
      rfl
    · rw [List.splitOn_intercalate 0x26 (fun text member => (texts text member).1) none]
      refine List.filter_eq_self.mpr fun text member => ?_
      rw [Bool.not_eq_true', List.isEmpty_eq_false_iff]
      exact (texts text member).2
  unfold pairs
  rw [split, List.map_map]
  refine (List.map_congr_left fun pair member => ?_).trans (List.map_id params)
  obtain ⟨p, rfl⟩ := written pair member
  exact splitPair_pairText p

/-- The canonical query says what the query says. -/
theorem parameters_canonicalQuery (query : Bytes) :
    (parameters (canonicalQuery query)).Perm (parameters query) := by
  have perm := (sorted_perm ((parameters query).map writtenPair)).map decodedPair
  rw [List.map_map] at perm
  have same : (parameters query).map (decodedPair ∘ writtenPair) = parameters query :=
    (List.map_congr_left fun p _ => decodedPair_writtenPair p).trans (List.map_id _)
  rw [same] at perm
  rw [parameters, canonicalQuery_eq, pairs_intercalate (sorted_written _)]
  exact perm

/-- The same parameters in any order give one canonical query. -/
theorem canonicalQuery_perm {query query' : Bytes}
    (perm : (parameters query).Perm (parameters query')) :
    canonicalQuery query = canonicalQuery query' := by
  rw [canonicalQuery_eq, canonicalQuery_eq, (sorted_iff _ _).mpr (perm.map writtenPair)]

/-- Two queries share it exactly when they ask the same. -/
theorem canonicalQuery_iff (query query' : Bytes) :
    canonicalQuery query = canonicalQuery query' ↔
      (parameters query).Perm (parameters query') := by
  refine ⟨fun same => ?_, canonicalQuery_perm⟩
  have told := parameters_canonicalQuery query
  rw [same] at told
  exact told.symm.trans (parameters_canonicalQuery query')

/-- Two queries are signed alike exactly when they say the same parameters, in any order and
however encoded; a canonical query says what the query does, and is canonical. -/
theorem canonical_query (query query' : Bytes) :
    (canonicalQuery query = canonicalQuery query' ↔
      (parameters query).Perm (parameters query')) ∧
    (parameters (canonicalQuery query)).Perm (parameters query) ∧
    canonicalQuery (canonicalQuery query) = canonicalQuery query :=
  ⟨canonicalQuery_iff query query', parameters_canonicalQuery query,
    canonicalQuery_perm (parameters_canonicalQuery query)⟩

example : canonicalQuery (ascii "b=2&a=%3a&c&&b=1") = ascii "a=%3A&b=1&b=2&c=" := by
  decide +kernel

/-! ## The canonical request -/

/-- A line without its end. -/
def OneLine (text : Bytes) : Prop :=
  (0x0a : Byte) ∉ text

instance (text : Bytes) : Decidable (OneLine text) :=
  inferInstanceAs (Decidable ((0x0a : Byte) ∉ text))

/-- Two texts that agree up to a line end agree behind it. -/
theorem cut_line {first second rest rest' : Bytes} (one : OneLine first) (other : OneLine second)
    (same : first ++ ([0x0a] ++ rest) = second ++ ([0x0a] ++ rest')) :
    first = second ∧ rest = rest' := by
  have cut : ∀ {line rest : Bytes}, OneLine line →
      (line ++ ([0x0a] ++ rest)).takeWhile (· != 0x0a) = line := by
    intro line rest one
    have free : ∀ c ∈ line, (c != 0x0a) = true := by
      intro c member
      rw [bne_iff_ne]
      rintro rfl
      exact one member
    rw [List.takeWhile_append_of_pos free]
    simp
  have lines : first = second := by
    rw [← cut one, same, cut other]
  subst lines
  exact ⟨rfl, List.append_cancel_left (List.append_cancel_left same)⟩

/-- A line grows inside a line. -/
theorem oneLine_append {first second : Bytes} (one : OneLine first) (other : OneLine second) :
    OneLine (first ++ second) := by
  intro member
  exact (List.mem_append.mp member).elim one other

/-- An encoded text is one line. -/
theorem oneLine_uriEncode (s : Bytes) (encodeSlash : Bool) : OneLine (uriEncode s encodeSlash) :=
  uriEncode_free (by decide)

/-- So is the canonical path. -/
theorem oneLine_canonicalUri (path : Bytes) : OneLine (canonicalUri path) := by
  unfold canonicalUri
  split
  · exact (by decide : (0x0a : Byte) ∉ ascii "/")
  · exact oneLine_uriEncode path false

/-- So is the canonical query. -/
theorem oneLine_canonicalQuery (query : Bytes) : OneLine (canonicalQuery query) := by
  rw [canonicalQuery_eq]
  have texts : ∀ text ∈ (sorted ((parameters query).map writtenPair)).map pairText,
      OneLine text := by
    intro text member
    obtain ⟨pair, inside, rfl⟩ := List.mem_map.mp member
    obtain ⟨p, rfl⟩ := sorted_written (parameters query) pair inside
    exact oneLine_append (oneLine_uriEncode p.1 true) fun member =>
      (List.mem_cons.mp member).elim (by decide) (oneLine_uriEncode p.2 true)
  generalize (sorted ((parameters query).map writtenPair)).map pairText = list at texts
  induction list with
  | nil => exact List.not_mem_nil
  | cons text list inductionHypothesis =>
      obtain ⟨first, others⟩ := List.forall_mem_cons.mp texts
      cases list with
      | nil =>
          rw [List.intercalate_singleton]
          exact first
      | cons next list =>
          rw [List.intercalate_cons_cons]
          exact oneLine_append (oneLine_append first (by decide : (0x0a : Byte) ∉ [0x26]))
            (inductionHypothesis others)

/-- Collapsing adds only blanks. -/
theorem mem_collapsed {v : Bytes} : ∀ {space : Bool} {c : Byte}, c ∈ collapsed space v →
    c = 0x20 ∨ c ∈ v := by
  induction v with
  | nil => exact fun member => absurd member List.not_mem_nil
  | cons d v inductionHypothesis =>
      intro space c member
      rw [collapsed] at member
      split at member
      · exact (inductionHypothesis member).imp id (List.mem_cons_of_mem d)
      · rcases List.mem_cons.mp member with is | member
        · split at is
          · exact Or.inl is
          · exact Or.inr (is ▸ List.mem_cons_self)
        · exact (inductionHypothesis member).imp id (List.mem_cons_of_mem d)

/-- A trimmed line is one line. -/
theorem oneLine_trimmed {v : Bytes} (one : OneLine v) : OneLine (trimmedCollapsed v) := by
  intro member
  rcases mem_collapsed member with is | member
  · exact absurd is (by decide)
  · have inside : (0x0a : Byte) ∈ v :=
      (List.dropWhile_sublist isOws).subset ((List.rdropWhile_prefix isOws _).subset member)
    exact one inside

/-- A request whose parts are one line each. -/
structure Lines (r : Request) (sessionToken : Bytes) : Prop where
  method : OneLine r.method
  contentType : OneLine r.contentType
  host : OneLine r.host
  date : OneLine r.amzDate
  token : OneLine sessionToken

/-- What is signed of two requests is the same. -/
structure AsksSame (r r' : Request) : Prop where
  method : r.method = r'.method
  path : r.path = r'.path ∨ r.path = [] ∧ r'.path = ascii "/" ∨
    r.path = ascii "/" ∧ r'.path = []
  query : (parameters r.query).Perm (parameters r'.query)
  host : trimmedCollapsed r.host = trimmedCollapsed r'.host
  typed : r.contentType = [] ↔ r'.contentType = []
  contentType : trimmedCollapsed r.contentType = trimmedCollapsed r'.contentType
  date : r.amzDate = r'.amzDate

/-- The canonical path tells the path but for the empty one. -/
theorem canonicalUri_same {path path' : Bytes} (same : canonicalUri path = canonicalUri path') :
    path = path' ∨ path = [] ∧ path' = ascii "/" ∨ path = ascii "/" ∧ path' = [] := by
  have slash : uriEncode (ascii "/") false = ascii "/" := by decide
  unfold canonicalUri at same
  cases path with
  | nil =>
      cases path' with
      | nil => exact Or.inl rfl
      | cons c path' =>
          have encoded : uriEncode (ascii "/") false = uriEncode (c :: path') false :=
            slash.trans same
          exact Or.inr (Or.inl ⟨rfl, (uriEncode_injective encoded).symm⟩)
  | cons c path =>
      cases path' with
      | nil =>
          have encoded : uriEncode (c :: path) false = uriEncode (ascii "/") false :=
            same.trans slash.symm
          exact Or.inr (Or.inr ⟨uriEncode_injective encoded, rfl⟩)
      | cons d path' => exact Or.inl (uriEncode_injective same)

/-- A line that may be absent is told by its name. -/
theorem cut_optional {name first second rest rest' other : Bytes} {none none' : Bool}
    (differs : ∀ text rest : Bytes, name ++ text ≠ other ++ rest)
    (one : OneLine (name ++ first)) (one' : OneLine (name ++ second))
    (same : (if none = true then [] else name ++ (first ++ [0x0a])) ++ (other ++ rest) =
      (if none' = true then [] else name ++ (second ++ [0x0a])) ++ (other ++ rest')) :
    none = none' ∧ (none = false → first = second) ∧ rest = rest' := by
  cases none with
  | true =>
      cases none' with
      | true => exact ⟨rfl, fun no => absurd no (by decide), List.append_cancel_left same⟩
      | false =>
          rw [if_pos rfl, if_neg Bool.false_ne_true, List.nil_append, List.append_assoc] at same
          exact absurd same.symm (differs _ _)
  | false =>
      cases none' with
      | true =>
          rw [if_pos rfl, if_neg Bool.false_ne_true, List.nil_append, List.append_assoc] at same
          exact absurd same (differs _ _)
      | false =>
          have shaped : ∀ text rest : Bytes,
              name ++ (text ++ [0x0a]) ++ rest = name ++ text ++ ([0x0a] ++ rest) := by
            intro text rest
            simp only [List.append_assoc]
          rw [if_neg Bool.false_ne_true, if_neg Bool.false_ne_true, shaped, shaped] at same
          obtain ⟨line, others⟩ := cut_line one one' same
          exact ⟨rfl, fun _ => List.append_cancel_left line, List.append_cancel_left others⟩

/-- A canonical request tells requests apart, but for what is signed alike. -/
theorem canonicalRequest_same {r r' : Request} {hash hash' token token' : Bytes}
    (lines : Lines r token) (lines' : Lines r' token')
    (same : canonicalRequest r hash token = canonicalRequest r' hash' token') :
    AsksSame r r' ∧ token = token' ∧ hash = hash' := by
  have typeFirst : ∀ text rest : Bytes, ascii "content-type:" ++ text ≠ ascii "host:" ++ rest := by
    intro text rest same
    have first : (ascii "content-type:" ++ text).head? = some 0x63 := rfl
    have other : (ascii "host:" ++ rest).head? = some 0x68 := rfl
    rw [same, other] at first
    exact absurd first (by decide)
  have tokenFirst : ∀ text rest : Bytes,
      ascii "x-amz-security-token:" ++ text ≠ [0x0a] ++ rest := by
    intro text rest same
    have first : (ascii "x-amz-security-token:" ++ text).head? = some 0x78 := rfl
    have other : ([0x0a] ++ rest).head? = some (0x0a : Byte) := rfl
    rw [same, other] at first
    exact absurd first (by decide)
  have typeLine : ∀ {v : Bytes}, OneLine v →
      OneLine (ascii "content-type:" ++ trimmedCollapsed v) := fun one =>
    oneLine_append (by decide : (0x0a : Byte) ∉ ascii "content-type:") (oneLine_trimmed one)
  have tokenLine : ∀ {v : Bytes}, OneLine v →
      OneLine (ascii "x-amz-security-token:" ++ v) := fun one =>
    oneLine_append (by decide : (0x0a : Byte) ∉ ascii "x-amz-security-token:") one
  unfold canonicalRequest at same
  simp only [List.append_assoc] at same
  obtain ⟨method, same⟩ := cut_line lines.method lines'.method same
  obtain ⟨path, same⟩ := cut_line (oneLine_canonicalUri _) (oneLine_canonicalUri _) same
  obtain ⟨query, same⟩ := cut_line (oneLine_canonicalQuery _) (oneLine_canonicalQuery _) same
  obtain ⟨typed, contentType, same⟩ := cut_optional typeFirst (typeLine lines.contentType)
    (typeLine lines'.contentType) same
  obtain ⟨host, same⟩ := cut_line (oneLine_trimmed lines.host) (oneLine_trimmed lines'.host) same
  obtain ⟨date, same⟩ := cut_line lines.date lines'.date (List.append_cancel_left same)
  obtain ⟨tokens, given, same⟩ := cut_optional tokenFirst (tokenLine lines.token)
    (tokenLine lines'.token) same
  have signed : signedHeaders r token = signedHeaders r' token' := by
    rw [signedHeaders, signedHeaders, typed, tokens]
  rw [signed] at same
  have hashes := List.append_cancel_left (List.append_cancel_left same)
  have empties : ∀ {v v' : Bytes}, v.isEmpty = v'.isEmpty → (v = [] ↔ v' = []) := by
    intro v v' same
    rw [← List.isEmpty_iff, ← List.isEmpty_iff, same]
  refine ⟨⟨method, canonicalUri_same path, (canonicalQuery_iff _ _).mp query, host,
    empties typed, ?_, date⟩, ?_, hashes⟩
  · cases empty : r.contentType.isEmpty with
    | false => exact contentType empty
    | true =>
        rw [empty] at typed
        rw [List.isEmpty_iff.mp empty, List.isEmpty_iff.mp typed.symm]
  · cases empty : token.isEmpty with
    | false => exact given empty
    | true =>
        rw [empty] at tokens
        rw [List.isEmpty_iff.mp empty, List.isEmpty_iff.mp tokens.symm]

/-! ## Signatures -/

/-- A hex digit tells its value. -/
theorem lowerHex_injective : ∀ a < 16, ∀ b < 16, lowerHex a = lowerHex b → a = b := by
  decide

/-- The hex text tells the bytes. -/
theorem toHex_injective : ∀ {p p' : Bytes}, toHex p = toHex p' → p = p' := by
  intro p
  induction p with
  | nil =>
      intro p' same
      cases p' with
      | nil => rfl
      | cons c p' => exact absurd same (by simp [toHex])
  | cons c p inductionHypothesis =>
      intro p' same
      cases p' with
      | nil => exact absurd same (by simp [toHex])
      | cons d p' =>
          have small := c.toNat_lt
          have small' := d.toNat_lt
          have shape : ∀ (c : Byte) (p : Bytes), toHex (c :: p) =
              lowerHex (c.toNat / 16) :: lowerHex (c.toNat % 16) :: toHex p := fun _ _ => rfl
          rw [shape, shape, List.cons_eq_cons, List.cons_eq_cons] at same
          obtain ⟨high, low, others⟩ := same
          have highs := lowerHex_injective _ (by omega) _ (by omega) high
          have lows := lowerHex_injective _ (by omega) _ (by omega) low
          have bytes : c = d := UInt8.toNat_inj.mp (by omega)
          rw [bytes, inductionHypothesis others]

/-- It has two digits for each byte. -/
theorem toHex_length (p : Bytes) : (toHex p).length = 2 * p.length := by
  induction p with
  | nil => rfl
  | cons c p inductionHypothesis =>
      have shape : toHex (c :: p) =
          lowerHex (c.toNat / 16) :: lowerHex (c.toNat % 16) :: toHex p := rfl
      rw [shape, List.length_cons, List.length_cons, List.length_cons, inductionHypothesis]
      omega

section Signing

variable {sha256 : Bytes → Bytes} {hmac : Bytes → Bytes → Bytes}

/-- One function gives two texts one digest. -/
def Collide (f : Bytes → Bytes) (x y : Bytes) : Prop :=
  x ≠ y ∧ f x = f y

/-- The canonical request that `sign` hashes. -/
def signedRequest (sha256 : Bytes → Bytes) (c : Credentials) (r : Request) : Bytes :=
  canonicalRequest r (toHex (sha256 r.body)) c.sessionToken

/-- What `sign` writes where it signs. -/
theorem sign_some {c : Credentials} {r : Request} (signs : sign sha256 hmac c r ≠ []) :
    ∃ day, dateOnly r.amzDate = some day ∧
      sign sha256 hmac c r =
        [(ascii "x-amz-date", r.amzDate)] ++
          (if c.sessionToken.isEmpty then []
            else [(ascii "x-amz-security-token", c.sessionToken)]) ++
          [(ascii "Authorization", authorization sha256 hmac c r day)] := by
  unfold sign at signs ⊢
  cases dated : dateOnly r.amzDate with
  | none =>
      rw [dated] at signs
      exact absurd rfl signs
  | some day =>
      rw [dated] at signs
      dsimp only at signs ⊢
      split at signs
      · exact absurd rfl signs
      · rename_i whole
        exact ⟨day, rfl, if_neg whole⟩

/-- Two requests of one venue that a key pair signs alike ask for the same, unless a digest
collides on what was signed of them. -/
theorem sign_binds (fixed : ∀ key text, (hmac key text).length = 32) {c : Credentials}
    {r r' : Request} (lines : Lines r c.sessionToken) (lines' : Lines r' c.sessionToken)
    (region : r.region = r'.region) (service : r.service = r'.service)
    (signs : sign sha256 hmac c r ≠ [])
    (same : sign sha256 hmac c r = sign sha256 hmac c r') :
    ∃ day, dateOnly r.amzDate = some day ∧
      (AsksSame r r' ∧ r.body = r'.body ∨
        Collide sha256 r.body r'.body ∨
        Collide sha256 (signedRequest sha256 c r) (signedRequest sha256 c r') ∨
        Collide (hmac (signingKey hmac c.secretAccessKey day r.region r.service))
          (stringToSign sha256 r day c.sessionToken)
          (stringToSign sha256 r' day c.sessionToken)) := by
  obtain ⟨day, dated, first⟩ := sign_some signs
  obtain ⟨day', dated', second⟩ := sign_some (c := c) (r := r') (same ▸ signs)
  rw [first, second] at same
  obtain ⟨front, last⟩ := List.append_inj' same rfl
  have value := (Prod.mk.inj (List.singleton_inj.mp last)).2
  have date : r.amzDate = r'.amzDate :=
    (Prod.mk.inj (List.singleton_inj.mp (List.append_inj front rfl).1)).2
  have days : day = day' := Option.some.inj (dated.symm.trans (date ▸ dated'))
  subst days
  refine ⟨day, dated, ?_⟩
  unfold authorization at value
  rw [← region, ← service] at value
  have sizes : (toHex (hmac (signingKey hmac c.secretAccessKey day r.region r.service)
        (stringToSign sha256 r day c.sessionToken))).length =
      (toHex (hmac (signingKey hmac c.secretAccessKey day r.region r.service)
        (stringToSign sha256 r' day c.sessionToken))).length := by
    rw [toHex_length, toHex_length, fixed, fixed]
  have signature := toHex_injective (List.append_inj' value sizes).2
  by_cases texts : stringToSign sha256 r day c.sessionToken =
      stringToSign sha256 r' day c.sessionToken
  · unfold stringToSign at texts
    rw [← date, ← region, ← service] at texts
    have digests := toHex_injective (List.append_cancel_left texts)
    by_cases requests : signedRequest sha256 c r = signedRequest sha256 c r'
    · obtain ⟨asks, -, hashes⟩ := canonicalRequest_same lines lines' requests
      by_cases bodies : r.body = r'.body
      · exact Or.inl ⟨asks, bodies⟩
      · exact Or.inr (Or.inl ⟨bodies, toHex_injective hashes⟩)
    · exact Or.inr (Or.inr (Or.inl ⟨requests, digests⟩))
  · exact Or.inr (Or.inr (Or.inr ⟨texts, signature⟩))

end Signing

/-! ## With the digests -/

/-- SHA-256. -/
def sha256Of (text : Bytes) : Bytes :=
  (Net.Sha256.reset.update text).finish.1

/-- A digest has 32 bytes. -/
theorem sha256Of_length (text : Bytes) : (sha256Of text).length = 32 := rfl

/-- A request for a model, with `query` for its parameters. -/
def sampleRequest (query : Bytes) : Request where
  method := ascii "POST"
  path := ascii "/model/m%3A0/invoke"
  query := query
  host := ascii "bedrock-runtime.us-east-1.amazonaws.com"
  contentType := ascii "application/json"
  body := ascii "\x7b\x7d"
  region := ascii "us-east-1"
  service := ascii "bedrock"
  amzDate := ascii "20260801T120000Z"

/-- A key pair. -/
def sampleKey : Credentials := ⟨ascii "AKID", ascii "SECRET", []⟩

theorem sampleRequest_lines (query : Bytes) :
    Lines (sampleRequest query) sampleKey.sessionToken :=
  ⟨(by decide +kernel : OneLine (ascii "POST")),
    (by decide +kernel : OneLine (ascii "application/json")),
    (by decide +kernel : OneLine (ascii "bedrock-runtime.us-east-1.amazonaws.com")),
    (by decide +kernel : OneLine (ascii "20260801T120000Z")), (by decide : OneLine [])⟩

theorem sampleRequest_signed (query : Bytes) :
    sign sha256Of (Rfc2104.hmac sha256Of 64) sampleKey (sampleRequest query) =
      [(ascii "x-amz-date", (sampleRequest query).amzDate),
        (ascii "Authorization", authorization sha256Of (Rfc2104.hmac sha256Of 64) sampleKey
          (sampleRequest query) (ascii "20260801"))] := by
  have dated : dateOnly (ascii "20260801T120000Z") = some (ascii "20260801") := by
    decide +kernel
  have date : (sampleRequest query).amzDate = ascii "20260801T120000Z" := rfl
  unfold sign
  rw [date, dated]
  rfl

/-- Queries of one canonical form are signed alike. -/
theorem sampleRequest_same {query query' : Bytes}
    (same : canonicalQuery query = canonicalQuery query') :
    sign sha256Of (Rfc2104.hmac sha256Of 64) sampleKey (sampleRequest query) =
      sign sha256Of (Rfc2104.hmac sha256Of 64) sampleKey (sampleRequest query') := by
  have requests : ∀ hash, canonicalRequest (sampleRequest query) hash [] =
      canonicalRequest (sampleRequest query') hash [] := by
    intro hash
    unfold canonicalRequest sampleRequest
    dsimp only
    rw [same]
    rfl
  have texts : stringToSign sha256Of (sampleRequest query) (ascii "20260801") [] =
      stringToSign sha256Of (sampleRequest query') (ascii "20260801") [] := by
    unfold stringToSign
    rw [requests]
    rfl
  have token : sampleKey.sessionToken = [] := rfl
  rw [sampleRequest_signed, sampleRequest_signed, authorization, authorization, token, texts]
  rfl

/-- Two sample requests are to one venue. -/
theorem sampleRequest_venue (query query' : Bytes) :
    (sampleRequest query).region = (sampleRequest query').region ∧
      (sampleRequest query).service = (sampleRequest query').service :=
  ⟨rfl, rfl⟩

theorem sample_queries : canonicalQuery (ascii "a=1&b=2") = canonicalQuery (ascii "b=2&a=1") := by
  decide +kernel

/-- A request and the same with its parameters in another order. -/
theorem sign_binds_order :
    ∃ day, dateOnly (sampleRequest (ascii "a=1&b=2")).amzDate = some day ∧
      (AsksSame (sampleRequest (ascii "a=1&b=2")) (sampleRequest (ascii "b=2&a=1")) ∧
          (sampleRequest (ascii "a=1&b=2")).body = (sampleRequest (ascii "b=2&a=1")).body ∨
        Collide sha256Of (sampleRequest (ascii "a=1&b=2")).body
          (sampleRequest (ascii "b=2&a=1")).body ∨
        Collide sha256Of (signedRequest sha256Of sampleKey (sampleRequest (ascii "a=1&b=2")))
          (signedRequest sha256Of sampleKey (sampleRequest (ascii "b=2&a=1"))) ∨
        Collide (Rfc2104.hmac sha256Of 64 (signingKey (Rfc2104.hmac sha256Of 64)
            sampleKey.secretAccessKey day (sampleRequest (ascii "a=1&b=2")).region
            (sampleRequest (ascii "a=1&b=2")).service))
          (stringToSign sha256Of (sampleRequest (ascii "a=1&b=2")) day sampleKey.sessionToken)
          (stringToSign sha256Of (sampleRequest (ascii "b=2&a=1")) day sampleKey.sessionToken)) :=
  sign_binds (Rfc2104.hmac_length sha256Of 64 sha256Of_length)
    (sampleRequest_lines (ascii "a=1&b=2")) (sampleRequest_lines (ascii "b=2&a=1"))
    (sampleRequest_venue _ _).1 (sampleRequest_venue _ _).2
    (by rw [sampleRequest_signed]; exact List.cons_ne_nil _ _) (sampleRequest_same sample_queries)

/-! ## Credentials -/

/-- The cut is at the first such byte. -/
theorem cutAt_some {c : Byte} {s front rest : Bytes} :
    cutAt c s = some (front, rest) ↔ s = front ++ c :: rest ∧ c ∉ front := by
  have free : ∀ {front : Bytes}, c ∉ front → ∀ d ∈ front, (d != c) = true := by
    intro front absent d member
    rw [bne_iff_ne]
    rintro rfl
    exact absent member
  have noFront : c ∉ s.takeWhile (· != c) := by
    intro member
    exact absurd (List.mem_takeWhile_imp member) (by simp)
  constructor
  · intro cut
    unfold cutAt at cut
    split at cut
    · rename_i inside
      obtain ⟨rfl, rfl⟩ := Prod.mk.inj (Option.some.inj cut)
      refine ⟨?_, noFront⟩
      have some : s.dropWhile (· != c) ≠ [] := by
        intro none
        rw [List.dropWhile_eq_nil_iff] at none
        exact absurd (none c inside) (by simp)
      obtain ⟨d, tail, shape⟩ := List.exists_cons_of_ne_nil some
      have stops := List.head_dropWhile_not (· != c) some
      simp only [shape, List.head_cons, bne_eq_false_iff_eq] at stops
      have split := List.takeWhile_append_dropWhile (p := (· != c)) (l := s)
      rw [shape, stops] at split
      rw [shape]
      exact split.symm
    · cases cut
  · rintro ⟨rfl, absent⟩
    unfold cutAt
    rw [if_pos (by simp), List.takeWhile_append_of_pos (free absent),
      List.dropWhile_append_of_pos (free absent)]
    simp

/-- There is no cut where there is no such byte. -/
theorem cutAt_none {c : Byte} {s : Bytes} : cutAt c s = none ↔ c ∉ s := by
  unfold cutAt
  split <;> simp_all

/-- A bearer value gives a key pair exactly where it is two or three parts that colons
separate, none of them empty; the parts are then what it gives. -/
theorem parse_credentials (bearer : Bytes) (c : Credentials) :
    parseCredentials bearer = some c ↔
      (c.accessKeyId ≠ [] ∧ c.secretAccessKey ≠ [] ∧ 0x3a ∉ c.accessKeyId ∧
        0x3a ∉ c.secretAccessKey ∧ 0x3a ∉ c.sessionToken) ∧
      bearer = c.accessKeyId ++ 0x3a :: (c.secretAccessKey ++
        if c.sessionToken = [] then [] else 0x3a :: c.sessionToken) := by
  obtain ⟨id, secret, token⟩ := c
  dsimp only
  unfold parseCredentials
  constructor
  · intro parsed
    cases first : cutAt 0x3a bearer with
    | none =>
        rw [first] at parsed
        cases parsed
    | some parts =>
        obtain ⟨front, rest⟩ := parts
        rw [first] at parsed
        dsimp only at parsed
        obtain ⟨whole, plain⟩ := cutAt_some.mp first
        split at parsed
        · cases parsed
        rename_i named
        rw [List.isEmpty_iff] at named
        cases second : cutAt 0x3a rest with
        | none =>
            rw [second] at parsed
            dsimp only at parsed
            split at parsed
            · cases parsed
            rename_i given
            rw [List.isEmpty_iff] at given
            obtain ⟨rfl, rfl, rfl⟩ := Credentials.mk.inj (Option.some.inj parsed)
            refine ⟨⟨named, given, plain, cutAt_none.mp second, List.not_mem_nil⟩, ?_⟩
            rw [whole, if_pos rfl, List.append_nil]
        | some parts =>
            obtain ⟨middle, last⟩ := parts
            rw [second] at parsed
            dsimp only at parsed
            obtain ⟨rfl, plain'⟩ := cutAt_some.mp second
            split at parsed
            · cases parsed
            rename_i given
            simp only [Bool.or_eq_true, List.isEmpty_iff, decide_eq_true_eq, not_or] at given
            obtain ⟨rfl, rfl, rfl⟩ := Credentials.mk.inj (Option.some.inj parsed)
            refine ⟨⟨named, given.1.1, plain, plain', given.1.2⟩, ?_⟩
            rw [whole, if_neg given.2]
  · rintro ⟨⟨named, given, plain, plain', plain''⟩, rfl⟩
    have first : cutAt 0x3a (id ++ 0x3a :: (secret ++
        if token = [] then [] else 0x3a :: token)) =
        some (id, secret ++ if token = [] then [] else 0x3a :: token) :=
      cutAt_some.mpr ⟨rfl, plain⟩
    rw [first]
    dsimp only
    rw [if_neg (by rwa [List.isEmpty_iff])]
    by_cases none : token = []
    · rw [if_pos none, List.append_nil, cutAt_none.mpr plain']
      dsimp only
      rw [if_neg (by rwa [List.isEmpty_iff]), none]
    · rw [if_neg none, cutAt_some.mpr ⟨rfl, plain'⟩]
      dsimp only
      rw [if_neg (by simp [given, plain'', none])]

end SigV4
end Llmbridge
