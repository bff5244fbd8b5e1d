import Llmbridge.EventStream.Newlines
import Llmbridge.Gateway.Request
import Llmbridge.Net.ParseResponse
import Llmbridge.Provider.GeminiFacts

/-!
# The events of a Gemini stream

`keep_gemini_facts` and `note_gemini_events` of `gateway/src/stream.hpp`: the lines of a
stream are joined across reads up to a length, and only a line that can still say
something is parsed.  What is kept does not depend on where the reads end.
-/

namespace Llmbridge
namespace Gateway

open Rfc8259 (Byte Bytes ascii quoted)
open Gemini (GeminiFacts geminiFacts Names NoTool)
open EventStream (lf newlines prepend newlines_inner newlines_line split_at_lf)

/-! ## The source -/

/-- What a request keeps of a Gemini stream. -/
structure StreamFacts where
  servedModel : FixedStr 64 := default
  venueReqId : FixedStr 64 := default
  servedTier : FixedStr 32 := default
  upstreamError : FixedStr 32 := default
  searchQueries : Int := -1
  toolPromptInput : Bool := false
  streamError : Bool := false
  /-- The count is -1 until a query is seen. -/
  counted : -1 ≤ searchQueries := by decide
  deriving DecidableEq, Repr

/-- Those fields of the request, its first token and the line still arriving. -/
structure GeminiReq where
  f : StreamFacts := {}
  tsFirstToken : Int := 0
  eventLine : Bytes := []
  eventLineDropped : Bool := false
  deriving DecidableEq, Repr

/-- A string that is kept the first time it is stated. -/
def keepFirst {n : Nat} (kept : FixedStr n) (stated : Bytes) : FixedStr n :=
  if kept.isEmpty = true ∧ stated ≠ [] then FixedStr.set stated else kept

/-- `keep_gemini_facts`. -/
def keepGeminiFacts (f : StreamFacts) (g : GeminiFacts) : StreamFacts where
  servedModel := keepFirst f.servedModel g.modelVersion
  venueReqId := keepFirst f.venueReqId g.responseId
  servedTier := keepFirst f.servedTier g.tier
  searchQueries := if g.searchQueries > f.searchQueries then g.searchQueries else f.searchQueries
  toolPromptInput := g.toolInput || f.toolPromptInput
  streamError := g.error || f.streamError
  upstreamError := if g.error then FixedStr.set g.errorStatus else f.upstreamError
  counted := by
    split
    · exact f.counted.trans (Int.le_of_lt ‹_›)
    · exact f.counted

/-- `kGeminiLineMax`. -/
def kGeminiLineMax : Nat := 256 * 1024

/-- `find_fast` for a quoted key. -/
def namesKey (line : Bytes) (key : String) : Bool :=
  (Http1.find (quoted (ascii key)) line).isSome

/-- `wanted`: before the first token every line, after it one that names a key not yet
seen. -/
def wanted (c : GeminiReq) (line : Bytes) : Bool :=
  c.tsFirstToken == 0 || (c.f.servedModel.isEmpty && namesKey line "modelVersion") ||
    (c.f.venueReqId.isEmpty && namesKey line "responseId") ||
    (c.f.servedTier.isEmpty &&
      (namesKey line "serviceTier" || namesKey line "trafficType")) ||
    ["error", "groundingMetadata", "executableCode", "codeExecutionResult",
      "urlContextMetadata"].any (namesKey line)

/-- What the lines showed of a token and of thinking. -/
structure Seen where
  token : Bool := false
  thinking : Bool := false
  deriving DecidableEq, Repr

/-- A line without its carriage return. -/
def chomp (line : Bytes) : Bytes :=
  if line.getLast? = some 0x0d then line.dropLast else line

/-- `read_line`. -/
def readLine (s : Seen × GeminiReq) (line : Bytes) : Seen × GeminiReq :=
  let line := chomp line
  if line.take 5 ≠ ascii "data:" ∨ wanted s.2 line = false then s
  else
    match geminiFacts (line.drop 5) {} with
    | none => s
    | some g =>
        ({ thinking := s.1.thinking || (g.thinking && !s.1.token)
           token := s.1.token || g.token },
          { s.2 with f := keepGeminiFacts s.2.f g })

/-- The loop of `note_gemini_events`.  Every round takes a newline or ends it. -/
def noteLoop : (rounds : Nat) → Seen × GeminiReq → Bytes → Seen × GeminiReq
  | 0, s, _ => s
  | rounds + 1, s, bytes =>
      if bytes = [] then s
      else
        match bytes.findIdx? (· == lf) with
        | none =>
            if s.2.eventLineDropped = false ∧
                s.2.eventLine.length + bytes.length ≤ kGeminiLineMax then
              (s.1, { s.2 with eventLine := s.2.eventLine ++ bytes })
            else (s.1, { s.2 with eventLineDropped := true, eventLine := [] })
        | some eol =>
            let s :=
              if s.2.eventLineDropped then
                (s.1, { s.2 with eventLineDropped := false })
              else if s.2.eventLine = [] then
                if eol ≤ kGeminiLineMax then readLine s (bytes.take eol) else s
              else if s.2.eventLine.length + eol ≤ kGeminiLineMax then
                readLine s (s.2.eventLine ++ bytes.take eol)
              else s
            noteLoop rounds (s.1, { s.2 with eventLine := [] }) (bytes.drop (eol + 1))

/-- `note_gemini_events`. -/
def noteGeminiEvents (c : GeminiReq) (bytes : Bytes) : Seen × GeminiReq :=
  noteLoop (bytes.length + 1) ({}, c) bytes

/-- One read of `stream_step`: the first token is stamped after the call that shows
it. -/
def readStep (c : GeminiReq) (read : Bytes × Int) : GeminiReq :=
  let (seen, c) := noteGeminiEvents c read.1
  if seen.token && c.tsFirstToken == 0 then { c with tsFirstToken := read.2 } else c

/-! ## Whole lines -/

/-- A `data:` line, read whatever was seen before it. -/
def readData (f : StreamFacts) (line : Bytes) : StreamFacts :=
  let line := chomp line
  if line.take 5 ≠ ascii "data:" then f
  else ((geminiFacts (line.drop 5) {}).map (keepGeminiFacts f)).getD f

/-- A line of at most `kGeminiLineMax` bytes, and no other. -/
def readWhole (f : StreamFacts) (line : Bytes) : StreamFacts :=
  if line.length ≤ kGeminiLineMax then readData f line else f

/-- The whole lines of a stream, of which the first began with what is still arriving;
it is left out when its front was dropped. -/
def arriving (c : GeminiReq) (stream : Bytes) : List Bytes :=
  let lines := (prepend c.eventLine (newlines stream)).1
  if c.eventLineDropped then lines.tail else lines

/-! ## The filter -/

/-- A key that is not found in a line is not named behind its `data:`. -/
theorem not_names {line : Bytes} {key : String} (missing : namesKey line key = false) :
    ¬ Names (line.drop 5) key := by
  intro named
  have found := Http.find_of_isInfix (named.trans (List.drop_suffix 5 line).isInfix)
  rw [namesKey, found] at missing
  exact absurd missing (by decide)

theorem keepFirst_same {n : Nat} {kept : FixedStr n} {stated : Bytes}
    (nothing : kept.isEmpty = true → stated = []) : keepFirst kept stated = kept := by
  apply if_neg
  rintro ⟨empty, some_byte⟩
  exact some_byte (nothing empty)

/-- A line that is not wanted says nothing that would be kept. -/
theorem not_wanted {c : GeminiReq} {line : Bytes} {g : GeminiFacts}
    (skipped : wanted c line = false) (read : geminiFacts (line.drop 5) {} = some g) :
    keepGeminiFacts c.f g = c.f := by
  have silent := Gemini.geminiFacts_silent read
  simp only [wanted, Bool.or_eq_false_iff, List.any_eq_false, Bool.not_eq_true,
    List.mem_cons, List.not_mem_nil, or_false, forall_eq_or_imp, forall_eq,
    Bool.and_eq_false_imp, beq_eq_false_iff_ne] at skipped
  obtain ⟨⟨⟨⟨-, model⟩, id⟩, tier⟩, error, grounding, code, result, url⟩ := skipped
  have model : keepFirst c.f.servedModel g.modelVersion = c.f.servedModel :=
    keepFirst_same fun empty => silent.modelVersion (not_names (model empty))
  have id : keepFirst c.f.venueReqId g.responseId = c.f.venueReqId :=
    keepFirst_same fun empty => silent.responseId (not_names (id empty))
  have tier : keepFirst c.f.servedTier g.tier = c.f.servedTier :=
    keepFirst_same fun empty =>
      silent.tier (not_names (tier empty).1) (not_names (tier empty).2)
  have noError : g.error = false := silent.error (not_names error)
  have noTool : g.toolInput = false :=
    silent.toolInput ⟨not_names code, not_names result, not_names url⟩
  have queries : ¬ g.searchQueries > c.f.searchQueries := by
    rw [silent.searchQueries (not_names grounding)]
    exact not_lt.mpr c.f.counted
  obtain ⟨⟨servedModel, venueReqId, servedTier, upstreamError, searchQueries, toolPromptInput,
    streamError, counted⟩, tsFirstToken, eventLine, eventLineDropped⟩ := c
  simp only [keepGeminiFacts, StreamFacts.mk.injEq] at model id tier queries ⊢
  simp [model, id, tier, noError, noTool, queries]

/-- A line is read the same whatever was seen before it. -/
theorem readLine_eq (s : Seen × GeminiReq) (line : Bytes) :
    (readLine s line).2 = { s.2 with f := readData s.2.f line } := by
  unfold readLine readData
  dsimp only
  by_cases data : (chomp line).take 5 ≠ ascii "data:"
  · rw [if_pos (Or.inl data), if_pos data]
  · rw [if_neg data]
    by_cases skipped : wanted s.2 (chomp line) = false
    · rw [if_pos (Or.inr skipped)]
      cases read : geminiFacts ((chomp line).drop 5) {} with
      | none => rfl
      | some g =>
          rw [Option.map_some, Option.getD_some, not_wanted skipped read]
    · rw [if_neg (not_or.mpr ⟨data, skipped⟩)]
      cases geminiFacts ((chomp line).drop 5) {} with
      | none => rfl
      | some g => rfl

/-! ## The reads -/

/-- What is kept once the whole lines of a stream are read. -/
def finish (c : GeminiReq) (stream : Bytes) : StreamFacts :=
  (arriving c stream).foldl readWhole c.f

@[simp] theorem finish_nil (c : GeminiReq) : finish c [] = c.f := by
  unfold finish arriving
  rw [EventStream.newlines_nil, prepend]
  split <;> rfl

/-- A piece without a newline is held, or is dropped with the rest of its line. -/
theorem finish_inner {c : GeminiReq} {bytes : Bytes} (inner : ∀ b ∈ bytes, b ≠ lf)
    (more : Bytes) :
    finish (if c.eventLineDropped = false ∧
        c.eventLine.length + bytes.length ≤ kGeminiLineMax then
      { c with eventLine := c.eventLine ++ bytes }
      else { c with eventLineDropped := true, eventLine := [] }) more =
    finish c (bytes ++ more) := by
  unfold finish arriving
  rw [newlines_inner inner, EventStream.prepend_prepend]
  by_cases fits : c.eventLineDropped = false ∧
      c.eventLine.length + bytes.length ≤ kGeminiLineMax
  · rw [if_pos fits]
  · rw [if_neg fits]
    rcases newlines more with ⟨_ | ⟨line, lines⟩, tail⟩
    · simp only [prepend, List.tail_nil, ite_self]
    · simp only [prepend, List.tail_cons, if_true]
      by_cases dropped : c.eventLineDropped = true
      · rw [if_pos dropped]
      · -- The line is over the length already.
        have long : ¬ (c.eventLine ++ bytes ++ line).length ≤ kGeminiLineMax := by
          have over_length : ¬ c.eventLine.length + bytes.length ≤ kGeminiLineMax :=
            fun small => fits ⟨Bool.not_eq_true _ ▸ dropped, small⟩
          simp only [List.length_append]
          omega
        rw [if_neg dropped, List.foldl_cons, readWhole, if_neg long]

/-- The line that a newline ends. -/
theorem finish_line {s : Seen × GeminiReq} {line : Bytes} (inner : ∀ b ∈ line, b ≠ lf)
    (more : Bytes) :
    finish { (if s.2.eventLineDropped then
        (s.1, { s.2 with eventLineDropped := false })
      else if s.2.eventLine = [] then
        if line.length ≤ kGeminiLineMax then readLine s line else s
      else if s.2.eventLine.length + line.length ≤ kGeminiLineMax then
        readLine s (s.2.eventLine ++ line)
      else s).2 with eventLine := [] } more =
    finish s.2 (line ++ lf :: more) := by
  have whole : ∀ c : GeminiReq, c.eventLineDropped = false →
      finish { c with eventLine := [] } more = (newlines more).1.foldl readWhole c.f := by
    intro c kept
    unfold finish arriving
    rw [EventStream.prepend_nil]
    simp only [kept, Bool.false_eq_true, if_false]
  have begun : finish s.2 (line ++ lf :: more) =
      if s.2.eventLineDropped then (newlines more).1.foldl readWhole s.2.f
      else (newlines more).1.foldl readWhole (readWhole s.2.f (s.2.eventLine ++ line)) := by
    unfold finish arriving
    rw [newlines_line inner, prepend]
    split
    · rfl
    · rfl
  rw [begun]
  by_cases dropped : s.2.eventLineDropped = true
  · rw [if_pos dropped, if_pos dropped]
    exact whole { s.2 with eventLineDropped := false } rfl
  · have kept : s.2.eventLineDropped = false := Bool.not_eq_true _ ▸ dropped
    rw [if_neg dropped, if_neg dropped]
    by_cases fresh : s.2.eventLine = []
    · rw [if_pos fresh, fresh, List.nil_append]
      unfold readWhole
      split
      · rw [readLine_eq]
        exact whole { s.2 with f := readData s.2.f line } kept
      · exact whole s.2 kept
    · rw [if_neg fresh]
      conv_rhs => unfold readWhole
      rw [List.length_append]
      split
      · rw [readLine_eq]
        exact whole { s.2 with f := readData s.2.f (s.2.eventLine ++ line) } kept
      · exact whole s.2 kept

/-- One call, whatever comes after it. -/
theorem noteLoop_finish (rounds : Nat) : ∀ (s : Seen × GeminiReq) (bytes more : Bytes),
    bytes.length < rounds →
      finish (noteLoop rounds s bytes).2 more = finish s.2 (bytes ++ more) := by
  induction rounds with
  | zero => exact fun _ _ _ few => absurd few (Nat.not_lt_zero _)
  | succ rounds inductionHypothesis =>
      intro s bytes more few
      unfold noteLoop
      by_cases nothing : bytes = []
      · rw [if_pos nothing, nothing, List.nil_append]
      · rw [if_neg nothing]
        cases found : bytes.findIdx? (· == lf) with
        | none =>
            have inner : ∀ b ∈ bytes, b ≠ lf := by
              intro b member
              simpa using List.findIdx?_eq_none_iff.mp found b member
            rw [← finish_inner inner more]
            dsimp only
            split
            · rfl
            · rfl
        | some eol =>
            obtain ⟨split, inner⟩ := split_at_lf found
            have size := congrArg List.length split
            rw [List.length_append, List.length_cons] at size
            have bound := (List.findIdx?_eq_some_iff_getElem.mp found).1
            have taken : (bytes.take eol).length = eol := by
              rw [List.length_take]
              omega
            dsimp only
            rw [inductionHypothesis _ _ more (by omega)]
            conv_rhs => rw [split, List.append_assoc, List.cons_append]
            rw [← finish_line inner, taken]

/-- The stamp of the first token changes nothing that is kept. -/
theorem readStep_finish (c : GeminiReq) (read : Bytes × Int) (more : Bytes) :
    finish (readStep c read) more = finish c (read.1 ++ more) := by
  have noted := noteLoop_finish (read.1.length + 1) ({}, c) read.1 more (Nat.lt_succ_self _)
  rw [← noted]
  unfold readStep noteGeminiEvents
  dsimp only
  split
  · rfl
  · rfl

theorem reads_finish (reads : List (Bytes × Int)) : ∀ c : GeminiReq,
    (reads.foldl readStep c).f = finish c (reads.map Prod.fst).flatten := by
  induction reads with
  | nil => exact fun c => (finish_nil c).symm
  | cons read reads inductionHypothesis =>
      intro c
      rw [List.foldl_cons, inductionHypothesis, List.map_cons, List.flatten_cons,
        readStep_finish]

/-- What a Gemini stream leaves on the request depends on its bytes and not on where the
reads end or when the first token was stamped: it is what the whole lines of at most
`kGeminiLineMax` bytes say, read one after another. -/
theorem geminiEvents_exact (c : GeminiReq) {reads others : List (Bytes × Int)}
    (same : (reads.map Prod.fst).flatten = (others.map Prod.fst).flatten) :
    (reads.foldl readStep c).f = (others.foldl readStep c).f ∧
      (reads.foldl readStep c).f =
        (arriving c (reads.map Prod.fst).flatten).foldl readWhole c.f := by
  constructor
  · rw [reads_finish, reads_finish, same]
  · exact reads_finish reads c

/-- The same of one event, cut in its key and read at once. -/
theorem geminiEvents_exact_cut :
    ([(ascii "data: \x7b\"modelVer", (1 : Int)), (ascii "sion\":\"m\"\x7d\n", 2)].foldl
        readStep {}).f =
      ([(ascii "data: \x7b\"modelVersion\":\"m\"\x7d\n", (3 : Int))].foldl readStep {}).f :=
  (geminiEvents_exact {} (by decide)).1

end Gateway
end Llmbridge
