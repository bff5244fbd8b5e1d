import Llmbridge.Gateway.Forward
import Llmbridge.Net.ParseResponse

/-!
# Head facts

What `HeadReader` holds after the walk of an accepted head, in terms of the head's
lines.
-/

namespace Llmbridge
namespace Forward

open Rfc8259 (Byte Bytes ascii substr Located)
open Http1 (crlf Clean join)
open Http

/-! ## Header lines and their places -/

/-- Lines, each with its line end. -/
def ended (lines : List Bytes) : Bytes :=
  lines.flatMap fun line => line ++ crlf

/-- No line is no text. -/
@[simp]
theorem ended_nil : ended [] = [] :=
  rfl

/-- A line, its end and the other lines. -/
@[simp]
theorem ended_cons (line : Bytes) (lines : List Bytes) :
    ended (line :: lines) = line ++ crlf ++ ended lines :=
  rfl

/-- Lines behind lines. -/
theorem ended_append (first second : List Bytes) :
    ended (first ++ second) = ended first ++ ended second := by
  unfold ended
  rw [List.flatMap_append]

/-- A head with the end of its last line. -/
theorem join_ended (start : Bytes) (lines : List Bytes) :
    join start lines ++ crlf = ended (start :: lines) := by
  induction lines generalizing start with
  | nil => simp [Http1.join_nil]
  | cons line lines inductionHypothesis =>
      rw [Http1.join_cons, List.append_assoc, List.append_assoc, inductionHypothesis,
        ended_cons start, List.append_assoc]

/-- The header lines of lines, the first at `«at»`. -/
def headerLines : («at» : Nat) → List Bytes → List HeaderLine
  | _, [] => []
  | «at», line :: rest =>
      ⟨classify (nameOf line), nameOf line, valueOf line, «at»⟩ ::
        headerLines («at» + line.length + 2) rest

/-- Every line is a header line. -/
def AllFields (lines : List Bytes) : Prop :=
  ∀ line ∈ lines, ∃ name value, IsField line name value

/-- The header lines behind the first. -/
theorem AllFields.tail {line : Bytes} {lines : List Bytes} (fields : AllFields (line :: lines)) :
    AllFields lines :=
  fun found member => fields found (List.mem_cons_of_mem line member)

/-- A header line has the name and the value that are read of it. -/
theorem isField_of {line name value : Bytes} (isField : IsField line name value) :
    IsField line (nameOf line) (valueOf line) := by
  rw [isField.nameOf, isField.valueOf]
  exact isField

/-- A visitor that refuses nothing goes through every header line. -/
theorem visitLines_fold
    {σ : Type} {f : σ → HeaderLine → σ × Bool} {g : σ → HeaderLine → σ}
    (total : ∀ s h, f s h = (g s h, true)) {lines : List Bytes} (fields : AllFields lines)
    (s : σ) («at» : Nat) :
    visitLines f s «at» lines = (true, (headerLines «at» lines).foldl g s) := by
  induction lines generalizing s «at» with
  | nil => rfl
  | cons line lines inductionHypothesis =>
      obtain ⟨name, value, isField⟩ := fields line List.mem_cons_self
      rw [visitLines_cons, visitLine_field f s «at» (isField_of isField), total, if_pos rfl,
        inductionHypothesis fields.tail]
      rfl

/-- The visitor of `parse_request` sees every line of an accepted head. -/
theorem visitLines_also
    {α : Type} {also : α → HeaderLine → α × Bool} {w : RequestWalk α} {«at» : Nat}
    {lines : List Bytes} (ok : (visitLines (requestVisit also) w «at» lines).1 = true) :
    visitLines also w.also «at» lines =
      (true, (visitLines (requestVisit also) w «at» lines).2.also) := by
  induction lines generalizing w «at» with
  | nil => rfl
  | cons line lines inductionHypothesis =>
      rw [visitLines_cons] at ok ⊢
      by_cases good : (visitLine (requestVisit also) w «at» line).2 = true
      · rw [if_pos good] at ok
        obtain ⟨name, value, isField, visited⟩ := visitLine_true good
        have others := inductionHypothesis ok
        rw [visitLines_cons, if_pos good, visitLine_field also w.also «at» isField]
        rw [visited] at good others ⊢
        unfold requestVisit at good others ⊢
        have kept : (requestLine w ⟨classify name, name, value, «at»⟩).1.also = w.also := by
          unfold requestLine
          split
          · split
            · rfl
            · split <;> rfl
          · rfl
          · rfl
          · rfl
          · rfl
        generalize requestLine w ⟨classify name, name, value, «at»⟩ = result
          at good others kept ⊢
        obtain ⟨next, accepted⟩ := result
        cases accepted with
        | false => cases good
        | true =>
            dsimp only at good others kept ⊢
            rw [kept] at good others ⊢
            rw [if_pos good]
            exact others
      · rw [if_neg good] at ok
        cases ok

/-- Each name and value stands where its line says. -/
theorem headerLines_located
    {msg : Bytes} {lines : List Bytes} {«at» : Nat} (fields : AllFields lines)
    (located : Located msg «at» (ended lines)) :
    ∀ h ∈ headerLines «at» lines, Located msg h.valueAt h.value := by
  induction lines generalizing «at» with
  | nil => exact fun h member => absurd member List.not_mem_nil
  | cons line lines inductionHypothesis =>
      obtain ⟨name, value, isField⟩ := fields line List.mem_cons_self
      obtain ⟨first, others⟩ := located.split
      rw [List.length_append, ← Nat.add_assoc] at others
      intro h member
      rcases List.mem_cons.mp member with rfl | member
      · have whole := (isField_of isField).split
        unfold HeaderLine.valueAt
        dsimp only
        have stands := first.split.1
        rw [whole] at stands
        have behind := stands.split.2.tail
        exact behind
      · exact inductionHypothesis fields.tail others h member

/-- The span of a value is the value. -/
theorem valueSpan_in {msg : Bytes} {h : HeaderLine} (located : Located msg h.valueAt h.value) :
    (valueSpan h).in msg = h.value :=
  located.substr

/-- The trimmed span is the trimmed value. -/
theorem trimmedSpan_in {msg : Bytes} {h : HeaderLine} (located : Located msg h.valueAt h.value) :
    (trimmedSpan h).in msg = trimOws h.value := by
  have front : h.value = h.value.takeWhile isOws ++ ltrim h.value :=
    List.takeWhile_append_dropWhile.symm
  have back : trimOws h.value <+: ltrim h.value := List.rdropWhile_prefix isOws _
  obtain ⟨rest, split⟩ := back
  rw [front, ← split, ← List.append_assoc] at located
  have stands := located.split.1.split.2
  exact stands.substr

/-! ## The facts -/

/-- The lines of a field. -/
def ofField (f : Field) (hs : List HeaderLine) : List HeaderLine :=
  hs.filter fun h => h.field = f

/-- The anthropic-beta lines that are not stripped. -/
def betaLines (strip : List Bytes) (hs : List HeaderLine) : List HeaderLine :=
  (ofField .anthropicBeta hs).filter fun h => !stripped h.name strip

/-- What the facts say of the lines read. -/
structure FactsOf (strip : List Bytes) (hs : List HeaderLine) (f : HeadFacts) : Prop where
  contentLength : f.contentLength = !(ofField .contentLength hs).isEmpty
  connections : f.connections = min (kConnections + 1) (ofField .connection hs).length
  connection : f.connection = ((ofField .connection hs).map valueSpan).take kConnections
  betas : f.anthropicBetas = min 2 (betaLines strip hs).length
  beta : f.anthropicBeta = (((betaLines strip hs).map trimmedSpan).head?).getD {}

/-- A head without headers has no facts. -/
theorem factsOf_nil (strip : List Bytes) : FactsOf strip [] {} :=
  ⟨rfl, rfl, rfl, rfl, rfl⟩

/-- The headers of a field, with one more. -/
theorem ofField_append (f : Field) (hs : List HeaderLine) (h : HeaderLine) :
    ofField f (hs ++ [h]) = ofField f hs ++ if h.field = f then [h] else [] := by
  unfold ofField
  rw [List.filter_append, List.filter_singleton]
  by_cases same : h.field = f
  · simp [same]
  · simp [same]

/-- The beta headers, with one more header. -/
theorem betaLines_append (strip : List Bytes) (hs : List HeaderLine) (h : HeaderLine) :
    betaLines strip (hs ++ [h]) = betaLines strip hs ++
      if h.field = .anthropicBeta ∧ stripped h.name strip = false then [h] else [] := by
  unfold betaLines
  rw [ofField_append, List.filter_append]
  by_cases same : h.field = .anthropicBeta
  · rw [if_pos same, List.filter_singleton]
    cases kept : stripped h.name strip with
    | true => simp
    | false => simp [same]
  · rw [if_neg same, if_neg fun both => same both.1]
    rfl

/-- Another header is none of them. -/
theorem betaLines_other {strip : List Bytes} {hs : List HeaderLine} {h : HeaderLine}
    (other : h.field ≠ .anthropicBeta) : betaLines strip (hs ++ [h]) = betaLines strip hs := by
  rw [betaLines_append, if_neg fun both => other both.1, List.append_nil]

/-- Nor is one of the strip list. -/
theorem betaLines_gone {strip : List Bytes} {hs : List HeaderLine} {h : HeaderLine}
    (gone : stripped h.name strip = true) : betaLines strip (hs ++ [h]) = betaLines strip hs := by
  rw [betaLines_append, if_neg (by simp [gone]), List.append_nil]

/-- A line of another field leaves these facts. -/
theorem FactsOf.other
    {strip : List Bytes} {hs : List HeaderLine} {f next : HeadFacts} {h : HeaderLine}
    (facts : FactsOf strip hs f) (field : h.field ≠ .contentLength ∧ h.field ≠ .connection ∧
      h.field ≠ .anthropicBeta)
    (same : next.contentLength = f.contentLength ∧ next.connections = f.connections ∧
      next.connection = f.connection ∧ next.anthropicBetas = f.anthropicBetas ∧
      next.anthropicBeta = f.anthropicBeta) : FactsOf strip (hs ++ [h]) next := by
  obtain ⟨notLength, notConnection, notBeta⟩ := field
  obtain ⟨length, connections, connection, betas, beta⟩ := same
  constructor
  · rw [ofField_append, if_neg notLength, List.append_nil, length]
    exact facts.contentLength
  · rw [ofField_append, if_neg notConnection, List.append_nil, connections]
    exact facts.connections
  · rw [ofField_append, if_neg notConnection, List.append_nil, connection]
    exact facts.connection
  · rw [betaLines_other notBeta, betas]
    exact facts.betas
  · rw [betaLines_other notBeta, beta]
    exact facts.beta

/-- A length is noted. -/
theorem FactsOf.length
    {strip : List Bytes} {hs : List HeaderLine} {f : HeadFacts} {h : HeaderLine}
    (facts : FactsOf strip hs f) (field : h.field = .contentLength) :
    FactsOf strip (hs ++ [h]) { f with contentLength := true } := by
  have notConnection : h.field ≠ .connection := by rw [field]; decide
  have notBeta : h.field ≠ .anthropicBeta := by rw [field]; decide
  constructor
  · rw [ofField_append, if_pos field]
    simp
  · rw [ofField_append, if_neg notConnection, List.append_nil]
    exact facts.connections
  · rw [ofField_append, if_neg notConnection, List.append_nil]
    exact facts.connection
  · rw [betaLines_other notBeta]
    exact facts.betas
  · rw [betaLines_other notBeta]
    exact facts.beta

/-- A Connection header is noted in its turn. -/
theorem FactsOf.connect
    {strip : List Bytes} {hs : List HeaderLine} {f : HeadFacts} {h : HeaderLine}
    (facts : FactsOf strip hs f) (field : h.field = .connection) :
    FactsOf strip (hs ++ [h]) { f with
      connection :=
        if f.connections < kConnections then f.connection ++ [valueSpan h] else f.connection
      connections :=
        if f.connections ≤ kConnections then f.connections + 1 else f.connections } := by
  have notLength : h.field ≠ .contentLength := by rw [field]; decide
  have notBeta : h.field ≠ .anthropicBeta := by rw [field]; decide
  have four : kConnections = 4 := rfl
  constructor
  · rw [ofField_append, if_neg notLength, List.append_nil]
    exact facts.contentLength
  · rw [ofField_append, if_pos field, List.length_append, List.length_singleton]
    dsimp only
    rw [facts.connections]
    split <;> omega
  · rw [ofField_append, if_pos field, List.map_append, List.map_singleton, List.take_append,
      List.length_map]
    dsimp only
    rw [facts.connections, facts.connection]
    split
    · next few =>
        rw [List.take_of_length_le (l := [valueSpan h])]
        rw [List.length_singleton]
        omega
    · next many =>
        rw [show kConnections - (ofField .connection hs).length = 0 by omega, List.take_zero,
          List.append_nil]
  · rw [betaLines_other notBeta]
    exact facts.betas
  · rw [betaLines_other notBeta]
    exact facts.beta

/-- So is a beta header that is not stripped. -/
theorem FactsOf.betaLine
    {strip : List Bytes} {hs : List HeaderLine} {f : HeadFacts} {h : HeaderLine}
    (facts : FactsOf strip hs f) (field : h.field = .anthropicBeta) :
    FactsOf strip (hs ++ [h])
      (if stripped h.name strip ∨ f.anthropicBetas = 2 then f
        else
          { f with
            anthropicBetas := f.anthropicBetas + 1
            anthropicBeta :=
              if f.anthropicBetas = 0 then trimmedSpan h else f.anthropicBeta }) := by
  have notLength : h.field ≠ .contentLength := by rw [field]; decide
  have notConnection : h.field ≠ .connection := by rw [field]; decide
  have count := facts.betas
  have first := facts.beta
  constructor
  · rw [ofField_append, if_neg notLength, List.append_nil]
    split <;> exact facts.contentLength
  · rw [ofField_append, if_neg notConnection, List.append_nil]
    split <;> exact facts.connections
  · rw [ofField_append, if_neg notConnection, List.append_nil]
    split <;> exact facts.connection
  · by_cases gone : stripped h.name strip = true
    · rw [if_pos (Or.inl gone), betaLines_gone gone]
      exact count
    · have kept : stripped h.name strip = false := Bool.eq_false_of_not_eq_true gone
      have grown := betaLines_append strip hs h
      rw [if_pos (And.intro field kept)] at grown
      rw [grown, List.length_append, List.length_singleton]
      by_cases full : f.anthropicBetas = 2
      · rw [if_pos (Or.inr full)]
        omega
      · rw [if_neg (not_or.mpr ⟨gone, full⟩)]
        dsimp only
        omega
  · by_cases gone : stripped h.name strip = true
    · rw [if_pos (Or.inl gone), betaLines_gone gone]
      exact first
    · have kept : stripped h.name strip = false := Bool.eq_false_of_not_eq_true gone
      have grown := betaLines_append strip hs h
      rw [if_pos (And.intro field kept)] at grown
      rw [grown, List.map_append, List.head?_append]
      cases lines : betaLines strip hs with
      | nil =>
          rw [lines] at count
          rw [if_neg (by simp [gone, count])]
          simp [count]
      | cons b bs =>
          rw [lines] at count first
          rw [List.length_cons] at count
          have some : f.anthropicBetas ≠ 0 := by omega
          simp only [List.map_cons, List.head?_cons, Option.some_or, Option.getD_some] at first ⊢
          split
          · exact first
          · exact first

/-- Every header is read into the facts. -/
theorem FactsOf.next
    {strip : List Bytes} {hs : List HeaderLine} {f : HeadFacts} (facts : FactsOf strip hs f)
    (h : HeaderLine) : FactsOf strip (hs ++ [h]) (headReader strip f h) := by
  unfold headReader
  cases field : h.field with
  | contentLength => exact facts.length field
  | connection => exact facts.connect field
  | anthropicBeta => exact facts.betaLine field
  | contentType =>
      apply facts.other (by rw [field]; decide)
      dsimp only
      split <;> exact ⟨rfl, rfl, rfl, rfl, rfl⟩
  | expect =>
      apply facts.other (by rw [field]; decide)
      dsimp only
      split <;> exact ⟨rfl, rfl, rfl, rfl, rfl⟩
  | other =>
      apply facts.other (by rw [field]; decide)
      dsimp only
      split <;> exact ⟨rfl, rfl, rfl, rfl, rfl⟩
  | _ =>
      apply facts.other (by rw [field]; decide)
      exact ⟨rfl, rfl, rfl, rfl, rfl⟩

/-- So are all of them. -/
theorem FactsOf.all
    {strip : List Bytes} {hs more : List HeaderLine} {f : HeadFacts}
    (facts : FactsOf strip hs f) :
    FactsOf strip (hs ++ more) (more.foldl (headReader strip) f) := by
  induction more generalizing hs f with
  | nil =>
      rw [List.append_nil]
      exact facts
  | cons h more inductionHypothesis =>
      have others := inductionHypothesis (facts.next h)
      rw [List.append_assoc] at others
      exact others

end Forward
end Llmbridge
