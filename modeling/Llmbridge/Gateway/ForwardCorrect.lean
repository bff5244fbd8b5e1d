import Llmbridge.Gateway.Configuration
import Llmbridge.Gateway.ForwardCopy
import Llmbridge.Net.HeaderLists

/-!
# The forwarded request

A request that `build_forward` writes holds the venue's own lines and then the
client's, less those that are this hop's, a credential's or the tenant's.
-/

namespace Llmbridge
namespace Forward

open Rfc8259 (Byte Bytes ascii substr Located)
open Http1 (find crlf Clean join)
open Http
open Provider (Venue pathModelOk vertexProjectOk geminiForwardTarget)

/-! ## Accepted heads -/

/-- A head that `parse_request` accepts, and what `HeadReader` holds behind it. -/
structure AcceptedHead (strip : List Bytes) (msg : Bytes) (headerLen : Nat) (f : HeadFacts)
    (start : Bytes) (lines : List Bytes) : Prop where
  head : msg.take (headerLen - 4) = join start lines
  clean : ∀ line ∈ start :: lines, Clean line
  fields : AllFields lines
  uncoded : ∀ line ∈ lines, classify (nameOf line) ≠ .transferEncoding
  facts : FactsOf strip (headerLines (start.length + 2) lines) f
  located : ∀ h ∈ headerLines (start.length + 2) lines, Located msg h.valueAt h.value

/-- What the visitor of an accepted head has seen. -/
theorem requestHead_visited
    {α : Type} {also : α → HeaderLine → α × Bool} {head : Bytes} {out : Message} {a : α}
    (ok : (requestHead also head out a).1 = true) :
    (requestHead also head out a).2.1.headerLen = out.headerLen ∧
    ∃ start lines, head = join start lines ∧ (∀ line ∈ start :: lines, Clean line) ∧
      AllFields lines ∧ (∀ line ∈ lines, classify (nameOf line) ≠ .transferEncoding) ∧
      visitLines also a (start.length + 2) lines =
        (true, (requestHead also head out a).2.2) := by
  obtain ⟨-, start, lines, w, split, clean, visited, -, result⟩ := requestHead_walked ok
  have through := congrArg Prod.fst visited
  have read := visitLines_request through
  have seen := visitLines_also through
  rw [visited] at read seen
  rw [result]
  refine ⟨read.headerLen, start, lines, split, clean, read.fields, ?_, seen⟩
  intro line member
  obtain ⟨name, value, isField⟩ := read.fields line member
  rw [isField.nameOf]
  exact read.coded line member name value isField

/-- The head's reader takes every header. -/
theorem headReader_total (strip : List Bytes) (f : HeadFacts) (h : HeaderLine) :
    readHead strip f h = (headReader strip f h, true) :=
  rfl

/-- An accepted head with its facts. -/
theorem accepted_head
    {strip : List Bytes} {msg : Bytes} {n : Nat} (found : find (crlf ++ crlf) msg = some n)
    (accepted : (parseRequestWith (readHead strip) msg {} {}).1 ≠ .error) :
    (parseRequestWith (readHead strip) msg {} {}).2.1.headerLen = n + 4 ∧
    ∃ start lines, AcceptedHead strip msg
      (parseRequestWith (readHead strip) msg {} {}).2.1.headerLen
      (parseRequestWith (readHead strip) msg {} {}).2.2 start lines := by
  unfold parseRequestWith at accepted ⊢
  rw [found] at accepted ⊢
  dsimp only at accepted ⊢
  have visited := @requestHead_visited _ (readHead strip) (msg.take n)
    { headerLen := n + 4 } {}
  generalize requestHead (readHead strip) (msg.take n) { headerLen := n + 4 } {} = verdict
    at accepted visited ⊢
  obtain ⟨ok, out, f⟩ := verdict
  cases ok with
  | false => exact absurd rfl accepted
  | true =>
      obtain ⟨headerLen, start, lines, head, clean, fields, uncoded, seen⟩ := visited rfl
      dsimp only at headerLen seen ⊢
      have less : out.headerLen - 4 = n := by
        rw [headerLen]
        rfl
      rw [visitLines_fold (headReader_total strip) fields, Prod.mk.injEq] at seen
      have facts := @FactsOf.all _ _ (headerLines (start.length + 2) lines) _ (factsOf_nil strip)
      rw [List.nil_append, seen.2] at facts
      refine ⟨headerLen, start, lines, by rw [less, head], clean, fields, uncoded, facts, ?_⟩
      apply headerLines_located fields
      obtain ⟨rest, behind⟩ := Http1.find_some found
      have whole : msg = start ++ crlf ++ ended lines ++ (crlf ++ rest) := by
        rw [← List.take_append_drop n msg, head, behind, ← ended_cons, ← join_ended,
          List.append_assoc, List.append_assoc]
      refine ⟨crlf ++ rest, ?_⟩
      have size : (start ++ crlf).length = start.length + 2 := List.length_append
      rw [whole, List.append_assoc, ← size, List.drop_left]

/-! ## The facts of an accepted head -/

/-- The values of the lines that pass a test on field and name. -/
theorem headerLines_values (p : Field → Bytes → Bool) (lines : List Bytes) («at» : Nat) :
    ((headerLines «at» lines).filter fun h => p h.field h.name).map HeaderLine.value =
      (lines.filter fun line => p (classify (nameOf line)) (nameOf line)).map valueOf := by
  induction lines generalizing «at» with
  | nil => rfl
  | cons line lines inductionHypothesis =>
      have others := inductionHypothesis («at» + line.length + 2)
      unfold headerLines
      rw [List.filter_cons, List.filter_cons]
      dsimp only
      split
      · rw [List.map_cons, List.map_cons, others]
      · exact others

/-- The lines of a field. -/
def linesOf (f : Field) (lines : List Bytes) : List Bytes :=
  lines.filter fun line => classify (nameOf line) = f

/-- The client's Connection headers name the header. -/
def connectionNames (lines : List Bytes) (name : Bytes) : Bool :=
  (linesOf .connection lines).any fun line => hasToken (valueOf line) name

/-- The anthropic-beta lines that are not stripped. -/
def betaLinesOf (strip : List Bytes) (lines : List Bytes) : List Bytes :=
  lines.filter fun line => classify (nameOf line) = .anthropicBeta && !stripped (nameOf line) strip

section Accepted

variable {strip : List Bytes} {msg : Bytes} {headerLen : Nat} {f : HeadFacts} {start : Bytes}
  {lines : List Bytes} (accepted : AcceptedHead strip msg headerLen f start lines)
include accepted

/-- The flag of the length says whether the client stated one. -/
theorem AcceptedHead.contentLength :
    f.contentLength = !(linesOf .contentLength lines).isEmpty := by
  have values := headerLines_values (fun field _ => field = .contentLength) lines
    (start.length + 2)
  have empty := congrArg List.isEmpty values
  rw [List.isEmpty_map, List.isEmpty_map] at empty
  rw [accepted.facts.contentLength]
  exact congrArg (fun b => !b) empty

/-- The values that spans of lines stand for. -/
theorem AcceptedHead.values (p : Field → Bytes → Bool) :
    ((((headerLines (start.length + 2) lines).filter fun h => p h.field h.name).map
        valueSpan).map fun s => s.in msg) =
      (lines.filter fun line => p (classify (nameOf line)) (nameOf line)).map valueOf := by
  rw [← headerLines_values p lines (start.length + 2), List.map_map]
  apply List.map_congr_left
  intro h member
  exact valueSpan_in (accepted.located h (List.mem_of_mem_filter member))

/-- The trimmed values that spans of lines stand for. -/
theorem AcceptedHead.trimmed (p : Field → Bytes → Bool) :
    ((((headerLines (start.length + 2) lines).filter fun h => p h.field h.name).map
        trimmedSpan).map fun s => s.in msg) =
      (lines.filter fun line => p (classify (nameOf line)) (nameOf line)).map
        fun line => trimOws (valueOf line) := by
  have same := congrArg (List.map trimOws) (headerLines_values p lines (start.length + 2))
  rw [List.map_map, List.map_map] at same
  rw [List.map_map]
  apply Eq.trans ?_ same
  apply List.map_congr_left
  intro h member
  exact trimmedSpan_in (accepted.located h (List.mem_of_mem_filter member))

/-- `listed` asks the client's Connection headers, all of them. -/
theorem AcceptedHead.listed (few : f.connections ≤ kConnections) (name : Bytes) :
    listedIn msg f name = connectionNames lines name := by
  have count := accepted.facts.connections
  have values := accepted.values fun field _ => field = .connection
  have all : (ofField .connection (headerLines (start.length + 2) lines)).length ≤
      kConnections := by omega
  unfold listedIn connectionNames
  rw [accepted.facts.connection, List.take_of_length_le (by rw [List.length_map]; exact all)]
  have same := congrArg (fun vs => List.any vs fun v => hasToken v name) values
  rw [List.any_map, List.any_map, List.any_map] at same
  rw [List.any_map]
  exact same

/-- The client's beta list, when its head holds one line of it at most. -/
theorem AcceptedHead.beta (few : f.anthropicBetas ≤ 1) :
    (betaLinesOf strip lines = [] ∧ f.anthropicBeta.in msg = []) ∨
    ∃ line, betaLinesOf strip lines = [line] ∧
      f.anthropicBeta.in msg = trimOws (valueOf line) := by
  have count := accepted.facts.betas
  have trimmed := accepted.trimmed fun field name =>
    field = .anthropicBeta && !stripped name strip
  have sizes := congrArg List.length trimmed
  rw [List.length_map, List.length_map, List.length_map] at sizes
  have spans : betaLines strip (headerLines (start.length + 2) lines) =
      (headerLines (start.length + 2) lines).filter fun h =>
        h.field = .anthropicBeta && !stripped h.name strip := by
    unfold betaLines ofField
    rw [List.filter_filter]
    apply List.filter_congr
    intro h _
    exact Bool.and_comm _ _
  rw [← spans] at trimmed sizes
  rw [accepted.facts.beta]
  unfold betaLinesOf
  cases shape : betaLines strip (headerLines (start.length + 2) lines) with
  | nil =>
      rw [shape] at sizes
      refine Or.inl ⟨List.length_eq_zero_iff.mp sizes.symm, ?_⟩
      unfold Span.in
      exact substr_nothing msg 0
  | cons h hs =>
      rw [shape] at sizes count trimmed
      rw [List.length_cons] at sizes count
      have single : hs = [] := by
        rw [← List.length_eq_zero_iff]
        omega
      subst single
      obtain ⟨line, only⟩ := List.length_eq_one_iff.mp sizes.symm
      rw [only] at trimmed
      rw [only]
      refine Or.inr ⟨line, rfl, ?_⟩
      exact List.singleton_inj.mp trimmed

end Accepted

/-! ## The lines written up front -/

/-- The Host line. -/
def hostLines (hostHdr : Bytes) : List Bytes :=
  if hostHdr.isEmpty then [] else [ascii "Host: " ++ hostHdr]

/-- The Content-Length line. -/
def lengthLines (stated : Bool) (declared : Nat) : List Bytes :=
  if stated ∨ declared ≠ 0 then [contentLengthLine declared] else []

/-- The credential line. -/
def keyLines (key : NamedKey) : List Bytes :=
  if key.isEmpty then [] else [key.line ++ key.value]

/-- The anthropic-beta line. -/
def tokenLines (clientBeta token : Bytes) : List Bytes :=
  if token.isEmpty then []
  else [ascii "anthropic-beta: " ++ clientBeta ++
    (if clientBeta.isEmpty then [] else ascii ",") ++ token]

/-- The venue's own lines. -/
def added (hostHdr : Bytes) (stated : Bool) (declared : Nat) (key : NamedKey)
    (clientBeta token : Bytes) : List Bytes :=
  hostLines hostHdr ++ lengthLines stated declared ++ keyLines key ++ tokenLines clientBeta token

section Written

variable (into : Bytes)

/-- The Host that `build_forward` writes. -/
theorem hostLines_written (hostHdr : Bytes) :
    (if hostHdr.isEmpty then into else into ++ ascii "Host: " ++ hostHdr ++ crlf) =
      into ++ ended (hostLines hostHdr) := by
  unfold hostLines
  split <;> simp

/-- The length that it writes. -/
theorem lengthLines_written (stated : Bool) (declared : Nat) :
    (if stated ∨ declared ≠ 0 then into ++ contentLengthLine declared ++ crlf else into) =
      into ++ ended (lengthLines stated declared) := by
  unfold lengthLines
  split <;> simp

/-- The credential that it writes. -/
theorem keyLines_written (key : NamedKey) :
    (if key.isEmpty then into else into ++ key.line ++ key.value ++ crlf) =
      into ++ ended (keyLines key) := by
  unfold keyLines
  split <;> simp

/-- The beta line that it writes. -/
theorem tokenLines_written (clientBeta token : Bytes) :
    (if !token.isEmpty then
      into ++ ascii "anthropic-beta: " ++ clientBeta ++
        (if clientBeta.isEmpty then [] else ascii ",") ++ token ++ crlf else into) =
      into ++ ended (tokenLines clientBeta token) := by
  unfold tokenLines
  cases token.isEmpty <;> simp

/-- All that it writes before the client's lines. -/
theorem added_written (hostHdr : Bytes) (stated : Bool) (declared : Nat) (key : NamedKey)
    (clientBeta token : Bytes) :
    into ++ ended (hostLines hostHdr) ++ ended (lengthLines stated declared) ++
        ended (keyLines key) ++ ended (tokenLines clientBeta token) =
      into ++ ended (added hostHdr stated declared key clientBeta token) := by
  unfold added
  rw [ended_append, ended_append, ended_append]
  simp only [List.append_assoc]

end Written

/-! ## The shape of the request -/

/-- The version a request is forwarded with. -/
def forwardVersion (version : Bytes) : Bytes :=
  if version = ascii "HTTP/1.0" then ascii "HTTP/1.1" else version

/-- The target behind the base path, when the venue takes one. -/
def forwardTarget (target pathModel : Bytes) (venue : Venue) (vertexProject : Bytes) :
    Option Bytes :=
  if (Provider.spec venue).wire ≠ .gemini then some target
  else geminiForwardTarget target pathModel venue (if venue = .vertex then vertexProject else [])

/-- The request line written for a client's. -/
structure RequestLine (start basePath pathModel : Bytes) (venue : Venue) (vertexProject : Bytes)
    (written : Bytes) : Prop where
  model : pathModel ≠ [] → pathModelOk pathModel = true
  project : vertexProject ≠ [] → vertexProjectOk vertexProject = true
  parts : ∃ method target version forwarded,
    originForm start = some (method, target, version) ∧
      forwardTarget target pathModel venue vertexProject = some forwarded ∧
      written = method ++ basePath ++ forwarded ++ ascii " " ++ forwardVersion version

/-- `head` of `build_forward`. -/
def headOf (msg : Bytes) (headerLen : Nat) : Bytes :=
  msg.take (headerLen - 4)

/-- `eol` of `build_forward`: where the request line ends. -/
def lineEndOf (head : Bytes) : Nat :=
  (find crlf head).getD head.length

/-- What a head went through that `build_forward` does not refuse. -/
structure Forwarded (msg : Bytes) (headerLen : Nat) (f : HeadFacts) (strip : List Bytes)
    (hostHdr basePath : Bytes) (declared : Nat) (key : NamedKey) (beta pathModel : Bytes)
    (venue : Venue) (vertexProject clientBeta token method target version forwarded : Bytes)
    (c : Copy) : Prop where
  few : f.connections ≤ kConnections
  beta : betaOf msg f beta (listedIn msg f) = .ok (clientBeta, token)
  form : originForm ((headOf msg headerLen).take (lineEndOf (headOf msg headerLen))) =
    some (method, target, version)
  path : targetPathOk target = true
  model : pathModel ≠ [] → pathModelOk pathModel = true
  project : vertexProject ≠ [] → vertexProjectOk vertexProject = true
  place : forwardTarget target pathModel venue vertexProject = some forwarded
  walk : walkHeaders
    (copyLine (headOf msg headerLen)
      ⟨hostHdr, strip, !key.isEmpty, !token.isEmpty, listedIn msg f⟩) (headOf msg headerLen)
    ⟨method ++ basePath ++ forwarded ++ ascii " " ++ forwardVersion version ++ crlf ++
        ended (added hostHdr f.contentLength declared key clientBeta token),
      lineEndOf (headOf msg headerLen) + 2⟩ = (true, c)

/-- `build_forward` refuses with `into` empty, or closes what it copied. -/
theorem buildForward_cases (msg : Bytes) (headerLen : Nat) (f : HeadFacts) (strip : List Bytes)
    (hostHdr basePath body : Bytes) (declared : Nat) (key : NamedKey) (beta pathModel : Bytes)
    (venue : Venue) (vertexProject : Bytes) :
    (∃ why, buildForward msg headerLen f strip hostHdr basePath body declared key beta pathModel
      venue vertexProject = (some why, [])) ∨
    ∃ clientBeta token method target version forwarded c,
      Forwarded msg headerLen f strip hostHdr basePath declared key beta pathModel venue
        vertexProject clientBeta token method target version forwarded c ∧
      buildForward msg headerLen f strip hostHdr basePath body declared key beta pathModel
        venue vertexProject =
        (none, (if c.run < (headOf msg headerLen).length then
          c.into ++ (headOf msg headerLen).drop c.run ++ crlf else c.into) ++ crlf ++ body) := by
  unfold buildForward
  dsimp only
  by_cases many : kConnections < f.connections
  · rw [if_pos many]
    exact Or.inl ⟨_, rfl⟩
  rw [if_neg many]
  cases joined : betaOf msg f beta (listedIn msg f) with
  | error why => exact Or.inl ⟨_, rfl⟩
  | ok both =>
      obtain ⟨clientBeta, token⟩ := both
      dsimp only
      have sameLine : (msg.take (headerLen - 4)).take
            ((find crlf (msg.take (headerLen - 4))).getD (msg.take (headerLen - 4)).length) =
          (headOf msg headerLen).take (lineEndOf (headOf msg headerLen)) := rfl
      rw [sameLine]
      cases form : originForm ((headOf msg headerLen).take (lineEndOf (headOf msg headerLen))) with
      | none => exact Or.inl ⟨_, rfl⟩
      | some three =>
          obtain ⟨method, target, version⟩ := three
          dsimp only
          by_cases badTarget : targetPathOk target = false
          · rw [if_pos badTarget]
            exact Or.inl ⟨_, rfl⟩
          rw [if_neg badTarget]
          by_cases badModel : pathModel ≠ [] ∧ pathModelOk pathModel = false
          · rw [if_pos badModel]
            exact Or.inl ⟨_, rfl⟩
          rw [if_neg badModel]
          by_cases badProject : vertexProject ≠ [] ∧ vertexProjectOk vertexProject = false
          · rw [if_pos badProject]
            exact Or.inl ⟨_, rfl⟩
          rw [if_neg badProject]
          have forward : (if (Provider.spec venue).wire ≠ .gemini then some target
              else geminiForwardTarget target pathModel venue
                (if venue = .vertex then vertexProject else [])) =
              forwardTarget target pathModel venue vertexProject := rfl
          rw [forward]
          cases place : forwardTarget target pathModel venue vertexProject with
          | none => exact Or.inl ⟨_, rfl⟩
          | some forwarded =>
              dsimp only
              rw [hostLines_written, lengthLines_written, keyLines_written,
                tokenLines_written, added_written]
              have sameWalk : walkHeaders
                  (copyLine (msg.take (headerLen - 4))
                    ⟨hostHdr, strip, !key.isEmpty, !token.isEmpty, listedIn msg f⟩)
                  (msg.take (headerLen - 4))
                  ⟨[] ++ method ++ basePath ++ forwarded ++ ascii " " ++
                      (if version = ascii "HTTP/1.0" then ascii "HTTP/1.1" else version) ++ crlf ++
                      ended (added hostHdr f.contentLength declared key clientBeta token),
                    (find crlf (msg.take (headerLen - 4))).getD
                      (msg.take (headerLen - 4)).length + 2⟩ =
                walkHeaders
                  (copyLine (headOf msg headerLen)
                    ⟨hostHdr, strip, !key.isEmpty, !token.isEmpty, listedIn msg f⟩)
                  (headOf msg headerLen)
                  ⟨method ++ basePath ++ forwarded ++ ascii " " ++ forwardVersion version ++ crlf ++
                      ended (added hostHdr f.contentLength declared key clientBeta token),
                    lineEndOf (headOf msg headerLen) + 2⟩ := rfl
              rw [sameWalk]
              rcases walk : walkHeaders _ (headOf msg headerLen) _ with ⟨ok, c⟩
              cases ok with
              | false => exact Or.inl ⟨_, rfl⟩
              | true =>
                  refine Or.inr ⟨clientBeta, token, method, target, version, forwarded, c, ?_, rfl⟩
                  exact
                    { few := Nat.le_of_not_lt many
                      beta := joined
                      form := form
                      path := Bool.eq_true_of_not_eq_false badTarget
                      model := fun given =>
                        Bool.eq_true_of_not_eq_false fun bad => badModel ⟨given, bad⟩
                      project := fun given =>
                        Bool.eq_true_of_not_eq_false fun bad => badProject ⟨given, bad⟩
                      place := place
                      walk := walk }

/-- `build_forward` leaves `into` empty or writes a request of lines. -/
theorem buildForward_shape
    {strip : List Bytes} {msg : Bytes} {headerLen : Nat} {f : HeadFacts} {start : Bytes}
    {lines : List Bytes} (accepted : AcceptedHead strip msg headerLen f start lines)
    (hostHdr basePath body : Bytes) (declared : Nat) (key : NamedKey) (beta pathModel : Bytes)
    (venue : Venue) (vertexProject : Bytes) {result : Option String × Bytes}
    (built : buildForward msg headerLen f strip hostHdr basePath body declared key beta pathModel
      venue vertexProject = result) :
    (result.1 ≠ none → result.2 = []) ∧
    (result.1 = none → f.connections ≤ kConnections ∧
      ∃ clientBeta token written,
        betaOf msg f beta (listedIn msg f) = .ok (clientBeta, token) ∧
        RequestLine start basePath pathModel venue vertexProject written ∧
        result.2 = join written
          (added hostHdr f.contentLength declared key clientBeta token ++
            lines.filter (Drops.keeps ⟨hostHdr, strip, !key.isEmpty, !token.isEmpty,
              listedIn msg f⟩)) ++ crlf ++ crlf ++ body) := by
  subst built
  rcases buildForward_cases msg headerLen f strip hostHdr basePath body declared key beta
    pathModel venue vertexProject with
    ⟨why, refused⟩ | ⟨clientBeta, token, method, target, version, forwarded, c, through, built⟩
  · rw [refused]
    exact ⟨fun _ => rfl, fun none => by cases none⟩
  · rw [built]
    refine ⟨fun some => absurd rfl some, fun _ => ⟨through.few, clientBeta, token,
      method ++ basePath ++ forwarded ++ ascii " " ++ forwardVersion version, through.beta,
      ⟨through.model, through.project, method, target, version, forwarded, ?_, through.place,
        rfl⟩, ?_⟩⟩
    · have form := through.form
      have cleanStart := accepted.clean start List.mem_cons_self
      rw [headOf, accepted.head, lineEndOf, eol_join cleanStart, join, List.take_left] at form
      exact form
    · obtain ⟨c', walked, closed⟩ := walkHeaders_copy accepted.clean accepted.fields
        ⟨hostHdr, strip, !key.isEmpty, !token.isEmpty, listedIn msg f⟩
        (method ++ basePath ++ forwarded ++ ascii " " ++ forwardVersion version ++ crlf ++
          ended (added hostHdr f.contentLength declared key clientBeta token))
      have walk := through.walk
      rw [headOf, accepted.head, lineEndOf, eol_join (accepted.clean start List.mem_cons_self),
        walked, Prod.mk.injEq] at walk
      obtain ⟨-, rfl⟩ := walk
      rw [headOf, accepted.head, closed, join_ended, ended_cons, ended_append]
      simp only [List.append_assoc]

/-! ## The request line -/

/-- A part of a clean text is clean. -/
theorem Clean.mono {part whole : Bytes} (clean : Clean whole) (inside : ∀ c ∈ part, c ∈ whole) :
    Clean part :=
  fun c member => clean c (inside c member)

/-- The parts of a clean request line are clean. -/
theorem originForm_clean {start method target version : Bytes} (clean : Clean start)
    (form : originForm start = some (method, target, version)) :
    Clean method ∧ Clean target ∧ Clean version := by
  unfold originForm at form
  split at form
  · cases form
  · split at form
    · cases form
    · split at form
      · cases form
      · rw [Option.some.injEq, Prod.mk.injEq, Prod.mk.injEq] at form
        obtain ⟨rfl, rfl, rfl⟩ := form
        refine ⟨Clean.mono clean fun c => List.mem_of_mem_take, Clean.mono clean ?_,
          Clean.mono clean fun c => List.mem_of_mem_drop⟩
        exact fun c member => List.mem_of_mem_drop (List.mem_of_mem_take member)

/-- A model that is allowed in a path is clean. -/
theorem pathModel_clean {m : Bytes} (ok : m ≠ [] → pathModelOk m = true) : Clean m := by
  by_cases some : m = []
  · subst some
    exact Clean.nil
  · have holds := ok some
    unfold pathModelOk at holds
    rw [Bool.and_eq_true] at holds
    exact clean_of_all (by decide) (by decide) holds.2

/-- So is a project that is allowed in one. -/
theorem vertexProject_clean {p : Bytes} (ok : p ≠ [] → vertexProjectOk p = true) : Clean p := by
  by_cases some : p = []
  · subst some
    exact Clean.nil
  · have holds := ok some
    unfold vertexProjectOk at holds
    split at holds
    · cases holds
    · dsimp only at holds
      split at holds
      · cases holds
      · split at holds
        · cases holds
        · refine clean_of_all ?_ ?_ holds
          · split <;> decide
          · split <;> decide

/-- A target rebuilt of clean parts is clean. -/
theorem geminiForwardTarget_clean
    {target model project forwarded : Bytes} {venue : Venue} (cleanTarget : Clean target)
    (cleanModel : Clean model) (cleanProject : Clean project)
    (some : geminiForwardTarget target model venue project = some forwarded) :
    Clean forwarded := by
  unfold geminiForwardTarget at some
  split at some
  · cases some
  · dsimp only at some
    have path : ∀ c ∈ (Provider.geminiPathModel target).model, c ∈ target := by
      unfold Provider.geminiPathModel
      dsimp only
      split
      · exact List.forall_mem_nil _
      · split
        · exact List.forall_mem_nil _
        · intro c member
          have inPath := List.mem_of_mem_drop (List.mem_of_mem_take member)
          exact (List.takeWhile_prefix _).subset inPath
    generalize Provider.geminiPathModel target = pm at some path
    cases place : pm.at with
    | none =>
        simp only [place] at some
        split at some
        · cases some
        · cases some
          exact cleanTarget
    | some «at» =>
        simp only [place] at some
        rw [Option.some.injEq] at some
        subst some
        have front : Clean (target.take «at») :=
          Clean.mono cleanTarget fun c => List.mem_of_mem_take
        have back : Clean (target.drop («at» + pm.model.length)) :=
          Clean.mono cleanTarget fun c => List.mem_of_mem_drop
        apply Clean.append (Clean.append _ _) back
        · split
          · apply Clean.append (Clean.append (Clean.append (Clean.append _ (by decide))
              cleanProject) (by decide)) (by decide)
            split
            · exact Clean.mono front fun c => List.mem_of_mem_take
            · decide
          · split
            · decide
            · split
              · decide
              · exact front
        · split
          · exact Clean.mono cleanTarget path
          · exact cleanModel

/-- So is the request line that is written. -/
theorem RequestLine.clean
    {start basePath pathModel vertexProject written : Bytes} {venue : Venue}
    (line : RequestLine start basePath pathModel venue vertexProject written)
    (cleanStart : Clean start) (cleanPath : Clean basePath) : Clean written := by
  obtain ⟨method, target, version, forwarded, form, place, rfl⟩ := line.parts
  obtain ⟨cleanMethod, cleanTarget, cleanVersion⟩ := originForm_clean cleanStart form
  have cleanForwarded : Clean forwarded := by
    unfold forwardTarget at place
    split at place
    · cases place
      exact cleanTarget
    · apply geminiForwardTarget_clean cleanTarget (pathModel_clean line.model) _ place
      split
      · exact vertexProject_clean line.project
      · exact Clean.nil
  apply Clean.append (Clean.append (Clean.append (Clean.append cleanMethod cleanPath)
    cleanForwarded) (by decide))
  unfold forwardVersion
  split
  · decide
  · exact cleanVersion

/-! ## The lines by name -/

/-- The lines of that name. -/
def linesNamed (lower : String) (lines : List Bytes) : List Bytes :=
  lines.filter fun line => sameCi (nameOf line) (ascii lower)

/-- The lines of a known name are those of its field. -/
theorem linesNamed_eq {lower : String} {f : Field} (listed : f ≠ .other)
    (names : f.names = [lower]) (lines : List Bytes) :
    linesNamed lower lines = linesOf f lines := by
  unfold linesNamed linesOf
  apply List.filter_congr
  intro line _
  exact classify_iff listed names (nameOf line)

/-- The lines of a field, part by part. -/
theorem linesOf_append (f : Field) (first second : List Bytes) :
    linesOf f (first ++ second) = linesOf f first ++ linesOf f second :=
  List.filter_append _ _

/-- A field that is dropped has no kept line. -/
theorem linesOf_kept {f : Field} {d : Drops} (dropped : ∀ name, d.drop f name = true)
    (lines : List Bytes) : linesOf f (lines.filter d.keeps) = [] := by
  unfold linesOf
  rw [List.filter_filter, List.filter_eq_nil_iff]
  intro line _ both
  rw [Bool.and_eq_true, decide_eq_true_iff] at both
  unfold Drops.keeps at both
  rw [both.1, dropped] at both
  cases both.2

/-- A credential's or a hop's header is not among the names a policy may use. -/
theorem notKey_of_field {name : Bytes} (field : classify name ≠ .other) :
    lineIs name kKeyHeaderPrefix = false := by
  have none : ∀ f : Field, ∀ lower ∈ f.names,
      kKeyHeaderPrefix.isPrefixOf ((ascii lower).map lc) = false := by
    intro f
    cases f <;> simp only [Field.names, List.forall_mem_cons] <;> decide
  obtain ⟨lower, listed, same⟩ := (classify_eq field).mp rfl
  have maps : name.map lc = (ascii lower).map lc := by simpa [sameCi] using same
  unfold lineIs
  rw [maps]
  exact none _ lower listed

/-! ## The added lines -/

/-- A line that is added: a header line of that field. -/
structure AddedLine (f : Field) (line : Bytes) : Prop where
  isField : ∃ name value, IsField line name value
  clean : Clean line
  field : classify (nameOf line) = f

/-- A name and a colon in front of a value are a header line. -/
theorem isField_front {front name v : Bytes} (shape : front = name ++ [0x3a, 0x20])
    (ok : lineOk front = some name.length) : IsField (front ++ v) name (0x20 :: v) := by
  have isField := isField_of_lineOk ok
  have taken : front.take name.length = name := by rw [shape, List.take_left]
  rw [taken] at isField
  refine ⟨?_, isField.some, isField.noColon, isField.front, isField.back⟩
  rw [shape, List.append_assoc]
  rfl

/-- A literal front before a clean value is a line of its field. -/
theorem addedLine_front {f : Field} {front name v : Bytes} (shape : front = name ++ [0x3a, 0x20])
    (ok : lineOk front = some name.length) (field : classify name = f) (clean : Clean front)
    (cleanValue : Clean v) : AddedLine f (front ++ v) := by
  have isField := @isField_front _ _ v shape ok
  exact ⟨⟨_, _, isField⟩, Clean.append clean cleanValue, by rw [isField.nameOf, field]⟩

/-- The Host is a line of its field. -/
theorem hostLines_added {hostHdr : Bytes} (clean : Clean hostHdr) :
    ∀ line ∈ hostLines hostHdr, AddedLine .host line := by
  unfold hostLines
  split
  · exact List.forall_mem_nil _
  · rw [List.forall_mem_singleton]
    exact @addedLine_front _ (ascii "Host: ") (ascii "Host") _ (by decide) (by decide) (by decide)
      (by decide) clean

/-- The length is a line of its field. -/
theorem lengthLines_added (stated : Bool) (declared : Nat) :
    ∀ line ∈ lengthLines stated declared, AddedLine .contentLength line := by
  unfold lengthLines
  split
  · rw [List.forall_mem_singleton]
    exact @addedLine_front _ (ascii "Content-Length: ") (ascii "Content-Length") _ (by decide)
      (by decide) (by decide) (by decide) (decimal_clean declared)
  · exact List.forall_mem_nil _

/-- The fields that carry a credential. -/
def credentialFields : List Field :=
  [.authorization, .xApiKey, .apiKey, .xGoogApiKey]

/-- The name in a credential line. -/
def keyName (venue : Venue) (bearer : Bool) : Bytes :=
  (keyLineFor venue bearer).takeWhile fun c => c != 0x3a

/-- The front of a credential is its name, a colon and a blank. -/
theorem keyLineFor_named (venue : Venue) (bearer : Bool)
    (some : (keyLineFor venue bearer).isEmpty = false) :
    (∃ rest, keyLineFor venue bearer = keyName venue bearer ++ [0x3a, 0x20] ++ rest ∧
      Clean rest) ∧
      lineOk (keyName venue bearer ++ [0x3a, 0x20]) =
        Option.some (keyName venue bearer).length ∧
      classify (keyName venue bearer) ∈ credentialFields ∧
      Clean (keyName venue bearer ++ [0x3a, 0x20]) := by
  refine ⟨⟨(keyLineFor venue bearer).drop ((keyName venue bearer).length + 2), ?_⟩, ?_⟩
  · cases venue <;> cases bearer <;> first | exact absurd some (by decide) | decide
  · cases venue <;> cases bearer <;> first | exact absurd some (by decide) | decide

/-- What `named_key` answers is a credential line. -/
theorem namedKey_added
    {head : Bytes} {f : HeadFacts} {name : Bytes} {venue : Venue} {bearer : Bool} {key : NamedKey}
    (ok : namedKey head f name venue bearer = .ok key) :
    ∃ field ∈ credentialFields, ∀ line ∈ keyLines key, AddedLine field line := by
  unfold namedKey at ok
  dsimp only at ok
  split at ok
  · cases ok
  · next usable =>
      split at ok
      · cases ok
      · split at ok
        · cases ok
        · split at ok
          · cases ok
          · split at ok
            · cases ok
            · next safe =>
                rw [Except.ok.injEq] at ok
                have clean := Bool.eq_true_of_not_eq_false safe
                unfold headerValueSafe at clean
                rw [Bool.and_eq_true] at clean
                have cleanValue := clean_of_all (by decide) (by decide) clean.2
                obtain ⟨⟨rest, line, cleanRest⟩, isName, credential, cleanName⟩ :=
                  keyLineFor_named venue bearer (Bool.eq_false_of_not_eq_true usable)
                refine ⟨classify (keyName venue bearer), credential, ?_⟩
                unfold keyLines
                rw [← ok]
                split
                · exact List.forall_mem_nil _
                · rw [List.forall_mem_singleton, line, List.append_assoc]
                  exact addedLine_front rfl isName rfl cleanName
                    (Clean.append cleanRest cleanValue)

/-- A key for the request: none, or one that `named_key` answers. -/
def KeyChecked (venue : Venue) (key : NamedKey) : Prop :=
  key.isEmpty = true ∨
    ∃ head f name bearer, namedKey head f name venue bearer = .ok key

/-- The credential is a line of a field that carries one. -/
theorem keyLines_added {venue : Venue} {key : NamedKey} (checked : KeyChecked venue key) :
    ∃ field ∈ credentialFields, ∀ line ∈ keyLines key, AddedLine field line := by
  rcases checked with none | ⟨head, f, name, bearer, ok⟩
  · refine ⟨.authorization, by decide, ?_⟩
    unfold keyLines
    rw [if_pos none]
    exact List.forall_mem_nil _
  · exact namedKey_added ok

/-- What a checked beta token is made of. -/
theorem betaToken_plain {beta : Bytes} (ok : betaTokenOk beta = true) :
    beta ≠ [] ∧ 0x2c ∉ beta ∧ (∀ c ∈ beta, isOws c = false) ∧ Clean beta := by
  unfold betaTokenOk at ok
  rw [Bool.and_eq_true, Bool.and_eq_true] at ok
  obtain ⟨⟨some, -⟩, charset⟩ := ok
  have each := List.all_eq_true.mp charset
  refine ⟨?_, ?_, ?_, clean_of_all (by decide) (by decide) charset⟩
  · rintro rfl
    cases some
  · intro comma
    have clash := each _ comma
    revert clash
    decide
  · intro c member
    rw [← Bool.not_eq_true]
    intro blank
    have here := each c member
    unfold isOws at blank
    rw [Bool.or_eq_true, beq_iff_eq, beq_iff_eq] at blank
    rcases blank with rfl | rfl
    · revert here
      decide
    · revert here
      decide

/-- The list that the token joins, and the token still to add. -/
inductive Joined (msg : Bytes) (f : HeadFacts) (beta : Bytes) (listed : Bytes → Bool) :
    Bytes → Bytes → Prop
  | none : beta = [] → Joined msg f beta listed [] []
  | named : beta ≠ [] → listed (ascii "anthropic-beta") = true → Joined msg f beta listed [] beta
  | already : beta ≠ [] → listed (ascii "anthropic-beta") = false → f.anthropicBetas ≤ 1 →
      hasToken (f.anthropicBeta.in msg) beta = true →
      Joined msg f beta listed (f.anthropicBeta.in msg) []
  | added : beta ≠ [] → f.anthropicBetas ≤ 1 →
      (f.anthropicBeta.in msg ≠ [] → headerValueSafe (f.anthropicBeta.in msg) = true) →
      Joined msg f beta listed (f.anthropicBeta.in msg) beta

/-- How the client's betas and the policy's token are joined. -/
theorem joined_of_betaOf
    {msg : Bytes} {f : HeadFacts} {beta : Bytes} {listed : Bytes → Bool} {clientBeta token : Bytes}
    (ok : betaOf msg f beta listed = .ok (clientBeta, token)) :
    Joined msg f beta listed clientBeta token := by
  unfold betaOf at ok
  split at ok
  · next wanted =>
      split at ok
      · cases ok
      · next few =>
          dsimp only at ok
          split at ok
          · cases ok
          · next usable =>
              rw [Except.ok.injEq, Prod.mk.injEq] at ok
              obtain ⟨rfl, rfl⟩ := ok
              split
              · next has =>
                  exact .already wanted.1 wanted.2 (Nat.le_of_not_lt few) has
              · refine .added wanted.1 (Nat.le_of_not_lt few) ?_
                intro some
                exact Bool.eq_true_of_not_eq_false fun bad => usable ⟨some, bad⟩
  · next unwanted =>
      rw [Except.ok.injEq, Prod.mk.injEq] at ok
      obtain ⟨rfl, rfl⟩ := ok
      by_cases some : beta = []
      · subst some
        exact .none rfl
      · apply Joined.named some
        exact Bool.eq_true_of_not_eq_false fun absent => unwanted ⟨some, absent⟩

/-- The beta line is one of its field, and lists the token. -/
theorem tokenLines_added
    {msg : Bytes} {f : HeadFacts} {beta : Bytes} {listed : Bytes → Bool} {clientBeta token : Bytes}
    (joined : Joined msg f beta listed clientBeta token) (checked : beta ≠ [] → betaTokenOk beta) :
    ∀ line ∈ tokenLines clientBeta token,
      AddedLine .anthropicBeta line ∧ hasToken (valueOf line) beta = true := by
  have written : ∀ client : Bytes, Clean client → beta ≠ [] →
      ∀ line ∈ tokenLines client beta,
        AddedLine .anthropicBeta line ∧ hasToken (valueOf line) beta = true := by
    intro client clean wanted
    obtain ⟨some, noComma, plain, cleanBeta⟩ := betaToken_plain (checked wanted)
    have value : Clean (client ++ (if client.isEmpty then [] else ascii ",") ++ beta) := by
      apply Clean.append (Clean.append clean _) cleanBeta
      split <;> decide
    unfold tokenLines
    split
    · exact List.forall_mem_nil _
    · rw [List.forall_mem_singleton, List.append_assoc, List.append_assoc]
      rw [List.append_assoc] at value
      have isField : IsField (ascii "anthropic-beta: " ++
          (client ++ ((if client.isEmpty then [] else ascii ",") ++ beta))) _ _ :=
        @isField_front _ (ascii "anthropic-beta") _ (by decide) (by decide)
      refine ⟨@addedLine_front _ _ (ascii "anthropic-beta") _ (by decide) (by decide) (by decide)
        (by decide) value, ?_⟩
      rw [isField.valueOf, hasToken_blank some (by decide)]
      cases client with
      | nil => exact hasToken_self some noComma plain
      | cons c client => exact hasToken_behind some noComma plain (c :: client)
  have nothing : ∀ client : Bytes, ∀ line ∈ tokenLines client [],
      AddedLine .anthropicBeta line ∧ hasToken (valueOf line) beta = true := by
    intro client
    exact List.forall_mem_nil _
  cases joined with
  | none empty => exact nothing []
  | named wanted listed => exact written [] Clean.nil wanted
  | already wanted absent few has => exact nothing _
  | added wanted few usable =>
      apply written _ _ wanted
      by_cases some : f.anthropicBeta.in msg = []
      · rw [some]
        exact Clean.nil
      · have safe := usable some
        unfold headerValueSafe at safe
        rw [Bool.and_eq_true] at safe
        exact clean_of_all (by decide) (by decide) safe.2

/-! ## The rebuilt head -/

/-- The names of the headers that no forwarded request carries. -/
def thisHop : List String :=
  ["transfer-encoding", "connection", "keep-alive", "proxy-connection", "te", "trailer", "upgrade",
    "expect", "accept-encoding"]

/-- The names of the headers that carry a credential. -/
def credentials : List String :=
  ["authorization", "x-api-key", "api-key", "x-goog-api-key"]

/-- Whether a line has one of these names. -/
def namedIn (names : List String) (line : Bytes) : Bool :=
  names.any fun lower => sameCi (nameOf line) (ascii lower)

/-- Whether nothing stands against forwarding a client's line. -/
def passes (strip lines : List Bytes) (hostHdr : Bytes) (key : NamedKey) (beta line : Bytes) :
    Bool :=
  !(namedIn ["host"] line && !hostHdr.isEmpty) && !namedIn ["content-length"] line &&
    !namedIn thisHop line && !(namedIn credentials line && !key.isEmpty) &&
    !(namedIn ["anthropic-beta"] line && !beta.isEmpty) &&
    !lineIs (nameOf line) kKeyHeaderPrefix && !stripped (nameOf line) strip &&
    !connectionNames lines (nameOf line)

/-- The head written for a head of these lines. -/
structure Rebuilt (strip lines : List Bytes) (hostHdr : Bytes) (declared : Nat) (key : NamedKey)
    (beta start : Bytes) (written : List Bytes) : Prop where
  walked : Http.walkHeaders (fun hs h => (hs ++ [h], true)) (join start written) [] =
    (true, headerLines (start.length + 2) written)
  host : hostHdr ≠ [] → linesNamed "host" written = [ascii "Host: " ++ hostHdr]
  length : linesNamed "content-length" written =
    if linesNamed "content-length" lines ≠ [] ∨ declared ≠ 0 then
      [ascii "Content-Length: " ++ decimal declared] else []
  lengthValue : ∀ line ∈ linesNamed "content-length" written,
    decimalValue (trimOws (valueOf line)) = declared
  hop : ∀ lower ∈ thisHop, linesNamed lower written = []
  keys : ∀ line ∈ written, lineIs (nameOf line) kKeyHeaderPrefix = false
  credential : key.isEmpty = false →
    written.filter (namedIn credentials) = [key.line ++ key.value]
  token : beta ≠ [] → ∃ line, linesNamed "anthropic-beta" written = [line] ∧
    hasToken (valueOf line) beta = true
  clients : ∃ clientBeta token kept,
    written =
      added hostHdr (linesNamed "content-length" lines ≠ []) declared key clientBeta
        token ++ kept ∧
      kept.Sublist lines ∧ ∀ line ∈ kept, stripped (nameOf line) strip = false
  others : written.filter (passes strip lines hostHdr key beta) =
    lines.filter (passes strip lines hostHdr key beta)

/-- A line has one of the names exactly when it is of one of their fields. -/
theorem namedIn_fields {names : List String} {fields : List Field}
    (listed : ∀ f ∈ fields, f ≠ .other)
    (same : names.map (fun lower => [lower]) = fields.map Field.names) (line : Bytes) :
    namedIn names line = fields.any fun f => classify (nameOf line) = f := by
  induction fields generalizing names with
  | nil =>
      cases names with
      | nil => rfl
      | cons lower names => cases same
  | cons f fields inductionHypothesis =>
      cases names with
      | nil => cases same
      | cons lower names =>
          rw [List.map_cons, List.map_cons, List.cons.injEq] at same
          have others := inductionHypothesis
            (fun g member => listed g (List.mem_cons_of_mem f member)) same.2
          unfold namedIn at others ⊢
          rw [List.any_cons, List.any_cons, others,
            classify_iff (listed f List.mem_cons_self) same.1.symm]

/-- The fields of the headers that no forwarded request carries. -/
def thisHopFields : List Field :=
  [.transferEncoding, .connection, .keepAlive, .proxyConnection, .te, .trailer, .upgrade, .expect,
    .acceptEncoding]

/-- The lines of this hop by their fields. -/
theorem namedIn_thisHop (line : Bytes) :
    namedIn thisHop line = thisHopFields.any fun f => classify (nameOf line) = f :=
  namedIn_fields (by decide) (by decide) line

/-- The credentials by their fields. -/
theorem namedIn_credentials (line : Bytes) :
    namedIn credentials line = credentialFields.any fun f => classify (nameOf line) = f :=
  namedIn_fields (by decide) (by decide) line

/-- The Host by its field. -/
theorem namedIn_host (line : Bytes) :
    namedIn ["host"] line = decide (classify (nameOf line) = .host) :=
  (@namedIn_fields _ [.host] (by decide) (by decide) line).trans (Bool.or_false _)

/-- The length by its field. -/
theorem namedIn_length (line : Bytes) :
    namedIn ["content-length"] line = decide (classify (nameOf line) = .contentLength) :=
  (@namedIn_fields _ [.contentLength] (by decide) (by decide) line).trans (Bool.or_false _)

/-- The beta line by its field. -/
theorem namedIn_beta (line : Bytes) :
    namedIn ["anthropic-beta"] line = decide (classify (nameOf line) = .anthropicBeta) :=
  (@namedIn_fields _ [.anthropicBeta] (by decide) (by decide) line).trans (Bool.or_false _)

/-- A line that passes is kept. -/
theorem keeps_of_passes
    {strip lines : List Bytes} {hostHdr : Bytes} {key : NamedKey} {beta line : Bytes} {d : Drops}
    (same : d.hostHdr = hostHdr ∧ d.strip = strip ∧ d.keyed = !key.isEmpty)
    (merge : d.merge = true → beta.isEmpty = false)
    (listed : d.listed (nameOf line) = connectionNames lines (nameOf line))
    (uncoded : classify (nameOf line) ≠ .transferEncoding)
    (free : passes strip lines hostHdr key beta line = true) : d.keeps line = true := by
  obtain ⟨rfl, rfl, keyed⟩ := same
  unfold passes at free
  rw [namedIn_host, namedIn_length, namedIn_thisHop, namedIn_credentials, namedIn_beta] at free
  unfold Drops.keeps Drops.drop
  rw [keyed, listed]
  generalize classify (nameOf line) = field at free uncoded ⊢
  simp only [Bool.and_eq_true, Bool.not_eq_true'] at free
  obtain ⟨⟨⟨⟨⟨⟨⟨host, length⟩, hop⟩, credential⟩, isBeta⟩, keyName⟩, strips⟩, names⟩ := free
  have notHop : ∀ f ∈ thisHopFields, field ≠ f := by
    intro f member same
    exact List.any_eq_false.mp hop f member (decide_eq_true same)
  rw [keyName, strips, names]
  simp only [Bool.not_eq_true', Bool.or_eq_false_iff]
  refine ⟨⟨⟨⟨⟨⟨⟨⟨host, length⟩, ?_⟩, ?_⟩, ?_⟩, trivial⟩, ?_⟩, ?_⟩, ?_⟩
  · exact decide_eq_false (notHop .expect (by decide))
  · exact decide_eq_false (notHop .acceptEncoding (by decide))
  · cases field <;> first | rfl | exact absurd rfl (notHop _ (by decide))
  · unfold credentialFields at credential
    simp only [List.any_cons, List.any_nil, Bool.or_false, ← Bool.or_assoc] at credential
    rw [Bool.and_comm]
    exact credential
  · cases merges : d.merge with
    | false => exact Bool.and_false _
    | true =>
        rw [merge merges, Bool.not_false, Bool.and_true] at isBeta
        rw [isBeta]
        rfl
  · exact Bool.and_false _

/-- The added lines that pass a test on the field. -/
theorem added_filter
    {hostHdr : Bytes} {stated : Bool} {declared : Nat} {key : NamedKey} {clientBeta token : Bytes}
    {credential : Field} (cleanHost : Clean hostHdr)
    (keyAdded : ∀ line ∈ keyLines key, AddedLine credential line)
    (tokenAdded : ∀ line ∈ tokenLines clientBeta token, AddedLine .anthropicBeta line)
    (p : Field → Bool) :
    ((added hostHdr stated declared key clientBeta token).filter
        fun line => p (classify (nameOf line))) =
      (if p .host then hostLines hostHdr else []) ++
        (if p .contentLength then lengthLines stated declared else []) ++
        (if p credential then keyLines key else []) ++
        (if p .anthropicBeta then tokenLines clientBeta token else []) := by
  have piece : ∀ {f : Field} {lines : List Bytes}, (∀ line ∈ lines, AddedLine f line) →
      (lines.filter fun line => p (classify (nameOf line))) = if p f then lines else [] := by
    intro f lines isAdded
    split
    · next takes =>
        rw [List.filter_eq_self]
        intro line member
        rw [(isAdded line member).field]
        exact takes
    · next leaves =>
        rw [List.filter_eq_nil_iff]
        intro line member
        rw [(isAdded line member).field]
        exact leaves
  unfold added
  rw [List.filter_append, List.filter_append, List.filter_append, piece (hostLines_added cleanHost),
    piece (lengthLines_added stated declared), piece keyAdded, piece tokenAdded]

/-- A token in a list is one whatever the case of its letters. -/
theorem hasToken_congr {n m : Bytes} (same : sameCi n m = true) (list : Bytes) :
    hasToken list n = hasToken list m := by
  have maps : n.map lc = m.map lc := by simpa [sameCi] using same
  unfold hasToken sameCi
  rw [maps]

/-- A Connection line names a header whatever the case of its letters. -/
theorem connectionNames_congr {n m : Bytes} (same : sameCi n m = true) (lines : List Bytes) :
    connectionNames lines n = connectionNames lines m := by
  unfold connectionNames
  simp only [hasToken_congr same]

/-- Collecting the header lines one by one collects them all. -/
theorem foldl_collect (collected hs : List HeaderLine) :
    hs.foldl (fun seen h => seen ++ [h]) collected = collected ++ hs := by
  induction hs generalizing collected with
  | nil => rw [List.foldl_nil, List.append_nil]
  | cons h hs inductionHypothesis =>
      rw [List.foldl_cons, inductionHypothesis, List.append_assoc, List.singleton_append]

/-- The walk over clean header lines sees them all. -/
theorem walkHeaders_collect {start : Bytes} {lines : List Bytes}
    (clean : ∀ line ∈ start :: lines, Clean line) (fields : AllFields lines) :
    Http.walkHeaders (fun hs h => (hs ++ [h], true)) (join start lines) [] =
      (true, headerLines (start.length + 2) lines) := by
  rw [walkHeaders_join _ clean,
    visitLines_fold (g := fun hs h => hs ++ [h]) (fun _ _ => rfl) fields, foldl_collect,
    List.nil_append]

/-! ### The lines of a rebuilt head -/

/-- A kept line is one that nothing drops. -/
theorem drop_of_kept
    {d : Drops} {lines : List Bytes} {line : Bytes} (kept : line ∈ lines.filter d.keeps) :
    d.drop (classify (nameOf line)) (nameOf line) = false := by
  have keeps := (List.mem_filter.mp kept).2
  unfold Drops.keeps at keeps
  rw [Bool.not_eq_true'] at keeps
  exact keeps

/-- No kept line has a name of the strip list. -/
theorem stripped_of_kept
    {d : Drops} {lines : List Bytes} {line : Bytes} (kept : line ∈ lines.filter d.keeps) :
    stripped (nameOf line) d.strip = false := by
  have leaves := drop_of_kept kept
  unfold Drops.drop at leaves
  simp only [Bool.or_eq_false_iff] at leaves
  exact leaves.1.1.1.2

/-- No kept line names a policy's key. -/
theorem notKey_of_kept
    {d : Drops} {lines : List Bytes} {line : Bytes} (kept : line ∈ lines.filter d.keeps) :
    lineIs (nameOf line) kKeyHeaderPrefix = false := by
  by_cases isOther : classify (nameOf line) = .other
  · have leaves := drop_of_kept kept
    unfold Drops.drop at leaves
    simp only [Bool.or_eq_false_iff] at leaves
    have last := leaves.2
    rw [decide_eq_true isOther, Bool.true_and, Bool.or_eq_false_iff] at last
    exact last.1
  · exact notKey_of_field isOther

/-- With a key of the venue's no credential of the client's is kept. -/
theorem credentials_of_kept
    {d : Drops} (keyed : d.keyed = true) (lines : List Bytes) :
    (lines.filter d.keeps).filter
      (fun line => credentialFields.any fun g => decide (classify (nameOf line) = g)) = [] := by
  rw [List.filter_eq_nil_iff]
  intro line member isKey
  have leaves := drop_of_kept member
  unfold Drops.drop at leaves
  simp only [Bool.or_eq_false_iff] at leaves
  have noKey := leaves.1.1.2
  unfold credentialFields at isKey
  simp only [List.any_cons, List.any_nil, Bool.or_false, ← Bool.or_assoc] at isKey
  rw [keyed, isKey] at noKey
  cases noKey

/-- No header of this hop is kept. -/
theorem linesOf_thisHop
    {d : Drops} {lines : List Bytes} {g : Field} (isHop : g ∈ thisHopFields)
    (uncoded : ∀ line ∈ lines, classify (nameOf line) ≠ .transferEncoding) :
    linesOf g (lines.filter d.keeps) = [] := by
  by_cases coded : g = .transferEncoding
  · unfold linesOf
    rw [List.filter_eq_nil_iff]
    intro line member same
    exact uncoded line (List.mem_of_mem_filter member) ((of_decide_eq_true same).trans coded)
  · apply linesOf_kept
    intro name
    cases g with
    | transferEncoding => exact absurd rfl coded
    | connection | keepAlive | proxyConnection | te | trailer | upgrade | expect
    | acceptEncoding => simp [Drops.drop, hopByHop]
    | _ => exact absurd isHop (by decide)

/-- The field of a header of this hop. -/
theorem field_of_thisHop :
    ∀ lower ∈ thisHop, ∃ g ∈ thisHopFields, g.names = [lower] := by
  decide

/-- The length a line states. -/
theorem lengthLines_value
    {stated : Bool} {declared : Nat} {line : Bytes} (member : line ∈ lengthLines stated declared) :
    decimalValue (trimOws (valueOf line)) = declared := by
  have same : line = contentLengthLine declared := by
    unfold lengthLines at member
    split at member
    · exact List.mem_singleton.mp member
    · cases member
  have isField : IsField (ascii "Content-Length: " ++ decimal declared) _ _ :=
    @isField_front _ (ascii "Content-Length") _ (by decide) (by decide)
  have digits : ∀ c ∈ decimal declared, isOws c = false := by
    intro c member
    have digit := List.all_eq_true.mp (decimal_digits declared) c member
    rw [← Bool.not_eq_true]
    intro blank
    unfold isOws at blank
    rw [Bool.or_eq_true, beq_iff_eq, beq_iff_eq] at blank
    rcases blank with rfl | rfl
    · revert digit
      decide
    · revert digit
      decide
  rw [same, contentLengthLine, isField.valueOf, trimOws_cons (by decide), trimOws_plain digits,
    decimal_value]

section Added

variable {hostHdr : Bytes} {stated : Bool} {declared : Nat} {key : NamedKey}
  {clientBeta token : Bytes} {credential : Field} (isCredential : credential ∈ credentialFields)
  (cleanHost : Clean hostHdr) (keyAdded : ∀ line ∈ keyLines key, AddedLine credential line)
  (tokenAdded : ∀ line ∈ tokenLines clientBeta token, AddedLine .anthropicBeta line)
include isCredential cleanHost keyAdded tokenAdded

/-- Every added line is a header line of a field of its own. -/
theorem added_fields :
    ∀ line ∈ added hostHdr stated declared key clientBeta token,
      ∃ field, field ≠ .other ∧ AddedLine field line := by
  intro line member
  unfold added at member
  rw [List.mem_append, List.mem_append, List.mem_append] at member
  rcases member with ((member | member) | member) | member
  · exact ⟨_, by decide, hostLines_added cleanHost line member⟩
  · exact ⟨_, by decide, lengthLines_added _ _ line member⟩
  · refine ⟨_, ?_, keyAdded line member⟩
    rintro rfl
    revert isCredential
    decide
  · exact ⟨_, by decide, tokenAdded line member⟩

/-- The lines of a field that carries no credential: the added ones before the kept. -/
theorem linesOf_rebuilt
    {g : Field} (absent : g ∉ credentialFields) (kept : List Bytes) :
    linesOf g (added hostHdr stated declared key clientBeta token ++ kept) =
      (if g = .host then hostLines hostHdr else []) ++
        (if g = .contentLength then lengthLines stated declared else []) ++
        (if g = .anthropicBeta then tokenLines clientBeta token else []) ++ linesOf g kept := by
  have other : credential ≠ g := by
    rintro rfl
    exact absent isCredential
  rw [linesOf_append]
  unfold linesOf
  rw [added_filter cleanHost keyAdded tokenAdded fun field => decide (field = g)]
  simp [other, eq_comm (a := g)]

/-- The length is the one declared. -/
theorem length_rebuilt (d : Drops) (lines : List Bytes) :
    linesNamed "content-length" (added hostHdr stated declared key clientBeta token ++
      lines.filter d.keeps) = lengthLines stated declared := by
  rw [linesNamed_eq (f := .contentLength) (by decide) rfl,
    linesOf_rebuilt isCredential cleanHost keyAdded tokenAdded (by decide),
    linesOf_kept fun name => by simp [Drops.drop]]
  simp

/-- The Host is the venue's. -/
theorem host_rebuilt
    {d : Drops} (same : d.hostHdr = hostHdr) (some : hostHdr ≠ []) (lines : List Bytes) :
    linesNamed "host" (added hostHdr stated declared key clientBeta token ++
      lines.filter d.keeps) = [ascii "Host: " ++ hostHdr] := by
  have full : hostHdr.isEmpty = false := List.isEmpty_eq_false_iff.mpr some
  rw [linesNamed_eq (f := .host) (by decide) rfl,
    linesOf_rebuilt isCredential cleanHost keyAdded tokenAdded (by decide),
    linesOf_kept fun name => by simp [Drops.drop, same, full]]
  simp [hostLines, full]

/-- No header of this hop is written. -/
theorem thisHop_rebuilt
    {d : Drops} {lines : List Bytes}
    (uncoded : ∀ line ∈ lines, classify (nameOf line) ≠ .transferEncoding) :
    ∀ lower ∈ thisHop,
      linesNamed lower (added hostHdr stated declared key clientBeta token ++
        lines.filter d.keeps) = [] := by
  intro lower member
  obtain ⟨g, isHop, names⟩ := field_of_thisHop lower member
  have listed : g ≠ .other ∧ g ∉ credentialFields ∧ g ≠ .host ∧ g ≠ .contentLength ∧
      g ≠ .anthropicBeta := by
    revert isHop
    cases g <;> decide
  obtain ⟨known, absent, notHost, notLength, notBeta⟩ := listed
  rw [linesNamed_eq known names,
    linesOf_rebuilt isCredential cleanHost keyAdded tokenAdded absent,
    linesOf_thisHop isHop uncoded, if_neg notHost, if_neg notLength, if_neg notBeta]
  rfl

/-- No written line names a policy's key. -/
theorem notKey_rebuilt
    {d : Drops} {lines : List Bytes} {line : Bytes}
    (member : line ∈ added hostHdr stated declared key clientBeta token ++
      lines.filter d.keeps) :
    lineIs (nameOf line) kKeyHeaderPrefix = false := by
  rcases List.mem_append.mp member with isAdded | kept
  · obtain ⟨field, listed, line⟩ :=
      added_fields isCredential cleanHost keyAdded tokenAdded _ isAdded
    apply notKey_of_field
    rw [line.field]
    exact listed
  · exact notKey_of_kept kept

/-- With a key of the venue's it is the one credential. -/
theorem credentials_rebuilt
    {d : Drops} (keyed : d.keyed = true) (some : key.isEmpty = false) (lines : List Bytes) :
    (added hostHdr stated declared key clientBeta token ++ lines.filter d.keeps).filter
      (namedIn credentials) = [key.line ++ key.value] := by
  have asFields : namedIn credentials =
      fun line => credentialFields.any fun g => decide (classify (nameOf line) = g) :=
    funext namedIn_credentials
  have listed : (credentialFields.any fun g => decide (credential = g)) = true :=
    List.any_eq_true.mpr ⟨credential, isCredential, decide_eq_true rfl⟩
  rw [List.filter_append, asFields, credentials_of_kept keyed,
    added_filter cleanHost keyAdded tokenAdded fun field =>
      credentialFields.any fun g => decide (field = g), listed]
  unfold keyLines
  rw [some]
  simp [credentialFields]

end Added

section Rebuild

variable {strip : List Bytes} {msg : Bytes} {headerLen : Nat} {f : HeadFacts} {start : Bytes}
  {lines : List Bytes} (accepted : AcceptedHead strip msg headerLen f start lines)
  {hostHdr beta clientBeta token : Bytes} {key : NamedKey}
  (joined : Joined msg f beta (listedIn msg f) clientBeta token)
  (few : f.connections ≤ kConnections)
include accepted joined few

/-- With a token there is one beta line, and it lists the token. -/
theorem rebuilt_token
    (checked : beta ≠ [] → betaTokenOk beta = true) (wanted : beta ≠ []) :
    ∃ line, tokenLines clientBeta token ++ linesOf .anthropicBeta (lines.filter
        (Drops.keeps ⟨hostHdr, strip, !key.isEmpty, !token.isEmpty, listedIn msg f⟩)) = [line] ∧
      hasToken (valueOf line) beta = true := by
  have writes := tokenLines_added joined checked
  have some := (betaToken_plain (checked wanted)).1
  have own : token = beta → ∃ line, tokenLines clientBeta token ++
      linesOf .anthropicBeta (lines.filter
        (Drops.keeps ⟨hostHdr, strip, !key.isEmpty, !token.isEmpty, listedIn msg f⟩)) = [line] ∧
      hasToken (valueOf line) beta = true := by
    rintro rfl
    have full : token.isEmpty = false := List.isEmpty_eq_false_iff.mpr wanted
    rw [linesOf_kept, List.append_nil]
    · unfold tokenLines at writes ⊢
      rw [full, if_neg Bool.false_ne_true] at writes ⊢
      exact ⟨_, rfl, (List.forall_mem_singleton.mp writes).2⟩
    · intro name
      unfold Drops.drop
      dsimp only
      rw [full]
      simp
  cases joined with
  | none empty => exact absurd empty wanted
  | named _ _ => exact own rfl
  | added _ _ _ => exact own rfl
  | already _ absent single has =>
      rcases accepted.beta single with ⟨-, empty⟩ | ⟨line, only, value⟩
      · rw [empty] at has
        cases has
      · rw [value, hasToken_trimOws some] at has
        refine ⟨line, ?_, has⟩
        rw [← only]
        unfold tokenLines linesOf betaLinesOf
        rw [List.isEmpty_nil, if_pos rfl, List.nil_append, List.filter_filter]
        apply List.filter_congr
        intro found _
        by_cases isBeta : classify (nameOf found) = .anthropicBeta
        · have same : sameCi (nameOf found) (ascii "anthropic-beta") = true := by
            rw [classify_iff (f := .anthropicBeta) (by decide) rfl]
            exact decide_eq_true isBeta
          have unnamed : listedIn msg f (nameOf found) = false := by
            rw [accepted.listed few, connectionNames_congr same, ← accepted.listed few]
            exact absent
          unfold Drops.keeps Drops.drop
          rw [isBeta]
          dsimp only
          rw [unnamed]
          simp [hopByHop]
        · rw [decide_eq_false isBeta]
          rfl

/-- The others are the client's, as they came. -/
theorem rebuilt_others
    {credential : Field} (isCredential : credential ∈ credentialFields) {stated : Bool}
    {declared : Nat} (cleanHost : Clean hostHdr)
    (keyAdded : ∀ line ∈ keyLines key, AddedLine credential line)
    (checked : beta ≠ [] → betaTokenOk beta = true) :
    (added hostHdr stated declared key clientBeta token ++ lines.filter
        (Drops.keeps ⟨hostHdr, strip, !key.isEmpty, !token.isEmpty, listedIn msg f⟩)).filter
      (passes strip lines hostHdr key beta) =
      lines.filter (passes strip lines hostHdr key beta) := by
  have merge : (!token.isEmpty) = true → beta.isEmpty = false := by
    intro some
    cases joined with
    | none _ => cases some
    | already wanted _ _ _ => exact List.isEmpty_eq_false_iff.mpr wanted
    | named wanted _ => exact List.isEmpty_eq_false_iff.mpr wanted
    | added wanted _ _ => exact List.isEmpty_eq_false_iff.mpr wanted
  rw [List.filter_append]
  have none : (added hostHdr stated declared key clientBeta token).filter
      (passes strip lines hostHdr key beta) = [] := by
    rw [List.filter_eq_nil_iff]
    intro line member
    unfold added at member
    rw [List.mem_append, List.mem_append, List.mem_append] at member
    unfold passes
    rw [namedIn_host, namedIn_length, namedIn_credentials, namedIn_beta]
    rcases member with ((member | member) | member) | member
    · rw [(hostLines_added cleanHost line member).field]
      unfold hostLines at member
      split at member
      · cases member
      · next some => simp [some]
    · rw [(lengthLines_added stated declared line member).field]
      simp
    · rw [(keyAdded line member).field]
      have listed : (credentialFields.any fun f => decide (credential = f)) = true :=
        List.any_eq_true.mpr ⟨credential, isCredential, decide_eq_true rfl⟩
      unfold keyLines at member
      split at member
      · cases member
      · next some => simp [listed, some]
    · rw [(tokenLines_added joined checked line member).1.field]
      unfold tokenLines at member
      split at member
      · cases member
      · next some => simp [merge (by simp [some])]
  rw [none, List.nil_append, List.filter_filter]
  apply List.filter_congr
  intro line member
  cases free : passes strip lines hostHdr key beta line with
  | false => rfl
  | true =>
      exact keeps_of_passes ⟨rfl, rfl, rfl⟩ merge (accepted.listed few (nameOf line))
        (accepted.uncoded line member) free

/-- The head written behind an accepted one. -/
theorem rebuilt_of_shape
    {credential : Field} (isCredential : credential ∈ credentialFields)
    (declared : Nat) (cleanHost : Clean hostHdr)
    (keyAdded : ∀ line ∈ keyLines key, AddedLine credential line)
    (checked : beta ≠ [] → betaTokenOk beta = true) {line : Bytes} (cleanLine : Clean line) :
    Rebuilt strip lines hostHdr declared key beta line
      (added hostHdr f.contentLength declared key clientBeta token ++ lines.filter
        (Drops.keeps ⟨hostHdr, strip, !key.isEmpty, !token.isEmpty, listedIn msg f⟩)) := by
  have stated : f.contentLength = decide (linesNamed "content-length" lines ≠ []) := by
    rw [accepted.contentLength, linesNamed_eq (f := .contentLength) (by decide) rfl]
    cases linesOf .contentLength lines <;> rfl
  have tokenAdded := fun line member => (tokenLines_added joined checked line member).1
  have each := @added_fields hostHdr f.contentLength declared key clientBeta token credential
    isCredential cleanHost keyAdded tokenAdded
  have length := @length_rebuilt hostHdr f.contentLength declared key clientBeta token
    credential isCredential cleanHost keyAdded tokenAdded
  refine ⟨?_, ?_, ?_, ?_, ?_, ?_, ?_, ?_, ?_, ?_⟩
  · apply walkHeaders_collect
    · intro found member
      rcases List.mem_cons.mp member with rfl | member
      · exact cleanLine
      rcases List.mem_append.mp member with member | member
      · obtain ⟨field, -, isAdded⟩ := each found member
        exact isAdded.clean
      · exact accepted.clean found (List.mem_cons_of_mem _ (List.mem_of_mem_filter member))
    · intro found member
      rcases List.mem_append.mp member with member | member
      · obtain ⟨field, -, isAdded⟩ := each found member
        exact isAdded.isField
      · exact accepted.fields found (List.mem_of_mem_filter member)
  · exact fun some => host_rebuilt isCredential cleanHost keyAdded tokenAdded rfl some lines
  · rw [length, stated]
    unfold lengthLines contentLengthLine
    simp only [decide_eq_true_iff]
  · intro found member
    rw [length] at member
    exact lengthLines_value member
  · exact thisHop_rebuilt isCredential cleanHost keyAdded tokenAdded accepted.uncoded
  · exact fun found => notKey_rebuilt isCredential cleanHost keyAdded tokenAdded
  · intro some
    exact credentials_rebuilt isCredential cleanHost keyAdded tokenAdded (by simp [some]) some
      lines
  · intro wanted
    rw [linesNamed_eq (f := .anthropicBeta) (by decide) rfl,
      linesOf_rebuilt isCredential cleanHost keyAdded tokenAdded (by decide)]
    exact rebuilt_token accepted joined few checked wanted
  · exact ⟨clientBeta, token, _, by rw [stated], List.filter_sublist,
      fun found => stripped_of_kept⟩
  · exact rebuilt_others accepted joined few isCredential cleanHost keyAdded checked

end Rebuild

/-- A byte-forwarded request is rebuilt exactly. -/
theorem buildForward_rebuilds
    {strip : List Bytes} {msg : Bytes} {n : Nat} (found : find (crlf ++ crlf) msg = some n)
    (accepted : (parseRequestWith (readHead strip) msg {} {}).1 ≠ .error)
    {hostHdr basePath : Bytes} (cleanHost : Clean hostHdr) (cleanPath : Clean basePath)
    {venue : Venue} {key : NamedKey} (keyChecked : KeyChecked venue key) {beta : Bytes}
    (betaChecked : beta ≠ [] → betaTokenOk beta = true) (declared : Nat)
    (body pathModel vertexProject : Bytes) {result : Option String × Bytes}
    (built : buildForward msg (parseRequestWith (readHead strip) msg {} {}).2.1.headerLen
      (parseRequestWith (readHead strip) msg {} {}).2.2 strip hostHdr basePath body declared key
      beta pathModel venue vertexProject = result) :
    (result.1 ≠ none → result.2 = []) ∧
    (result.1 = none → ∃ start lines line written,
      msg.take n = join start lines ∧ (∀ found ∈ start :: lines, Clean found) ∧
      RequestLine start basePath pathModel venue vertexProject line ∧
      Rebuilt strip lines hostHdr declared key beta line written ∧
      result.2 = join line written ++ crlf ++ crlf ++ body) := by
  obtain ⟨headerLen, start, lines, head⟩ := accepted_head found accepted
  obtain ⟨refused, shape⟩ := buildForward_shape head hostHdr basePath body declared key beta
    pathModel venue vertexProject built
  refine ⟨refused, fun succeeds => ?_⟩
  obtain ⟨few, clientBeta, token, line, joined, isLine, written⟩ := shape succeeds
  obtain ⟨credential, isCredential, keyAdded⟩ := keyLines_added keyChecked
  have cleanLine := isLine.clean (head.clean start List.mem_cons_self) cleanPath
  refine ⟨start, lines, line, _, ?_, head.clean, isLine, ?_, written⟩
  · have front := head.head
    rw [headerLen, Nat.add_sub_cancel] at front
    exact front
  · exact rebuilt_of_shape head (joined_of_betaOf joined) few isCredential declared cleanHost
      keyAdded betaChecked cleanLine

/-- A request with a credential header of its own and a header that is this hop's. -/
def keyedRequest : Bytes :=
  ascii "POST /v1 HTTP/1.0\r\nHost: c\r\nX-Kottos-Key-A: k\r\n" ++
    ascii "Connection: X-L\r\nX-L: 1\r\nX-B: 2\r\n\r\n"

theorem buildForward_rebuilds_keyed :
    ∃ start lines line written,
      keyedRequest.take 78 = join start lines ∧ (∀ found ∈ start :: lines, Clean found) ∧
      RequestLine start (ascii "/base") [] .anthropic [] line ∧
      Rebuilt [] lines (ascii "venue") 2 ⟨ascii "x-api-key: ", ascii "k"⟩ (ascii "b-1") line
        written ∧
      ascii "POST /base/v1 HTTP/1.1\r\nHost: venue\r\nContent-Length: 2\r\n" ++
          ascii "x-api-key: k\r\nanthropic-beta: b-1\r\nX-B: 2\r\n\r\nxx" =
        join line written ++ crlf ++ crlf ++ ascii "xx" :=
  (@buildForward_rebuilds [] keyedRequest 78 (by decide) (by decide) (ascii "venue")
    (ascii "/base") (by decide) (by decide) .anthropic ⟨ascii "x-api-key: ", ascii "k"⟩
    (Or.inr ⟨keyedRequest, (parseRequestWith (readHead []) keyedRequest {} {}).2.2,
      ascii "x-kottos-key-a", false, by rfl⟩) (ascii "b-1") (fun _ => by decide) 2
    (ascii "xx") [] [] (none, _) (by rfl)).2 rfl

end Forward
end Llmbridge
