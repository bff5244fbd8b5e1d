import Llmbridge.Net.ParseRequest

/-!
# How a response body ends

`parse_response_head` against section 6.3 of RFC 9112: the final coding of the
combined Transfer-Encoding decides, then Content-Length.
-/

namespace Llmbridge
namespace Http

open Rfc8259 (Byte Bytes ascii isDigit substr)
open Http1 (find cr lf crlf Clean join)

/-! ## Values by name -/

/-- The name of a header line. -/
def nameOf (line : Bytes) : Bytes :=
  line.takeWhile fun c => c != 0x3a

/-- The value of a header line, untrimmed. -/
def valueOf (line : Bytes) : Bytes :=
  line.drop ((nameOf line).length + 1)

/-- The values of the lines of that name, in order. -/
def values (lower : String) (lines : List Bytes) : List Bytes :=
  (lines.filter fun line => sameCi (nameOf line) (ascii lower)).map valueOf

theorem IsField.nameOf {line name value : Bytes} (isField : IsField line name value) :
    nameOf line = name := by
  rw [Http.nameOf, isField.split, List.takeWhile_append_of_pos]
  · simp
  · intro c member
    have differs : c ≠ 0x3a := by
      rintro rfl
      exact isField.noColon member
    simpa using differs

theorem IsField.valueOf {line name value : Bytes} (isField : IsField line name value) :
    valueOf line = value := by
  rw [Http.valueOf, isField.nameOf, isField.split, ← List.drop_drop, List.drop_left,
    List.drop_one, List.tail_cons]

theorem values_cons (lower : String) (line : Bytes) (lines : List Bytes) :
    values lower (line :: lines) =
      if sameCi (nameOf line) (ascii lower) then valueOf line :: values lower lines
      else values lower lines := by
  rw [values, List.filter_cons]
  split <;> rfl

theorem classify_iff {lower : String} {f : Field} (listed : f ≠ .other)
    (names : f.names = [lower]) (name : Bytes) :
    sameCi name (ascii lower) = decide (classify name = f) := by
  rw [Bool.eq_iff_iff, decide_eq_true_iff, classify_eq listed, names]
  simp

/-! ## The walk of `parse_response_head` -/

/-- What the lines of a head do to the framing of its response. -/
structure ResponseRead (w last : ResponseWalk) (lines : List Bytes) : Prop where
  chunked : last.out.chunked =
    (w.out.chunked ||
      (values "transfer-encoding" lines).any fun v => containsCi v (ascii "chunked"))
  length : last.out.hasContentLength =
    (w.out.hasContentLength || !(values "content-length" lines).isEmpty)
  agreed : ∀ v ∈ values "content-length" lines,
    parseStrictLength v = some last.out.contentLength
  had : w.out.hasContentLength = true → last.out.contentLength = w.out.contentLength
  status : last.out.status = w.out.status
  headerLen : last.out.headerLen = w.out.headerLen

/-- What one line does. -/
structure ResponseLine (w next : ResponseWalk) (h : HeaderLine) : Prop where
  chunked : next.out.chunked = (w.out.chunked ||
    (decide (h.field = .transferEncoding) && containsCi h.value (ascii "chunked")))
  length : next.out.hasContentLength =
    (w.out.hasContentLength || decide (h.field = .contentLength))
  agreed : h.field = .contentLength → parseStrictLength h.value = some next.out.contentLength
  had : w.out.hasContentLength = true → next.out.contentLength = w.out.contentLength
  status : next.out.status = w.out.status
  headerLen : next.out.headerLen = w.out.headerLen

/-- The fields of a head that frame its body are as they were. -/
def SameFraming (out next : ResponseHead) : Prop :=
  next.chunked = out.chunked ∧ next.hasContentLength = out.hasContentLength ∧
    next.contentLength = out.contentLength ∧ next.status = out.status ∧
    next.headerLen = out.headerLen

theorem ResponseLine.other {w next : ResponseWalk} {h : HeaderLine}
    (notLength : h.field ≠ .contentLength) (notCoded : h.field ≠ .transferEncoding)
    (same : SameFraming w.out next.out) : ResponseLine w next h := by
  obtain ⟨chunked, has, length, status, headerLen⟩ := same
  exact ⟨by simp [chunked, notCoded], by simp [has, notLength], fun isLength =>
    absurd isLength notLength, fun _ => length, status, headerLen⟩

theorem quota_same (w : ResponseWalk) (v : Bytes) (q : Quota) :
    SameFraming w.out (w.quota v q).out := by
  rw [ResponseWalk.quota]
  split <;> exact ⟨rfl, rfl, rfl, rfl, rfl⟩

theorem responseLine_true {w : ResponseWalk} {h : HeaderLine}
    (ok : (responseLine w h).2 = true) : ResponseLine w (responseLine w h).1 h := by
  unfold responseLine at ok ⊢
  cases field : h.field with
  | contentLength =>
      simp only [field] at ok ⊢
      cases length : parseStrictLength h.value with
      | none => simp [length] at ok
      | some n =>
          simp only [length] at ok ⊢
          by_cases clash : w.out.hasContentLength = true ∧ n ≠ w.out.contentLength
          · rw [if_pos clash] at ok
            cases ok
          · simp only [clash, if_false]
            refine ⟨by simp [field], by simp [field], fun _ => length, fun had => ?_, rfl, rfl⟩
            by_contra differs
            exact clash ⟨had, differs⟩
  | transferEncoding =>
      exact ⟨by simp [field], by simp [field], by simp [field], fun _ => rfl, rfl, rfl⟩
  | retryAfter =>
      refine .other (by simp [field]) (by simp [field]) ?_
      cases parseStrictLength h.value <;> exact ⟨rfl, rfl, rfl, rfl, rfl⟩
  | other =>
      refine .other (by simp [field]) (by simp [field]) ?_
      dsimp only
      split_ifs
      · cases kept h <;> exact ⟨rfl, rfl, rfl, rfl, rfl⟩
      · cases kept h <;> exact ⟨rfl, rfl, rfl, rfl, rfl⟩
      · exact ⟨rfl, rfl, rfl, rfl, rfl⟩
  | requestsRemaining | inputTokensRemaining | outputTokensRemaining | tokensRemaining =>
      exact .other (by simp [field]) (by simp [field]) (quota_same w h.value _)
  | _ => exact .other (by simp [field]) (by simp [field]) ⟨rfl, rfl, rfl, rfl, rfl⟩

theorem visitLines_response {w : ResponseWalk} {«at» : Nat} {lines : List Bytes}
    (ok : (visitLines responseLine w «at» lines).1 = true) :
    ResponseRead w (visitLines responseLine w «at» lines).2 lines := by
  induction lines generalizing w «at» with
  | nil => exact ⟨by simp [values, visitLines], by simp [values, visitLines], by simp [values],
      fun _ => rfl, rfl, rfl⟩
  | cons line lines inductionHypothesis =>
      rw [visitLines_cons] at ok ⊢
      by_cases good : (visitLine responseLine w «at» line).2 = true
      · rw [if_pos good] at ok ⊢
        obtain ⟨name, value, isField, visited⟩ := visitLine_true good
        rw [visited] at good ok ⊢
        have first := responseLine_true good
        have others := inductionHypothesis ok
        have coded := classify_iff (f := .transferEncoding) (by decide) rfl name
        have sized := classify_iff (f := .contentLength) (by decide) rfl name
        generalize (responseLine w ⟨classify name, name, value, «at»⟩).1 = next at *
        generalize (visitLines responseLine next («at» + line.length + 2) lines).2 = last at *
        obtain ⟨chunked, length, agreed, had, status, headerLen⟩ := first
        dsimp only at chunked length agreed
        rw [← coded] at chunked
        refine ⟨?_, ?_, ?_, ?_, others.status.trans status, others.headerLen.trans headerLen⟩
        · rw [others.chunked, chunked, values_cons, isField.nameOf, isField.valueOf]
          cases sameCi name (ascii "transfer-encoding") <;> simp [Bool.or_assoc]
        · rw [others.length, length, values_cons, isField.nameOf, isField.valueOf, sized]
          by_cases isLength : classify name = .contentLength <;> simp [isLength]
        · rw [values_cons, isField.nameOf, isField.valueOf, sized]
          by_cases isLength : classify name = .contentLength
          · have has : next.out.hasContentLength = true := by simp [length, isLength]
            rw [decide_eq_true isLength, if_pos rfl]
            intro v member
            rcases List.mem_cons.mp member with rfl | member
            · rw [others.had has]
              exact agreed isLength
            · exact others.agreed v member
          · rw [decide_eq_false isLength, if_neg Bool.false_ne_true]
            exact others.agreed
        · intro has
          have has' : next.out.hasContentLength = true := by simp [length, has]
          exact (others.had has').trans (had has)
      · rw [if_neg good] at ok
        cases ok

/-! ## The rule -/

/-- The codings of the combined Transfer-Encoding, in order. -/
def codings (lines : List Bytes) : List Bytes :=
  ((values "transfer-encoding" lines).flatMap fun v => (v.splitOn 0x2c).map trimOws).filter
    fun coding => !coding.isEmpty

/-- The final coding is exactly `chunked`, in any case. -/
def endsChunked (lines : List Bytes) : Bool :=
  (codings lines).getLast?.any fun coding => sameCi coding (ascii "chunked")

/-- The body of a response that has one, as section 6.3 frames it. -/
structure BodyRule (out : ResponseHead) (lines : List Bytes) : Prop where
  refused : values "transfer-encoding" lines = [] ∨ values "content-length" lines = []
  chunked : out.body = .chunked ↔ endsChunked lines = true
  length : out.body = .length ↔
    values "transfer-encoding" lines = [] ∧ values "content-length" lines ≠ []
  agreed : ∀ v ∈ values "content-length" lines,
    parseStrictLength v = some out.contentLength
  otherwise : out.body ≠ .chunked → out.body ≠ .length → out.body = .untilClose

/-- The heads on which the test for the letters `chunked` gives the rule's answer. -/
def CodedPlainly (lines : List Bytes) : Prop :=
  values "transfer-encoding" lines = [] ∨ endsChunked lines = true ∨
    (values "content-length" lines = [] ∧
      ∀ v ∈ values "transfer-encoding" lines, containsCi v (ascii "chunked") = false)

/-! ## Where the letters are -/

theorem isInfix_of_mem_intercalate {sep piece : Bytes} {pieces : List Bytes}
    (member : piece ∈ pieces) : piece <:+: List.intercalate sep pieces := by
  induction pieces with
  | nil => cases member
  | cons first rest inductionHypothesis =>
      cases rest with
      | nil =>
          rw [List.mem_singleton] at member
          subst member
          simp [List.intercalate]
      | cons second rest =>
          have shape : List.intercalate sep (first :: second :: rest) =
              first ++ (sep ++ List.intercalate sep (second :: rest)) := by
            simp [List.intercalate]
          rw [shape]
          rcases List.mem_cons.mp member with rfl | member
          · exact (List.prefix_append piece _).isInfix
          · have below := inductionHypothesis member
            exact below.trans ((List.suffix_append sep _).isInfix.trans
              (List.suffix_append first _).isInfix)

theorem isInfix_of_mem_splitOn {piece list : Bytes} {c : Byte} (member : piece ∈ list.splitOn c) :
    piece <:+: list := by
  have found := @isInfix_of_mem_intercalate [c] _ _ member
  rwa [List.intercalate_splitOn] at found

theorem isInfix_trimOws (v : Bytes) : trimOws v <:+: v := by
  have back : trimOws v <+: ltrim v := List.rdropWhile_prefix isOws (ltrim v)
  exact back.isInfix.trans (List.dropWhile_suffix isOws).isInfix

theorem find_of_isInfix {needle hay : Bytes} (inside : needle <:+: hay) :
    (find needle hay).isSome = true := by
  obtain ⟨front, back, rfl⟩ := inside
  induction front with
  | nil =>
      rw [List.nil_append]
      cases needle with
      | nil => cases back <;> simp [find]
      | cons c needle =>
          rw [List.cons_append, find]
          have starts : (c :: needle).isPrefixOf (c :: (needle ++ back)) = true := by
            rw [List.isPrefixOf_iff_prefix]
            exact List.prefix_append (c :: needle) back
          rw [if_pos starts]
          rfl
  | cons c front inductionHypothesis =>
      rw [List.cons_append, List.cons_append, find]
      split
      · rfl
      · rw [Option.isSome_map]
        exact inductionHypothesis

/-- `find` tells whether the text holds the needle. -/
theorem find_isSome_iff {needle hay : Bytes} :
    (find needle hay).isSome = true ↔ needle <:+: hay := by
  constructor
  · intro found
    obtain ⟨n, place⟩ := Option.isSome_iff_exists.mp found
    obtain ⟨rest, same⟩ := Http1.find_some place
    refine ⟨hay.take n, rest, ?_⟩
    rw [List.append_assoc, ← same, List.take_append_drop]
  · exact find_of_isInfix

/-- A final coding `chunked` has its letters in some line. -/
theorem containsCi_of_endsChunked {lines : List Bytes} (ends : endsChunked lines = true) :
    ((values "transfer-encoding" lines).any fun v => containsCi v (ascii "chunked")) =
      true := by
  rw [endsChunked, Option.any_eq_true] at ends
  obtain ⟨coding, last, same⟩ := ends
  have member := List.mem_of_mem_filter (List.mem_of_getLast? last)
  rw [List.mem_flatMap] at member
  obtain ⟨v, listed, member⟩ := member
  rw [List.mem_map] at member
  obtain ⟨piece, member, rfl⟩ := member
  have inside : trimOws piece <:+: v :=
    (isInfix_trimOws piece).trans (isInfix_of_mem_splitOn member)
  have maps : (trimOws piece).map lc = (ascii "chunked").map lc := by
    simpa [sameCi] using same
  have lower : (ascii "chunked").map lc = ascii "chunked" := by decide
  rw [lower] at maps
  rw [List.any_eq_true]
  refine ⟨v, listed, ?_⟩
  have mapped := inside.map lc
  rw [maps] at mapped
  exact find_of_isInfix mapped

/-! ## The heads accepted -/

/-- An accepted head: its lines, and what they frame. -/
structure Accepted (buf : Bytes) (headRequest : Bool) (out : ResponseHead) (start : Bytes)
    (lines : List Bytes) : Prop where
  head : buf.take out.headerLen = join start lines ++ (crlf ++ crlf)
  clean : ∀ line ∈ start :: lines, Clean line
  body : out.body = bodyOf out headRequest
  chunked : out.chunked =
    (values "transfer-encoding" lines).any fun v => containsCi v (ascii "chunked")
  length : out.hasContentLength = !(values "content-length" lines).isEmpty
  agreed : ∀ v ∈ values "content-length" lines, parseStrictLength v = some out.contentLength
  apart : ¬ (out.chunked = true ∧ out.hasContentLength = true)
  bounded : out.body = .length → out.contentLength ≤ kMaxBodyLen
  short : out.headerLen ≤ kMaxHeaderLen
  buffered : out.headerLen ≤ buf.length

/-- An accepted head is clean lines, each visited in turn. -/
theorem parseResponseHead_walked {buf : Bytes} {headRequest : Bool} {out : ResponseHead}
    (complete : parseResponseHead buf {} headRequest = (.complete, out)) :
    ∃ n status http11 start lines w keep, find (crlf ++ crlf) buf = some n ∧
      n + 4 ≤ kMaxHeaderLen ∧
      buf.take n = join start lines ∧ (∀ line ∈ start :: lines, Clean line) ∧
      visitLines responseLine
        { out := { headerLen := n + 4, status := status, keepAlive := http11 } }
        (start.length + 2) lines = (true, w) ∧
      ¬ (w.out.chunked = true ∧ w.out.hasContentLength = true) ∧
      out =
        { w.out with
          keepAlive := keep
          body := bodyOf w.out headRequest } ∧
      (out.body = .length → out.contentLength ≤ kMaxBodyLen) := by
  unfold parseResponseHead at complete
  cases found : find (crlf ++ crlf) buf with
  | none =>
      rw [found] at complete
      dsimp only at complete
      split at complete <;> simp at complete
  | some n =>
      rw [found] at complete
      dsimp only at complete
      by_cases long : kMaxHeaderLen < n + 4
      · rw [if_pos long] at complete
        simp at complete
      · rw [if_neg long] at complete
        cases line : statusLine (buf.take n) with
        | none => simp [line] at complete
        | some found =>
            obtain ⟨status, http11⟩ := found
            rw [line] at complete
            dsimp only at complete
            have walked := @join_of_walkHeaders _ responseLine (buf.take n)
              { out := { headerLen := n + 4, status := status, keepAlive := http11 } }
            generalize result : walkHeaders responseLine (buf.take n)
              { out := { headerLen := n + 4, status := status, keepAlive := http11 } } = walk
              at complete walked
            obtain ⟨ok, w⟩ := walk
            cases ok with
            | false => simp at complete
            | true =>
                obtain ⟨start, lines, same, clean⟩ := walked rfl
                rw [same, walkHeaders_join responseLine clean] at result
                rw [if_neg (by simp)] at complete
                dsimp only at complete
                generalize (if (w.close || w.keep) = true then !w.close
                  else w.out.keepAlive) = keep at complete
                by_cases both : w.out.chunked = true ∧ w.out.hasContentLength = true
                · rw [if_pos both] at complete
                  simp at complete
                · rw [if_neg both] at complete
                  split at complete
                  · simp at complete
                  · next notLong =>
                      rw [Prod.mk.injEq] at complete
                      obtain ⟨-, rfl⟩ := complete
                      exact ⟨n, status, http11, start, lines, w, keep, rfl,
                        Nat.le_of_not_lt long, same, clean, result, both, rfl, fun isLength =>
                          Nat.le_of_not_lt fun past => notLong ⟨isLength, past⟩⟩

theorem accepted_of_complete {buf : Bytes} {headRequest : Bool} {out : ResponseHead}
    (complete : parseResponseHead buf {} headRequest = (.complete, out)) :
    ∃ start lines, Accepted buf headRequest out start lines := by
  obtain ⟨n, status, http11, start, lines, w, keep, found, short, split, clean, visited, apart, rfl,
    bounded⟩ := parseResponseHead_walked complete
  have read := visitLines_response (congrArg Prod.fst visited)
  rw [visited] at read
  have headerLen : w.out.headerLen = n + 4 := read.headerLen
  refine ⟨start, lines, ?_, clean, rfl, ?_, ?_, read.agreed, apart, bounded, ?_, ?_⟩
  · dsimp only
    rw [headerLen, take_of_find found, split]
  · exact read.chunked.trans (Bool.false_or _)
  · exact read.length.trans (Bool.false_or _)
  · dsimp only
    rw [headerLen]
    exact short
  · dsimp only
    rw [headerLen]
    exact Http1.find_le found (by decide)

/-- The test for the letters frames a response by section 6.3 exactly when the head is
coded plainly. -/
theorem parseResponseHead_rule_iff {buf : Bytes} {out : ResponseHead}
    (complete : parseResponseHead buf {} false = (.complete, out))
    (status : 200 ≤ out.status ∧ out.status ≠ 204 ∧ out.status ≠ 304)
    {start : Bytes} {lines : List Bytes}
    (head : buf.take out.headerLen = join start lines ++ (crlf ++ crlf))
    (clean : ∀ line ∈ start :: lines, Clean line) :
    BodyRule out lines ↔ CodedPlainly lines := by
  obtain ⟨start', lines', accepted⟩ := accepted_of_complete complete
  obtain ⟨rfl, rfl⟩ : start' = start ∧ lines' = lines :=
    Http1.join_injective accepted.clean clean
      (List.append_cancel_right (accepted.head.symm.trans head))
  have body := accepted.body
  obtain ⟨least, not204, not304⟩ := status
  rw [bodyOf, if_neg (by simp [not204, not304]; omega)] at body
  have chunked := accepted.chunked
  have length := accepted.length
  have apart := accepted.apart
  have letters := @containsCi_of_endsChunked lines'
  have noLetters : values "transfer-encoding" lines' = [] → endsChunked lines' = false := by
    intro none
    simp [endsChunked, codings, none]
  constructor
  · intro rule
    rw [CodedPlainly]
    by_cases coded : values "transfer-encoding" lines' = []
    · exact Or.inl coded
    · by_cases ends : endsChunked lines' = true
      · exact Or.inr (Or.inl ends)
      · have unsized := rule.refused.resolve_left coded
        refine Or.inr (Or.inr ⟨unsized, ?_⟩)
        have notChunked : out.chunked = false := by
          apply Bool.eq_false_of_not_eq_true
          intro isChunked
          rw [if_pos isChunked] at body
          exact ends (rule.chunked.mp body)
        rw [chunked, List.any_eq_false] at notChunked
        intro v member
        exact Bool.eq_false_of_not_eq_true (notChunked v member)
  · intro plainly
    by_cases isChunked : out.chunked = true
    · rw [if_pos isChunked] at body
      have ends : endsChunked lines' = true := by
        rcases plainly with none | ends | ⟨-, absent⟩
        · simp [chunked, none] at isChunked
        · exact ends
        · rw [chunked, List.any_eq_true] at isChunked
          obtain ⟨v, member, contains⟩ := isChunked
          rw [absent v member] at contains
          cases contains
      have unsized : values "content-length" lines' = [] := by
        by_contra some
        exact apart ⟨isChunked, by simp [length, some]⟩
      have coded : values "transfer-encoding" lines' ≠ [] := by
        intro none
        rw [noLetters none] at ends
        cases ends
      exact ⟨Or.inr unsized, by simp [body, ends], by simp [body, coded], accepted.agreed,
        fun notChunked => absurd body notChunked⟩
    · have noEnd : endsChunked lines' = false := by
        rw [← Bool.not_eq_true]
        intro ends
        exact isChunked (chunked.trans (letters ends))
      rw [if_neg isChunked] at body
      by_cases sized : values "content-length" lines' = []
      · rw [if_neg (by simp [length, sized])] at body
        exact ⟨Or.inr sized, by simp [body, noEnd], by simp [body, sized], accepted.agreed,
          fun _ _ => body⟩
      · rw [if_pos (by simp [length, sized])] at body
        have coded : values "transfer-encoding" lines' = [] := by
          rcases plainly with none | ends | ⟨unsized, -⟩
          · exact none
          · rw [noEnd] at ends
            cases ends
          · exact absurd unsized sized
        exact ⟨Or.inl coded, by simp [body, noEnd], by simp [body, coded, sized],
          accepted.agreed, fun _ notLength => absurd body notLength⟩

/-- A chunked reply is framed by the rule. -/
theorem parseResponseHead_rule_chunked :
    let buf := ascii "HTTP/1.1 200 OK\r\nTransfer-Encoding: chunked\r\n\r\n"
    BodyRule (parseResponseHead buf {} false).2 [ascii "Transfer-Encoding: chunked"] ↔
      CodedPlainly [ascii "Transfer-Encoding: chunked"] :=
  @parseResponseHead_rule_iff
    (ascii "HTTP/1.1 200 OK\r\nTransfer-Encoding: chunked\r\n\r\n") _
    (by decide) (by decide) (ascii "HTTP/1.1 200 OK") _ (by decide)
    (by decide)

/-- A coding that is not `chunked`, with a length: the length is taken. -/
theorem parseResponseHead_gzip :
    let buf := ascii "HTTP/1.1 200 OK\r\nTransfer-Encoding: gzip\r\nContent-Length: 5\r\n\r\n"
    (parseResponseHead buf {} false).1 = .complete ∧
      (parseResponseHead buf {} false).2.body = .length ∧
      ¬ BodyRule (parseResponseHead buf {} false).2
        [ascii "Transfer-Encoding: gzip", ascii "Content-Length: 5"] := by
  refine ⟨by decide, by decide, fun rule => ?_⟩
  exact absurd rule.refused (by decide)

end Http
end Llmbridge
