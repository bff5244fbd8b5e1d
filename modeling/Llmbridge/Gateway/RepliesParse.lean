import Llmbridge.Gateway.Replies
import Llmbridge.Net.HeaderLists

/-!
# What the gateway's replies say

A reply is a head of clean lines and a body; its own framing is in the lines the gateway
writes, whatever the venue's head held.
-/

namespace Llmbridge

open Rfc8259 (Byte Bytes ascii)
open Http1 (find crlf cr lf Clean join)

/-! ## The end of a head -/

namespace Http1

/-- The blank line is not in front of the first line end. -/
theorem find_crlfs_skip {front : Bytes} (clean : Clean front) (rest : Bytes) :
    find (crlf ++ crlf) (front ++ rest) =
      (find (crlf ++ crlf) rest).map fun n => n + front.length := by
  induction front with
  | nil => simp
  | cons c front inductionHypothesis =>
      have other : ¬ (crlf ++ crlf).isPrefixOf (c :: (front ++ rest)) = true := by
        intro starts
        rw [List.isPrefixOf_iff_prefix] at starts
        have first := (List.cons_prefix_cons.mp starts).1
        exact (clean c List.mem_cons_self).1 first.symm
      rw [List.cons_append, find, if_neg other,
        inductionHypothesis fun d member => clean d (List.mem_cons_of_mem c member),
        Option.map_map]
      rfl

/-- A line that is not empty ends no head. -/
theorem find_crlfs_line {line : Bytes} (clean : Clean line) (some : line ≠ []) (rest : Bytes) :
    find (crlf ++ crlf) (crlf ++ (line ++ rest)) =
      (find (crlf ++ crlf) rest).map fun n => n + line.length + 2 := by
  obtain ⟨c, more, rfl⟩ := List.exists_cons_of_ne_nil some
  have differs : c ≠ cr := (clean c List.mem_cons_self).1
  have other : ¬ (crlf ++ crlf).isPrefixOf (cr :: lf :: ((c :: more) ++ rest)) = true := by
    intro starts
    rw [List.isPrefixOf_iff_prefix] at starts
    have behind := (List.cons_prefix_cons.mp (List.cons_prefix_cons.mp starts).2).2
    exact differs (List.cons_prefix_cons.mp behind).1.symm
  have other' : ¬ (crlf ++ crlf).isPrefixOf (lf :: ((c :: more) ++ rest)) = true := by
    intro starts
    rw [List.isPrefixOf_iff_prefix] at starts
    exact absurd (List.cons_prefix_cons.mp starts).1 (by decide)
  have shape : crlf ++ ((c :: more) ++ rest) = cr :: lf :: ((c :: more) ++ rest) := rfl
  rw [shape, find, if_neg other, find, if_neg other', find_crlfs_skip clean, Option.map_map,
    Option.map_map]
  rfl

/-- The head of clean lines that are not empty ends at its blank line. -/
theorem find_head {start : Bytes} {lines : List Bytes}
    (clean : ∀ line ∈ start :: lines, Clean line) (some : ∀ line ∈ lines, line ≠ [])
    (rest : Bytes) :
    find (crlf ++ crlf) (join start lines ++ (crlf ++ crlf) ++ rest) =
      Option.some (join start lines).length := by
  have inner : find (crlf ++ crlf) ((lines.flatMap fun line => crlf ++ line) ++
      ((crlf ++ crlf) ++ rest)) =
      Option.some (lines.flatMap fun line => crlf ++ line).length := by
    have all := fun line member => clean line (List.mem_cons_of_mem start member)
    clear clean
    induction lines with
    | nil => rfl
    | cons line lines inductionHypothesis =>
        rw [List.flatMap_cons, List.append_assoc, List.append_assoc,
          find_crlfs_line (all line List.mem_cons_self) (some line List.mem_cons_self),
          inductionHypothesis (fun found member => some found (List.mem_cons_of_mem line member))
            fun found member => all found (List.mem_cons_of_mem line member)]
        simp only [Option.map_some, Option.some.injEq, List.length_append, crlf,
          List.length_cons, List.length_nil]
        omega
  rw [join, List.append_assoc, List.append_assoc,
    find_crlfs_skip (clean start List.mem_cons_self), inner, List.length_append]
  simp only [Option.map_some, Nat.add_comm]

end Http1

/-! ## The lines of a head -/

namespace Http

open Forward (AllFields)

/-- What the lines of a head say of its connection and of its body's type. -/
structure ConnectionRead (w last : ResponseWalk) (lines : List Bytes) : Prop where
  close : last.close =
    (w.close || (values "connection" lines).any fun v => hasToken v (ascii "close"))
  keep : last.keep =
    (w.keep || (values "connection" lines).any fun v => hasToken v (ascii "keep-alive"))
  keepAlive : last.out.keepAlive = w.out.keepAlive
  eventStream : last.out.eventStream = (w.out.eventStream ||
    (values "content-type" lines).any fun v => containsCi v (ascii "text/event-stream"))

/-- What one line says of the connection and of the body's type. -/
theorem responseLine_connection (w : ResponseWalk) (h : HeaderLine) :
    (responseLine w h).1.close =
        (w.close || (decide (h.field = .connection) && hasToken h.value (ascii "close"))) ∧
      (responseLine w h).1.keep =
        (w.keep || (decide (h.field = .connection) && hasToken h.value (ascii "keep-alive"))) ∧
      (responseLine w h).1.out.keepAlive = w.out.keepAlive ∧
      (responseLine w h).1.out.eventStream = (w.out.eventStream ||
        (decide (h.field = .contentType) && containsCi h.value (ascii "text/event-stream"))) := by
  have quota : ∀ v q, (w.quota v q).close = w.close ∧ (w.quota v q).keep = w.keep ∧
      (w.quota v q).out.keepAlive = w.out.keepAlive ∧
      (w.quota v q).out.eventStream = w.out.eventStream := by
    intro v q
    unfold ResponseWalk.quota
    split <;> exact ⟨rfl, rfl, rfl, rfl⟩
  unfold responseLine
  cases field : h.field with
  | connection => simp
  | contentLength =>
      dsimp only
      split
      · simp
      · split <;> simp
  | retryAfter =>
      dsimp only
      split <;> simp
  | requestsRemaining | inputTokensRemaining | outputTokensRemaining | tokensRemaining =>
      simp [quota]
  | other =>
      dsimp only
      split_ifs
      · split <;> simp
      · split <;> simp
      · simp
  | _ => simp

/-- Only a length is refused. -/
theorem responseLine_ok {n : Nat} {w : ResponseWalk} {h : HeaderLine}
    (length : h.field = .contentLength → parseStrictLength h.value = some n)
    (had : w.out.hasContentLength = true → w.out.contentLength = n) :
    (responseLine w h).2 = true := by
  unfold responseLine
  cases field : h.field with
  | contentLength =>
      dsimp only
      rw [length field]
      dsimp only
      rw [if_neg]
      rintro ⟨has, differs⟩
      exact differs (had has).symm
  | retryAfter =>
      dsimp only
      split <;> rfl
  | other =>
      dsimp only
      split_ifs
      · split <;> rfl
      · split <;> rfl
      · rfl
  | _ => rfl

/-- The lines of a head whose lengths agree go through, whatever else they say. -/
theorem visitLines_agreed {n : Nat} {lines : List Bytes} (fields : AllFields lines)
    (lengths : ∀ v ∈ values "content-length" lines, parseStrictLength v = some n)
    {w : ResponseWalk} (had : w.out.hasContentLength = true → w.out.contentLength = n)
    («at» : Nat) :
    (visitLines responseLine w «at» lines).1 = true ∧
      ConnectionRead w (visitLines responseLine w «at» lines).2 lines := by
  induction lines generalizing w «at» with
  | nil =>
      exact ⟨rfl, by simp [visitLines, values], by simp [visitLines, values], rfl,
        by simp [visitLines, values]⟩
  | cons line lines inductionHypothesis =>
      obtain ⟨name, value, isField⟩ := fields line List.mem_cons_self
      have visited := visitLine_field responseLine w «at» isField
      have sized := classify_iff (f := .contentLength) (by decide) rfl name
      have linked := classify_iff (f := .connection) (by decide) rfl name
      rw [values_cons, isField.nameOf, isField.valueOf, sized] at lengths
      have ok : (responseLine w ⟨classify name, name, value, «at»⟩).2 = true ∧
          ((responseLine w ⟨classify name, name, value, «at»⟩).1.out.hasContentLength = true →
            (responseLine w ⟨classify name, name, value, «at»⟩).1.out.contentLength = n) := by
        have length : classify name = .contentLength → parseStrictLength value = some n := by
          intro is
          rw [if_pos (decide_eq_true is)] at lengths
          exact lengths value List.mem_cons_self
        have good := @responseLine_ok n w ⟨classify name, name, value, «at»⟩ length had
        have read := responseLine_true good
        refine ⟨good, fun has => ?_⟩
        by_cases is : classify name = .contentLength
        · have same := (read.agreed is).symm.trans (length is)
          exact Option.some.inj same
        · have before := read.length
          dsimp only at before
          rw [decide_eq_false is, Bool.or_false, has] at before
          rw [read.had before.symm]
          exact had before.symm
      have others := inductionHypothesis fields.tail
        (fun v member => lengths v (by split; exacts [List.mem_cons_of_mem _ member, member]))
        ok.2 («at» + line.length + 2)
      obtain ⟨close, keep, keepAlive, eventStream⟩ :=
        responseLine_connection w ⟨classify name, name, value, «at»⟩
      have typed := classify_iff (f := .contentType) (by decide) rfl name
      rw [visitLines_cons, visited, if_pos ok.1]
      refine ⟨others.1, ?_, ?_, others.2.keepAlive.trans keepAlive, ?_⟩
      · rw [others.2.close, close, values_cons, isField.nameOf, isField.valueOf, linked]
        cases decide (classify name = .connection) <;> simp [Bool.or_assoc]
      · rw [others.2.keep, keep, values_cons, isField.nameOf, isField.valueOf, linked]
        cases decide (classify name = .connection) <;> simp [Bool.or_assoc]
      · rw [others.2.eventStream, eventStream, values_cons, isField.nameOf, isField.valueOf, typed]
        cases decide (classify name = .contentType) <;> simp [Bool.or_assoc]

/-! ## The head of a response that the gateway wrote -/

/-- The digit written at a place is read there. -/
theorem digitAt_of {head front : Bytes} {d : Nat} {rest : Bytes} (small : d < 10)
    (split : head = front ++ Forward.decimal d ++ rest) :
    digitAt head front.length = some d := by
  have each : ∀ d < 10, Forward.decimal d = [(0x30 + d).toUInt8] ∧
      Rfc8259.isDigit (0x30 + d).toUInt8 = true ∧ ((0x30 + d).toUInt8).toNat - 0x30 = d := by decide
  obtain ⟨one, digit, value⟩ := each d small
  unfold digitAt
  rw [split, one, List.append_assoc, List.getElem?_append_right (Nat.le_refl _), Nat.sub_self]
  simp only [List.singleton_append, List.getElem?_cons_zero, Option.bind_some]
  rw [if_pos digit, value]

/-- Three digits. -/
theorem decimal_three {n : Nat} (low : 100 ≤ n) (high : n < 1000) :
    Forward.decimal n = Forward.decimal (n / 100) ++ Forward.decimal (n / 10 % 10) ++
      Forward.decimal (n % 10) := by
  have same : ∀ m, Forward.decimal m = Rfc8259.decimalDigits m := fun _ => rfl
  simp only [same]
  rw [Rfc8259.decimalDigits_step (by omega : 10 ≤ n),
    Rfc8259.decimalDigits_step (by omega : 10 ≤ n / 10), Nat.div_div_eq_div_mul]

/-- A written status line is read back. -/
theorem statusLine_statusText {status : Nat} (low : 100 ≤ status) (high : status < 1000)
    (rest : Bytes) : statusLine (Gateway.statusText status ++ rest) = some (status, true) := by
  have one : ∀ d < 10, (Forward.decimal d).length = 1 := by decide
  have a : status / 100 < 10 := by omega
  have b : status / 10 % 10 < 10 := Nat.mod_lt _ (by decide)
  have c : status % 10 < 10 := Nat.mod_lt _ (by decide)
  have text : Gateway.statusText status ++ rest = ascii "HTTP/1.1 " ++
      (Forward.decimal (status / 100) ++ (Forward.decimal (status / 10 % 10) ++
        (Forward.decimal (status % 10) ++
          (0x20 :: (ascii (Gateway.reason status) ++ rest))))) := by
    unfold Gateway.statusText
    rw [if_neg (by omega), Int.toNat_natCast, decimal_three low high]
    simp only [List.append_assoc]
    rfl
  have first := @digitAt_of (Gateway.statusText status ++ rest) (ascii "HTTP/1.1 ") _ _ a
    (by rw [text, List.append_assoc])
  have second := @digitAt_of (Gateway.statusText status ++ rest)
    (ascii "HTTP/1.1 " ++ Forward.decimal (status / 100)) _ _ b
    (by rw [text]; simp only [List.append_assoc]; rfl)
  have third := @digitAt_of (Gateway.statusText status ++ rest)
    (ascii "HTTP/1.1 " ++ Forward.decimal (status / 100) ++ Forward.decimal (status / 10 % 10)) _ _
    c (by rw [text]; simp only [List.append_assoc]; rfl)
  have nine : (ascii "HTTP/1.1 ").length = 9 := rfl
  rw [List.length_append, nine, one _ a] at second
  rw [List.length_append, List.length_append, nine, one _ a, one _ b] at third
  rw [nine] at first
  have blank : (Gateway.statusText status ++ rest)[12]? = some 0x20 := by
    rw [text, ← List.append_assoc, ← List.append_assoc, ← List.append_assoc,
      List.getElem?_append_right]
    · simp only [List.length_append, nine, one _ a, one _ b, one _ c]
      rfl
    · simp only [List.length_append, nine, one _ a, one _ b, one _ c]
      decide
  have start : ∀ tail : Bytes, ¬ ((ascii "HTTP/1.1 " ++ tail).length < 9 ∨
      (ascii "HTTP/1.1 " ++ tail).take 7 ≠ ascii "HTTP/1." ∨
      ((ascii "HTTP/1.1 " ++ tail)[7]? ≠ some 0x30 ∧ (ascii "HTTP/1.1 " ++ tail)[7]? ≠ some 0x31) ∨
      (ascii "HTTP/1.1 " ++ tail)[8]? ≠ some 0x20) := by
    intro tail
    rintro (short | other | ⟨-, other⟩ | other)
    · rw [List.length_append, nine] at short
      omega
    · exact other rfl
    · exact other rfl
    · exact other rfl
  have sevenths : (Gateway.statusText status ++ rest)[7]? = some 0x31 := by
    rw [text]
    rfl
  have begins := start (Forward.decimal (status / 100) ++ (Forward.decimal (status / 10 % 10) ++
        (Forward.decimal (status % 10) ++
          (0x20 :: (ascii (Gateway.reason status) ++ rest)))))
  rw [← text] at begins
  unfold statusLine
  rw [if_neg begins, first, second, third]
  dsimp only
  rw [blank, sevenths, if_neg (by simp)]
  simp only [Option.some.injEq, Prod.mk.injEq, decide_true, and_true]
  omega

/-- What a reader makes of a head that the gateway wrote: `n` is the length its lines
give, where they give one. -/
structure Parsed (status n : Nat) (start : Bytes) (lines : List Bytes) (out : ResponseHead) :
    Prop where
  status : out.status = status
  headerLen : out.headerLen = (join start lines).length + 4
  chunked : out.chunked =
    (values "transfer-encoding" lines).any fun v => containsCi v (ascii "chunked")
  length : out.hasContentLength = !(values "content-length" lines).isEmpty
  agreed : out.hasContentLength = true → out.contentLength = n
  body : out.body = bodyOf out false
  keepAlive : out.keepAlive =
    !((values "connection" lines).any fun v => hasToken v (ascii "close"))
  eventStream : out.eventStream =
    (values "content-type" lines).any fun v => containsCi v (ascii "text/event-stream")

/-- A head of clean header lines that give one length at most, and one framing, is read
as its lines say. -/
theorem parseResponseHead_written {status n : Nat} {lines : List Bytes}
    (low : 100 ≤ status) (high : status < 1000)
    (clean : ∀ line ∈ Gateway.statusText status :: lines, Clean line) (fields : AllFields lines)
    (short : (join (Gateway.statusText status) lines).length + 4 ≤ kMaxHeaderLen)
    (lengths : ∀ v ∈ values "content-length" lines, parseStrictLength v = some n)
    (apart : values "transfer-encoding" lines = [] ∨ values "content-length" lines = [])
    (bounded : n ≤ kMaxBodyLen) (rest : Bytes) :
    ∃ out, parseResponseHead
        (join (Gateway.statusText status) lines ++ (crlf ++ crlf) ++ rest) {} false =
          (.complete, out) ∧
      Parsed status n (Gateway.statusText status) lines out := by
  have nonempty : ∀ line ∈ lines, line ≠ [] := by
    rintro line member rfl
    obtain ⟨name, value, isField⟩ := fields [] member
    have split := isField.split
    simp at split
  have found := Http1.find_head clean nonempty rest
  have taken : (join (Gateway.statusText status) lines ++ (crlf ++ crlf) ++ rest).take
      (join (Gateway.statusText status) lines).length =
        join (Gateway.statusText status) lines := by
    rw [List.append_assoc, List.take_left]
  have first := statusLine_statusText low high
    (lines.flatMap fun line => crlf ++ line)
  have walked := @walkHeaders_join _ responseLine _ _ clean
    { out := {
        headerLen := (join (Gateway.statusText status) lines).length + 4
        status := status
        keepAlive := true } }
  obtain ⟨ok, linked⟩ := @visitLines_agreed n lines fields lengths
    { out := {
        headerLen := (join (Gateway.statusText status) lines).length + 4
        status := status
        keepAlive := true } } (fun no => absurd no Bool.false_ne_true)
    ((Gateway.statusText status).length + 2)
  have read := visitLines_response ok
  unfold parseResponseHead
  rw [found]
  dsimp only
  rw [if_neg (Nat.not_lt.mpr short), taken]
  have line : statusLine (join (Gateway.statusText status) lines) = some (status, true) := first
  simp only [line]
  rw [walked]
  generalize visitLines responseLine
    { out := {
        headerLen := (join (Gateway.statusText status) lines).length + 4
        status := status
        keepAlive := true } } ((Gateway.statusText status).length + 2) lines = result at *
  obtain ⟨good, w⟩ := result
  dsimp only at ok linked read ⊢
  subst ok
  rw [if_neg Bool.true_eq_false.mp]
  have coded := read.chunked
  have sized := read.length
  dsimp only at coded sized
  rw [Bool.false_or] at coded sized
  have agreed : w.out.hasContentLength = true → w.out.contentLength = n := by
    intro has
    rw [has] at sized
    obtain ⟨v, member⟩ := List.exists_mem_of_ne_nil (values "content-length" lines) (by
      intro none
      rw [none] at sized
      cases sized)
    exact Option.some.inj ((read.agreed v member).symm.trans (lengths v member))
  have stays : (if (w.close || w.keep) = true then !w.close else w.out.keepAlive) = !w.close := by
    rw [linked.keepAlive]
    cases w.close <;> cases w.keep <;> rfl
  have one : ¬ (w.out.chunked = true ∧ w.out.hasContentLength = true) := by
    rintro ⟨isChunked, has⟩
    rcases apart with none | none
    · rw [coded, none] at isChunked
      cases isChunked
    · rw [sized, none] at has
      cases has
  have fits : ¬ (bodyOf w.out false = .length ∧ kMaxBodyLen < w.out.contentLength) := by
    rintro ⟨isLength, large⟩
    have has : w.out.hasContentLength = true := by
      by_contra no
      unfold bodyOf at isLength
      rw [if_neg no] at isLength
      split at isLength
      · cases isLength
      · split at isLength <;> cases isLength
    rw [agreed has] at large
    omega
  have same : bodyOf { w.out with keepAlive := !w.close } false = bodyOf w.out false := rfl
  rw [stays, if_neg one, same, if_neg fits]
  refine ⟨_, rfl, ?_⟩
  constructor
  case status => exact read.status
  case headerLen => exact read.headerLen
  case chunked => exact coded
  case length => exact sized
  case agreed => exact agreed
  case body => rfl
  case keepAlive =>
    dsimp only
    rw [linked.close, Bool.false_or]
  case eventStream =>
    dsimp only
    rw [linked.eventStream, Bool.false_or]

end Http

namespace Gateway

open Http (FrameStatus Parsed parseResponseHead values classify nameOf valueOf IsField
  parseStrictLength kMaxBodyLen kMaxHeaderLen)
open Forward (AllFields decimal ended)
open Rfc8259 (IsChars)
open Translate (writeError)

/-! ## The gateway's own lines -/

/-- A clean header line that says nothing of the framing. -/
structure Unframing (line : Bytes) : Prop where
  clean : Clean line
  isField : IsField line (nameOf line) (valueOf line)
  framing : classify (nameOf line) ≠ .contentLength ∧
    classify (nameOf line) ≠ .transferEncoding ∧ classify (nameOf line) ≠ .connection

/-- A line that is relayed says nothing of the framing. -/
theorem KeptLine.unframing {ownBody : Bool} {head line : Bytes}
    (kept : KeptLine ownBody head line) : Unframing line :=
  ⟨kept.clean, kept.isField, kept.framing⟩

/-- Such lines hold none of the headers that frame a message. -/
theorem values_unframing {lines : List Bytes} (quiet : ∀ line ∈ lines, Unframing line) :
    values "content-length" lines = [] ∧ values "transfer-encoding" lines = [] ∧
      values "connection" lines = [] := by
  have sized := fun name => Http.classify_iff (f := .contentLength) (by decide) rfl name
  have coded := fun name => Http.classify_iff (f := .transferEncoding) (by decide) rfl name
  have linked := fun name => Http.classify_iff (f := .connection) (by decide) rfl name
  induction lines with
  | nil => exact ⟨rfl, rfl, rfl⟩
  | cons line lines inductionHypothesis =>
      obtain ⟨size, coding, connection⟩ := (quiet line List.mem_cons_self).framing
      obtain ⟨none, none', none''⟩ := inductionHypothesis
        fun found member => quiet found (List.mem_cons_of_mem line member)
      rw [Http.values_cons, Http.values_cons, Http.values_cons, sized, coded, linked,
        decide_eq_false size, decide_eq_false coding, decide_eq_false connection]
      exact ⟨none, none', none''⟩

/-- A name without a colon and without blanks makes a header line. -/
theorem isField_of_name {name : Bytes} (some : name ≠ [])
    (plain : name.all (fun c => c != 0x3a && !Http.isOws c) = true) (value : Bytes) :
    IsField (name ++ 0x3a :: value) name value := by
  have each : ∀ c ∈ name, c ≠ 0x3a ∧ Http.isOws c = false := by
    intro c member
    simpa using List.all_eq_true.mp plain c member
  refine ⟨rfl, some, fun member => (each _ member).1 rfl, ?_, ?_⟩
  · exact fun c member => (each c (List.mem_of_mem_head? member)).2
  · exact fun c member => (each c (List.mem_of_mem_getLast? member)).2

/-- A header of another name says nothing of the framing. -/
theorem unframing_of_name {name : Bytes} (some : name ≠ [])
    (plain : name.all (fun c => c != 0x3a && !Http.isOws c) = true)
    (framing : classify name ≠ .contentLength ∧ classify name ≠ .transferEncoding ∧
      classify name ≠ .connection) {value : Bytes} (clean : Clean (name ++ 0x3a :: value)) :
    Unframing (name ++ 0x3a :: value) := by
  have isField := isField_of_name some plain value
  refine ⟨clean, Forward.isField_of isField, ?_⟩
  rw [isField.nameOf]
  exact framing

/-- The written length is a header line. -/
theorem isField_lengthText (n : Nat) :
    IsField (lengthText n) (ascii "Content-Length") (0x20 :: decimal n) :=
  @isField_of_name (ascii "Content-Length") (by decide) (by decide) _

/-- A written length is read back. -/
theorem parseStrictLength_decimal {n : Nat} (small : n < 2 ^ 64) :
    parseStrictLength (0x20 :: decimal n) = some n := by
  have digits := Forward.decimal_digits n
  have some : decimal n ≠ [] := Rfc8259.decimalDigits_ne_nil n
  have blank : ∀ c, Rfc8259.isDigit c = true → Http.isOws c = false := by
    intro c digit
    have space : c ≠ 0x20 := by
      rintro rfl
      exact absurd digit (by decide)
    have tab : c ≠ 0x09 := by
      rintro rfl
      exact absurd digit (by decide)
    simp [Http.isOws, space, tab]
  have trimmed : Http.trimOws (0x20 :: decimal n) = decimal n := by
    rw [Http.trimOws_cons (by decide)]
    exact Http.trimOws_plain fun c member => blank c (List.all_eq_true.mp digits c member)
  unfold parseStrictLength
  dsimp only
  rw [trimmed, if_neg, Forward.decimal_value, if_pos small]
  rintro (empty | other)
  · exact some (List.isEmpty_iff.mp empty)
  · rw [digits] at other
    cases other

/-- A message that the gateway built: its start line, its header lines and its body. -/
structure Built (message : Bytes) (status : Nat) (lines : List Bytes) (body : Bytes) : Prop where
  bytes : message = join (statusText status) lines ++ (crlf ++ crlf) ++ body
  clean : ∀ line ∈ lines, Clean line
  fields : AllFields lines

/-- A head written line by line is a built one. -/
theorem Built.of_ended {message : Bytes} {status : Nat} {lines : List Bytes} {body : Bytes}
    (written : message = ended (statusText status :: lines) ++ crlf ++ body)
    (each : ∀ line ∈ lines, Clean line ∧ ∃ name value, IsField line name value) :
    Built message status lines body := by
  refine ⟨?_, fun line member => (each line member).1, fun line member => (each line member).2⟩
  rw [written, ← Forward.join_ended]
  simp only [List.append_assoc]

/-- A literal text without line ends is clean. -/
theorem clean_text {text : String}
    (plain : (ascii text).all (fun c => c != cr && c != lf) = true) : Clean (ascii text) :=
  Forward.clean_of_all (p := fun c => c != cr && c != lf) (by decide) (by decide) plain

/-- A short phrase without line ends. -/
def isPhrase (text : String) : Bool :=
  (ascii text).all (fun c => c != cr && c != lf) && decide ((ascii text).length ≤ 32)

/-- Of two phrases the one chosen is a phrase. -/
theorem isPhrase_ite {p : Prop} [Decidable p] {text other : String}
    (phrase : isPhrase text = true) (phrase' : isPhrase other = true) :
    isPhrase (if p then text else other) = true := by
  by_cases holds : p
  · rw [if_pos holds]
    exact phrase
  · rw [if_neg holds]
    exact phrase'

/-- Every reason phrase is printable. -/
theorem isPhrase_reason (status : Int) : isPhrase (reason status) = true := by
  unfold reason
  repeat' with_reducible apply isPhrase_ite
  all_goals decide +kernel

/-- A status line holds no line end. -/
theorem clean_statusText (status : Int) : Clean (statusText status) := by
  have version : Clean (ascii "HTTP/1.1 ") := clean_text (by decide)
  have blank : Clean (ascii " ") := clean_text (by decide)
  have phrase := isPhrase_reason status
  rw [isPhrase, Bool.and_eq_true] at phrase
  exact Forward.Clean.append (Forward.Clean.append (Forward.Clean.append version
    (Forward.decimal_clean _)) blank) (clean_text phrase.1)

/-- A number below a power of ten has no more digits than its exponent. -/
theorem length_decimal {n k : Nat} (positive : 0 < k) (small : n < 10 ^ k) :
    (decimal n).length ≤ k :=
  Rfc8259.decimalDigits_length_le positive small

/-- A status line is short. -/
theorem length_statusText {code : Nat} (high : code < 1000) :
    (statusText code).length ≤ 64 := by
  have phrase := isPhrase_reason code
  rw [isPhrase, Bool.and_eq_true, decide_eq_true_eq] at phrase
  have digits := @length_decimal code 3 (by decide) high
  have version : (ascii "HTTP/1.1 ").length = 9 := by decide
  have blank : (ascii " ").length = 1 := by decide
  unfold statusText
  rw [if_neg (by omega), Int.toNat_natCast]
  simp only [List.length_append, version, blank]
  omega

/-- How a reader frames a message: where its body starts, how it ends, and whether the
connection stays. -/
structure Reads (message : Bytes) (code : Nat) (keeps : Bool) (payload : Bytes)
    (r : Http.ResponseHead) : Prop where
  status : r.status = code
  keepAlive : r.keepAlive = keeps
  starts : message.drop r.headerLen = payload
  size : r.headerLen + payload.length = message.length
  length : r.contentLength = payload.length
  body : r.body = if code = 204 ∨ code = 304 then .none else .length

/-- A built message that gives its own length is read so, whatever follows it. -/
theorem Built.reads {message : Bytes} {status : Nat} {lines : List Bytes} {body : Bytes}
    (built : Built message status lines body) (low : 200 ≤ status) (high : status < 1000)
    (fits : body.length ≤ kMaxBodyLen)
    (short : message.length ≤ kMaxHeaderLen + body.length)
    (sized : values "content-length" lines = [0x20 :: decimal body.length])
    (uncoded : values "transfer-encoding" lines = []) (rest : Bytes) :
    ∃ r, parseResponseHead (message ++ rest) {} false = (.complete, r) ∧
      Reads message status
        (!((values "connection" lines).any fun v => Http.hasToken v (ascii "close"))) body r := by
  obtain ⟨bytes, clean, fields⟩ := built
  have four : (crlf ++ crlf).length = 4 := rfl
  have size : message.length = (join (statusText status) lines).length + 4 + body.length := by
    rw [bytes, List.length_append, List.length_append, four]
  have lengths : ∀ v ∈ values "content-length" lines, parseStrictLength v = some body.length := by
    rw [sized]
    intro v member
    rw [List.mem_singleton.mp member]
    exact parseStrictLength_decimal (Nat.lt_of_le_of_lt fits (by decide))
  obtain ⟨r, complete, parsed⟩ := Http.parseResponseHead_written (by omega) high
    (List.forall_mem_cons.mpr ⟨clean_statusText status, clean⟩) fields (by omega) lengths
    (Or.inl uncoded) fits (body ++ rest)
  have has : r.hasContentLength = true := by
    rw [parsed.length, sized]
    rfl
  refine ⟨r, ?_, ?_⟩
  · rw [bytes, List.append_assoc _ body rest]
    exact complete
  · constructor
    case status => exact parsed.status
    case keepAlive => exact parsed.keepAlive
    case starts =>
      have front : (join (statusText status) lines ++ (crlf ++ crlf)).length =
          (join (statusText status) lines).length + 4 := by
        rw [List.length_append, four]
      rw [parsed.headerLen, bytes, ← front, List.drop_left]
    case size =>
      rw [parsed.headerLen, size]
    case length => exact parsed.agreed has
    case body =>
      have unchunked : r.chunked = false := by
        rw [parsed.chunked, uncoded]
        rfl
      rw [parsed.body]
      unfold Http.bodyOf
      rw [parsed.status, unchunked, has]
      by_cases bare : status = 204 ∨ status = 304
      · rw [if_pos bare, if_pos (Or.inr (Or.inr bare))]
      · rw [if_neg bare, if_neg, if_neg Bool.false_ne_true, if_pos rfl]
        rintro (no | less | is)
        · cases no
        · omega
        · exact bare is

/-! ## Replies with a length -/

/-- The Content-Type line of the gateway's own bodies. -/
def jsonLine : Bytes := ascii "Content-Type: application/json"

/-- The Connection line of a reply. -/
def connectionLine (keep : Bool) : Bytes :=
  if keep then ascii "Connection: keep-alive" else ascii "Connection: close"

/-- The written Connection header is a header line. -/
theorem isField_connectionLine (keep : Bool) :
    IsField (connectionLine keep) (ascii "Connection")
      (if keep then ascii " keep-alive" else ascii " close") := by
  cases keep with
  | false => exact @isField_of_name (ascii "Connection") (by decide) (by decide) (ascii " close")
  | true =>
      exact @isField_of_name (ascii "Connection") (by decide) (by decide) (ascii " keep-alive")

/-- It holds no line end. -/
theorem clean_connectionLine (keep : Bool) : Clean (connectionLine keep) := by
  cases keep with
  | false => exact @clean_text "Connection: close" (by decide)
  | true => exact @clean_text "Connection: keep-alive" (by decide)

/-- Nor does the written length. -/
theorem clean_lengthText (n : Nat) : Clean (lengthText n) :=
  Forward.Clean.append (@clean_text "Content-Length: " (by decide)) (Forward.decimal_clean n)

/-- The media type says nothing of the framing. -/
theorem unframing_jsonLine : Unframing jsonLine :=
  @unframing_of_name (ascii "Content-Type") (by decide) (by decide) (by decide)
    (ascii " application/json") (@clean_text "Content-Type: application/json" (by decide))

/-- The lines of a reply that gives its length. -/
def lengthLines (quiet : List Bytes) (keep : Bool) (n : Nat) (others : List Bytes) : List Bytes :=
  quiet ++ connectionLine keep :: lengthText n :: others

/-- Of the headers that frame a message only the gateway's own are there. -/
theorem values_lengthLines {quiet others : List Bytes} (before : ∀ line ∈ quiet, Unframing line)
    (behind : ∀ line ∈ others, Unframing line) (keep : Bool) (n : Nat) :
    values "content-length" (lengthLines quiet keep n others) = [0x20 :: decimal n] ∧
      values "transfer-encoding" (lengthLines quiet keep n others) = [] ∧
      values "connection" (lengthLines quiet keep n others) =
        [if keep then ascii " keep-alive" else ascii " close"] := by
  obtain ⟨size, coding, connection⟩ := values_unframing before
  obtain ⟨size', coding', connection'⟩ := values_unframing behind
  have linked := isField_connectionLine keep
  have sized := isField_lengthText n
  have names : Http.sameCi (ascii "Connection") (ascii "content-length") = false ∧
      Http.sameCi (ascii "Connection") (ascii "transfer-encoding") = false ∧
      Http.sameCi (ascii "Connection") (ascii "connection") = true ∧
      Http.sameCi (ascii "Content-Length") (ascii "content-length") = true ∧
      Http.sameCi (ascii "Content-Length") (ascii "transfer-encoding") = false ∧
      Http.sameCi (ascii "Content-Length") (ascii "connection") = false := by decide
  obtain ⟨a, b, c, d, e, f⟩ := names
  unfold lengthLines
  simp only [values_append, Http.values_cons, linked.nameOf, linked.valueOf, sized.nameOf,
    sized.valueOf, a, b, c, d, e, f, size, coding, connection, size', coding', connection',
    List.nil_append, if_true, Bool.false_eq_true, if_false, and_self]

/-- A reply with a length is read with its status, its body and its connection, whatever
its other lines say and whatever follows it. -/
theorem reads_lengthLines {code : Nat} {quiet others : List Bytes} {body : Bytes} {keep : Bool}
    (low : 200 ≤ code) (high : code < 1000) (before : ∀ line ∈ quiet, Unframing line)
    (behind : ∀ line ∈ others, Unframing line) (fits : body.length ≤ kMaxBodyLen)
    {message : Bytes}
    (written : message =
      ended (statusText code :: lengthLines quiet keep body.length others) ++ crlf ++ body)
    (short : message.length ≤ kMaxHeaderLen + body.length) (rest : Bytes) :
    ∃ r, parseResponseHead (message ++ rest) {} false = (.complete, r) ∧
      Reads message code keep body r := by
  have each : ∀ line ∈ lengthLines quiet keep body.length others,
      Clean line ∧ ∃ name value, IsField line name value := by
    intro line member
    rcases List.mem_append.mp member with member | member
    · exact ⟨(before line member).clean, _, _, (before line member).isField⟩
    · rcases List.mem_cons.mp member with rfl | member
      · exact ⟨clean_connectionLine keep, _, _, isField_connectionLine keep⟩
      · rcases List.mem_cons.mp member with rfl | member
        · exact ⟨clean_lengthText body.length, _, _, isField_lengthText body.length⟩
        · exact ⟨(behind line member).clean, _, _, (behind line member).isField⟩
  obtain ⟨sized, uncoded, linked⟩ := values_lengthLines before behind keep body.length
  obtain ⟨r, complete, reads⟩ :=
    (Built.of_ended written each).reads low high fits short sized uncoded rest
  refine ⟨r, complete, ?_⟩
  have same : (!((values "connection" (lengthLines quiet keep body.length others)).any
      fun v => Http.hasToken v (ascii "close"))) = keep := by
    rw [linked]
    cases keep <;> decide
  rw [same] at reads
  exact reads

/-! ## Errors -/

/-- Every error of the gateway has a type and a message that a string holds. -/
theorem errorShape_plain (code : Int) :
    ((ascii (errorShape code).1).all Rfc8259.isPlain = true ∧
      (ascii (errorShape code).1).length ≤ 64) ∧
    (ascii (errorShape code).2).all Rfc8259.isPlain = true ∧
      (ascii (errorShape code).2).length ≤ 64 := by
  have table : kErrorShapes.all (fun s =>
      ((ascii s.2.1).all Rfc8259.isPlain && decide ((ascii s.2.1).length ≤ 64)) &&
        ((ascii s.2.2).all Rfc8259.isPlain && decide ((ascii s.2.2).length ≤ 64))) = true := by
    decide +kernel
  unfold errorShape
  cases found : kErrorShapes.find? fun s => s.1 = code with
  | some s =>
      have good := List.all_eq_true.mp table s (List.mem_of_find?_eq_some found)
      simpa only [Bool.and_eq_true, decide_eq_true_eq] using good
  | none =>
      dsimp only
      split <;> decide +kernel

/-- The message that an error of the gateway shows: a detail below 500 only. -/
def shownMessage (code : Int) (detail : Option Bytes) : Bytes :=
  if code < 500 then detail.getD (ascii (errorShape code).2) else ascii (errorShape code).2

/-- The error body says the message that is shown. -/
theorem errorBody_shown (code : Int) (detail : Option Bytes) :
    errorBody code detail =
      writeError (shownMessage code detail) (ascii (errorShape code).1) := by
  unfold errorBody shownMessage
  cases detail with
  | none => simp
  | some text => rfl

/-- A plain text stands in a string as it is. -/
theorem plainText_chars {text : Bytes} (plain : plainText text = true) : IsChars text := by
  refine IsChars.of_plain fun c member => ?_
  have printable := List.all_eq_true.mp plain c member
  simp only [decide_eq_true_eq] at printable
  simp [Rfc8259.isPlain, printable.1, printable.2.2.1, printable.2.2.2]

/-- The shown message stands in a string as it is, and is short. -/
theorem shownMessage_chars (code : Int) {detail : Option Bytes}
    (admitted : ∀ text ∈ detail, denyMessageOk text = true) :
    IsChars (shownMessage code detail) ∧ (shownMessage code detail).length ≤ 256 := by
  obtain ⟨-, plain, small⟩ := errorShape_plain code
  have own := IsChars.of_plain (List.all_eq_true.mp plain)
  unfold shownMessage
  split
  · cases detail with
    | none => exact ⟨own, by simpa using small.trans (by decide)⟩
    | some text =>
        have ok := admitted text rfl
        simp only [denyMessageOk, Bool.and_eq_true, decide_eq_true_eq] at ok
        exact ⟨plainText_chars ok.2, ok.1.2⟩
  · exact ⟨own, small.trans (by decide)⟩

/-- The lines of an error. -/
theorem appendError_lines (code : Int) (detail : Option Bytes) (keep : Bool) :
    appendError [] code detail keep =
      ended (statusText code :: lengthLines [jsonLine] keep (errorBody code detail).length []) ++
        crlf ++ errorBody code detail := by
  have texts : (if keep then ascii "Content-Type: application/json\r\nConnection: keep-alive\r\n"
      else ascii "Content-Type: application/json\r\nConnection: close\r\n") =
      jsonLine ++ crlf ++ (connectionLine keep ++ crlf) := by
    cases keep <;> decide
  unfold appendError appendStatusLine appendContentLength lengthLines
  dsimp only
  rw [texts]
  simp only [Forward.ended_cons, Forward.ended_nil, List.singleton_append, List.append_assoc,
    List.nil_append, List.append_nil]

/-- Every error that the gateway sends is read as the one message it is, whatever follows:
its own status, a JSON body that holds its type and its message, and the connection kept
or closed as it says. -/
theorem error_reads {code : Nat} {detail : Option Bytes} (keep : Bool) (low : 400 ≤ code)
    (high : code < 1000) (admitted : ∀ text ∈ detail, denyMessageOk text = true)
    (rest : Bytes) :
    ∃ r body, parseResponseHead (appendError [] code detail keep ++ rest) {} false =
        (.complete, r) ∧
      Reads (appendError [] code detail keep) code keep body r ∧
      Json.Writes body
        (Translate.ErrorOf (shownMessage code detail) (ascii (errorShape code).1)) := by
  obtain ⟨⟨typePlain, typeSmall⟩, -⟩ := errorShape_plain code
  obtain ⟨chars, small⟩ := shownMessage_chars code admitted
  have typeChars := IsChars.of_plain (List.all_eq_true.mp typePlain)
  have written := Translate.writes_error chars typeChars
  rw [← errorBody_shown] at written
  have size : (errorBody code detail).length ≤ 1024 := by
    rw [errorBody_shown, writeError, Translate.sanitized_chars chars,
      Translate.sanitized_chars typeChars]
    simp only [List.length_append]
    have first : (ascii "\x7b\"error\":\x7b\"message\":\"").length = 21 := by decide
    have second : (ascii "\",\"type\":\"").length = 10 := by decide
    have third : (ascii "\",\"code\":null\x7d\x7d").length = 15 := by decide
    omega
  have short : (appendError [] code detail keep).length ≤
      kMaxHeaderLen + (errorBody code detail).length := by
    have start := @length_statusText code high
    have digits := @length_decimal (errorBody code detail).length 4 (by decide)
      (Nat.lt_of_le_of_lt size (by decide))
    have json : jsonLine.length = 30 := by decide
    have name : (ascii "Content-Length: ").length = 16 := by decide
    have connection : (connectionLine keep).length ≤ 32 := by
      cases keep <;> decide
    have ends : crlf.length = 2 := rfl
    have bound : kMaxHeaderLen = 32768 := by decide
    rw [appendError_lines, lengthLines, lengthText]
    simp only [Forward.ended_cons, Forward.ended_nil, List.singleton_append, List.length_append,
      List.length_nil, json, name, ends]
    omega
  obtain ⟨r, complete, reads⟩ := reads_lengthLines (by omega) high
    (List.forall_mem_singleton.mpr unframing_jsonLine) (List.forall_mem_nil _)
    (size.trans (by decide)) (appendError_lines code detail keep) short rest
  exact ⟨r, errorBody code detail, complete, reads, written⟩

theorem error_reads_late :
    ∃ r body, parseResponseHead (appendError [] 408 (some (ascii "too slow")) true ++
        ascii "HTTP/1.1 200 OK\r\n") {} false = (.complete, r) ∧
      Reads (appendError [] 408 (some (ascii "too slow")) true) 408 true body r ∧
      Json.Writes body (Translate.ErrorOf (shownMessage 408 (some (ascii "too slow")))
        (ascii (errorShape 408).1)) :=
  @error_reads 408 (some (ascii "too slow")) true (by decide) (by decide)
    (by simp only [Option.mem_some_iff, forall_eq']; decide) (ascii "HTTP/1.1 200 OK\r\n")

/-! ## Timing headers -/

/-- A name that `append_timing_headers` and `append_usage_headers` write. -/
def isTimingName (name : String) : Bool :=
  (ascii "x-llmbridge-").isPrefixOf (ascii name) &&
    ((ascii name).all (fun c => c != 0x3a && !Http.isOws c) &&
      ((ascii name).all (fun c => c != cr && c != lf) &&
        decide (classify (ascii name) = .other)))

/-- A line of the gateway's timing. -/
structure TimingLine (line : Bytes) : Prop where
  unframing : Unframing line
  named : ascii "x-llmbridge-" <+: line
  other : classify (nameOf line) = .other

/-- A timing header is at most one line. -/
theorem timingHeader_lines {entry : String × Int} (named : isTimingName entry.1 = true) :
    ∃ lines, timingHeader entry = ended lines ∧ ∀ line ∈ lines, TimingLine line := by
  obtain ⟨name, value⟩ := entry
  simp only [isTimingName, Bool.and_eq_true, decide_eq_true_eq] at named
  obtain ⟨front, plain, ends, other⟩ := named
  rw [List.isPrefixOf_iff_prefix] at front
  by_cases unset : value < 0
  · exact ⟨[], if_pos unset, List.forall_mem_nil _⟩
  have some : ascii name ≠ [] := by
    rintro empty
    rw [empty] at front
    exact absurd (List.prefix_nil.mp front) (by decide)
  have text : timingHeader (name, value) =
      (ascii name ++ 0x3a :: (0x20 :: decimal value.natAbs)) ++ crlf := by
    rw [timingHeader, if_neg unset, OpenAi.decimal, if_neg unset]
    simp only [List.append_assoc]
    rfl
  refine ⟨[ascii name ++ 0x3a :: (0x20 :: decimal value.natAbs)], ?_,
    List.forall_mem_singleton.mpr ⟨?_, front.trans (List.prefix_append _ _), ?_⟩⟩
  rotate_left 2
  · rw [(isField_of_name some plain _).nameOf]
    exact other
  · rw [text, Forward.ended_cons, Forward.ended_nil, List.append_nil]
  · refine unframing_of_name some plain ?_ ?_
    · rw [other]
      decide
    · exact Forward.Clean.append (clean_text ends)
        (@Forward.Clean.append (ascii ": ") _ (clean_text (by decide)) (Forward.decimal_clean _))

/-- Timing headers are lines of their names. -/
theorem timingHeaders_lines {entries : List (String × Int)}
    (named : ∀ entry ∈ entries, isTimingName entry.1 = true) :
    ∃ lines, entries.flatMap timingHeader = ended lines ∧ ∀ line ∈ lines, TimingLine line := by
  induction entries with
  | nil => exact ⟨[], rfl, List.forall_mem_nil _⟩
  | cons entry entries inductionHypothesis =>
      obtain ⟨first, written, each⟩ := timingHeader_lines (named entry List.mem_cons_self)
      obtain ⟨others, written', each'⟩ := inductionHypothesis
        fun found member => named found (List.mem_cons_of_mem entry member)
      refine ⟨first ++ others, ?_, ?_⟩
      · rw [List.flatMap_cons, written, written', Forward.ended_append]
      · exact List.forall_mem_append.mpr ⟨each, each'⟩

/-- Every header of the timing is one line of the gateway's own. -/
theorem entries_named (t : TimingFacts) {upstreamKey : String}
    (key : isTimingName upstreamKey = true) :
    ∀ entry ∈ t.entries upstreamKey, isTimingName entry.1 = true := by
  have names : ["x-llmbridge-t0", "x-llmbridge-seq", "x-llmbridge-gateway-us",
      "x-llmbridge-connect-us", "x-llmbridge-upwrite-us", "x-llmbridge-body-work-us",
      "x-llmbridge-client-upload-us"].all isTimingName = true := by decide +kernel
  simp only [List.all_cons, List.all_nil, Bool.and_true, Bool.and_eq_true] at names
  obtain ⟨t0, seq, gateway, connect, upwrite, work, upload⟩ := names
  unfold TimingFacts.entries
  cases t.bodyWorkNs with
  | none =>
      simp only [List.append_nil, List.cons_append, List.nil_append, List.forall_mem_cons]
      exact ⟨t0, seq, gateway, connect, upwrite, upload, key, List.forall_mem_nil _⟩
  | some ns =>
      simp only [List.cons_append, List.nil_append, List.forall_mem_cons]
      exact ⟨t0, seq, gateway, connect, upwrite, work, upload, key, List.forall_mem_nil _⟩

/-- The timing of a reply is lines of their names. -/
theorem timingText_lines (timing : Option (TimingFacts × Int × Int)) :
    ∃ lines, timingText timing = ended lines ∧ ∀ line ∈ lines, TimingLine line := by
  cases timing with
  | none => exact ⟨[], rfl, List.forall_mem_nil _⟩
  | some facts =>
      obtain ⟨t, tokensIn, tokensOut⟩ := facts
      obtain ⟨lines, written, each⟩ := timingHeaders_lines
        (@entries_named t "x-llmbridge-upstream-us" (by decide +kernel))
      have counts : ["x-llmbridge-tokens-in", "x-llmbridge-tokens-out"].all
          isTimingName = true := by decide +kernel
      have named : [("x-llmbridge-tokens-in", tokensIn),
          ("x-llmbridge-tokens-out", tokensOut)].all (fun entry => isTimingName entry.1) =
            true := counts
      obtain ⟨others, written', each'⟩ := timingHeaders_lines (List.all_eq_true.mp named)
      refine ⟨lines ++ others, ?_, List.forall_mem_append.mpr ⟨each, each'⟩⟩
      dsimp only [timingText, appendUsageHeaders, appendTimingHeaders]
      rw [written, written', Forward.ended_append, List.nil_append]

/-! ## Answers -/

/-- The header lines of an answer beside its framing: the venue's, or the gateway's own
Content-Type. -/
structure AnswerLines (ownBody : Bool) (head : Bytes) (quiet : List Bytes) : Prop where
  each : ∀ line ∈ quiet, KeptLine ownBody head line ∨ line = jsonLine
  typed : values "content-type" quiet ≠ []
  plain : ownBody = false → values "content-type" quiet = [ascii " application/json"]

/-- The gateway's media type comes first. -/
theorem values_jsonLine (lines : List Bytes) :
    values "content-type" (jsonLine :: lines) =
      ascii " application/json" :: values "content-type" lines := by
  rw [Http.values_cons]
  rfl

/-- Where the body is not the venue's its media type is not relayed. -/
theorem values_foreign {head : Bytes} {lines : List Bytes}
    (kept : ∀ line ∈ lines, KeptLine false head line) : values "content-type" lines = [] := by
  have typing := fun name => Http.classify_iff (f := .contentType) (by decide) rfl name
  induction lines with
  | nil => rfl
  | cons line lines inductionHypothesis =>
      have foreign := (kept line List.mem_cons_self).foreign rfl
      rw [Http.values_cons, typing, decide_eq_false foreign.1]
      exact inductionHypothesis fun found member => kept found (List.mem_cons_of_mem line member)

/-- No line of an answer says anything of the framing. -/
theorem AnswerLines.unframing {ownBody : Bool} {head : Bytes} {quiet : List Bytes}
    (answer : AnswerLines ownBody head quiet) : ∀ line ∈ quiet, Unframing line := by
  intro line member
  rcases answer.each line member with kept | rfl
  · exact kept.unframing
  · exact unframing_jsonLine

/-- A relayed reply is its status, lines of the venue's head, its own framing and its
body. -/
theorem appendRelayedReply_lines (status : Int) (head body : Bytes) (ownBody : Bool) :
    ∃ quiet, appendRelayedReply [] status head body ownBody =
        ended (statusText status :: lengthLines quiet true body.length []) ++ crlf ++ body ∧
      AnswerLines ownBody head quiet := by
  have json : ascii "Content-Type: application/json\r\n" = jsonLine ++ crlf := by decide
  have keeps : ascii "Connection: keep-alive\r\n" = connectionLine true ++ crlf := by decide
  unfold appendRelayedReply appendStatusLine appendContentLength
  cases ownBody with
  | false =>
      obtain ⟨lines, written, -, kept⟩ :=
        appendRelayed_spec ([] ++ (statusText status ++ crlf) ++ (jsonLine ++ crlf)) head false
      refine ⟨jsonLine :: lines, ?_, ?_, ?_, ?_⟩
      · dsimp only
        rw [json, if_neg Bool.false_ne_true, written, keeps, Bool.and_false,
          if_neg Bool.false_ne_true, lengthLines]
        simp only [Forward.ended_cons, Forward.ended_append, Forward.ended_nil,
          List.append_assoc, List.nil_append, List.append_nil, List.cons_append]
      · exact List.forall_mem_cons.mpr
          ⟨Or.inr rfl, fun line member => Or.inl (kept line member)⟩
      · rw [values_jsonLine]
        exact List.cons_ne_nil _ _
      · intro _
        rw [values_jsonLine, values_foreign kept]
  | true =>
      obtain ⟨lines, written, typed, kept⟩ :=
        appendRelayed_spec ([] ++ (statusText status ++ crlf) ++ []) head true
      refine ⟨lines ++ if (values "content-type" lines).isEmpty then [jsonLine] else [],
        ?_, ?_, ?_, fun no => absurd no Bool.true_eq_false.mp⟩
      · dsimp only
        rw [if_pos rfl, written, typed, keeps, json, Bool.not_not, Bool.and_true, lengthLines]
        cases (values "content-type" lines).isEmpty <;>
          simp only [Forward.ended_cons, Forward.ended_append, Forward.ended_nil,
            List.append_assoc, List.nil_append, List.append_nil, List.cons_append, if_true,
            Bool.false_eq_true, if_false]
      · refine List.forall_mem_append.mpr ⟨fun line member => Or.inl (kept line member), ?_⟩
        split
        · exact List.forall_mem_singleton.mpr (Or.inr rfl)
        · exact List.forall_mem_nil _
      · rw [values_append]
        split
        · rw [values_jsonLine]
          exact List.append_ne_nil_of_right_ne_nil _ (List.cons_ne_nil _ _)
        · rename_i some
          rw [List.isEmpty_iff] at some
          exact List.append_ne_nil_of_left_ne_nil some _

/-- `append_http` at a 200. -/
theorem appendHttp_lines {extra text : Bytes} {lines : List Bytes}
    (written : extra = ended lines) :
    appendHttp [] (ascii "HTTP/1.1 200 OK") text extra =
      ended (statusText 200 :: lengthLines [jsonLine] true text.length lines) ++ crlf ++ text := by
  have texts : ascii "HTTP/1.1 200 OK" ++
      ascii "\r\nContent-Type: application/json\r\nConnection: keep-alive\r\n" =
      statusText 200 ++ crlf ++ (jsonLine ++ crlf ++ (connectionLine true ++ crlf)) := by
    decide +kernel
  unfold appendHttp appendContentLength lengthLines
  dsimp only
  rw [List.nil_append, texts, written]
  simp only [Forward.ended_cons, List.singleton_append, List.append_assoc]

/-- What a client is told of a venue's answer: the answer's own body, its translation, or
its error in the gateway's form. -/
structure Retells (translateBody : Bool) (xlateResp : Bytes → Option Bytes) (status : Nat)
    (body payload : Bytes) : Prop where
  own : translateBody = false → payload = body
  translated : translateBody = true → status = 200 → xlateResp body = some payload
  error : translateBody = true → status ≠ 200 →
    ∃ message type, Json.Writes payload (Translate.ErrorOf message type)

/-- The lines of the reply that `on_response` builds. -/
theorem onResponse_lines {translateBody : Bool} {xlateResp : Bytes → Option Bytes}
    {timing : Option (TimingFacts × Int × Int)} {h : Http.ResponseHead}
    {upHead body raw out : Bytes}
    (made : onResponse translateBody xlateResp timing h upHead body raw = some out)
    (built : translateBody = true ∨ h.body = .chunked) (answered : h.status ≠ 0) :
    ∃ payload quiet others,
      out = ended (statusText h.status :: lengthLines quiet true payload.length others) ++
        crlf ++ payload ∧
      Retells translateBody xlateResp h.status body payload ∧
      AnswerLines (!translateBody) upHead quiet ∧ ∀ line ∈ others, TimingLine line := by
  unfold onResponse at made
  by_cases failed : translateBody = true ∧ h.status ≠ 0 ∧ h.status ≠ 200
  · rw [if_pos failed] at made
    have fallback : IsChars (ascii "upstream_error") :=
      IsChars.of_plain (List.all_eq_true.mp (by decide))
    have written := Translate.writes_upstreamError body fallback
    generalize Translate.upstreamErrorToOpenai body (ascii "upstream_error") = payload at *
    obtain ⟨quiet, lines, answer⟩ := appendRelayedReply_lines h.status upHead payload false
    rw [failed.1]
    refine ⟨payload, quiet, [], (Option.some.inj made).symm.trans lines, ?_, answer,
      List.forall_mem_nil _⟩
    exact ⟨fun no => absurd no (by decide), fun _ is => absurd is failed.2.2,
      fun _ _ => written⟩
  rw [if_neg failed] at made
  cases translateBody with
  | true =>
      have is : h.status = 200 := by
        by_contra other
        exact failed ⟨rfl, answered, other⟩
      rw [if_pos rfl, Option.map_eq_some_iff] at made
      obtain ⟨text, translated, rfl⟩ := made
      obtain ⟨others, written, each⟩ := timingText_lines timing
      refine ⟨text, [jsonLine], others, ?_, ?_, ?_, each⟩
      · rw [is]
        exact appendHttp_lines written
      · exact ⟨fun no => absurd no (by decide), fun _ _ => translated,
          fun _ other => absurd is other⟩
      · exact ⟨List.forall_mem_singleton.mpr (Or.inr rfl), by decide, fun _ => by decide⟩
  | false =>
      have chunked : h.body = .chunked := built.resolve_left (by decide)
      rw [if_neg Bool.false_ne_true, if_pos chunked, if_neg answered] at made
      obtain ⟨quiet, lines, answer⟩ := appendRelayedReply_lines h.status upHead body true
      exact ⟨body, quiet, [], (Option.some.inj made).symm.trans lines,
        ⟨fun _ => rfl, fun no => absurd no (by decide), fun no => absurd no (by decide)⟩, answer,
        List.forall_mem_nil _⟩

/-- A timing header states no media type. -/
theorem values_timing {lines : List Bytes} (timing : ∀ line ∈ lines, TimingLine line) :
    values "content-type" lines = [] := by
  have typing := fun name => Http.classify_iff (f := .contentType) (by decide) rfl name
  induction lines with
  | nil => rfl
  | cons line lines inductionHypothesis =>
      have other := (timing line List.mem_cons_self).other
      rw [Http.values_cons, typing, other, if_neg (by decide)]
      exact inductionHypothesis fun found member => timing found (List.mem_cons_of_mem line member)

/-- The framing and the timing headers state no media type. -/
theorem values_typed {others : List Bytes} (timing : ∀ line ∈ others, TimingLine line)
    (quiet : List Bytes) (keep : Bool) (n : Nat) :
    values "content-type" (lengthLines quiet keep n others) = values "content-type" quiet := by
  have linked : Http.sameCi (ascii "Connection") (ascii "content-type") = false := by decide
  have sized : Http.sameCi (ascii "Content-Length") (ascii "content-type") = false := by decide
  rw [lengthLines, values_append, Http.values_cons, (isField_connectionLine keep).nameOf, linked,
    if_neg Bool.false_ne_true, Http.values_cons, (isField_lengthText n).nameOf, sized,
    if_neg Bool.false_ne_true, values_timing timing, List.append_nil]

/-- A header line of an answer: the venue's, as it was, or one of the gateway's. -/
def AnswerLine (ownBody : Bool) (head : Bytes) (n : Nat) (line : Bytes) : Prop :=
  KeptLine ownBody head line ∨ TimingLine line ∨
    line ∈ [jsonLine, connectionLine true, lengthText n]

/-- Whatever a venue answers, the reply that the gateway builds of it is one head and one
body. Within the parser's bounds it is read with the venue's status, that body and a
connection that stays, but at a status without a body (204, 304), where the reader ends the
message at the head. No line of the venue's head frames it, and each that it keeps stands as
it stood. -/
theorem response_reads {translateBody : Bool} {xlateResp : Bytes → Option Bytes}
    {timing : Option (TimingFacts × Int × Int)} {h : Http.ResponseHead}
    {upHead body raw out : Bytes}
    (made : onResponse translateBody xlateResp timing h upHead body raw = some out)
    (built : translateBody = true ∨ h.body = .chunked) (low : 200 ≤ h.status)
    (high : h.status < 1000) :
    ∃ payload lines,
      out = ended (statusText h.status :: lines) ++ crlf ++ payload ∧
      Retells translateBody xlateResp h.status body payload ∧
      (∀ line ∈ lines, AnswerLine (!translateBody) upHead payload.length line) ∧
      values "content-type" lines ≠ [] ∧
      (translateBody = true → values "content-type" lines = [ascii " application/json"]) ∧
      (payload.length ≤ kMaxBodyLen → out.length ≤ kMaxHeaderLen + payload.length →
        ∀ rest, ∃ r, parseResponseHead (out ++ rest) {} false = (.complete, r) ∧
          Reads out h.status true payload r) := by
  obtain ⟨payload, quiet, others, written, retells, answer, timed⟩ :=
    onResponse_lines made built (by omega)
  refine ⟨payload, lengthLines quiet true payload.length others, written, retells, ?_, ?_, ?_, ?_⟩
  · intro line member
    rcases List.mem_append.mp member with member | member
    · rcases answer.each line member with kept | own
      · exact Or.inl kept
      · exact Or.inr (Or.inr (by rw [own]; exact List.mem_cons_self))
    · rcases List.mem_cons.mp member with own | member
      · exact Or.inr (Or.inr (by simp [own]))
      · rcases List.mem_cons.mp member with own | member
        · exact Or.inr (Or.inr (by simp [own]))
        · exact Or.inr (Or.inl (timed line member))
  · rw [values_typed timed]
    exact answer.typed
  · intro translates
    rw [values_typed timed]
    exact answer.plain (by rw [translates]; rfl)
  · intro fits short rest
    exact reads_lengthLines low high answer.unframing
      (fun line member => (timed line member).unframing) fits written short rest

/-- A venue's 503 whose head tries to frame the reply. -/
theorem response_reads_busy :
    ∃ payload lines,
      appendRelayedReply [] 503 (ascii "HTTP/1.1 503 x\r\nretry-after: 7\r\nContent-Length: 3")
          (ascii "abc") true =
        ended (statusText 503 :: lines) ++ crlf ++ payload ∧
      Retells false (fun _ => none) 503 (ascii "abc") payload ∧
      (∀ line ∈ lines, AnswerLine true
        (ascii "HTTP/1.1 503 x\r\nretry-after: 7\r\nContent-Length: 3") payload.length line) ∧
      values "content-type" lines ≠ [] ∧
      (false = true → values "content-type" lines = [ascii " application/json"]) ∧
      (payload.length ≤ kMaxBodyLen →
        (appendRelayedReply [] 503
            (ascii "HTTP/1.1 503 x\r\nretry-after: 7\r\nContent-Length: 3") (ascii "abc")
            true).length ≤ kMaxHeaderLen + payload.length →
        ∀ rest, ∃ r, parseResponseHead (appendRelayedReply [] 503
            (ascii "HTTP/1.1 503 x\r\nretry-after: 7\r\nContent-Length: 3") (ascii "abc")
            true ++ rest) {} false = (.complete, r) ∧
          Reads (appendRelayedReply [] 503
            (ascii "HTTP/1.1 503 x\r\nretry-after: 7\r\nContent-Length: 3") (ascii "abc")
            true) 503 true payload r) :=
  @response_reads false (fun _ => none) none { status := 503, body := .chunked }
    (ascii "HTTP/1.1 503 x\r\nretry-after: 7\r\nContent-Length: 3") (ascii "abc") [] _ rfl
    (Or.inr rfl) (by decide) (by decide)

/-! ## Streams -/

/-- The line of a stream's head that frames it. -/
def streamLine (chunkedOut : Bool) : Bytes :=
  if chunkedOut then ascii "Transfer-Encoding: chunked" else ascii "Connection: close"

/-- The line that frames a stream is a header line. -/
theorem streamLine_field (chunkedOut : Bool) :
    Clean (streamLine chunkedOut) ∧ ∃ name value, IsField (streamLine chunkedOut) name value := by
  unfold streamLine
  cases chunkedOut with
  | false =>
      rw [if_neg Bool.false_ne_true]
      exact ⟨@clean_text "Connection: close" (by decide), _, _,
        @isField_of_name (ascii "Connection") (by decide) (by decide) (ascii " close")⟩
  | true =>
      rw [if_pos rfl]
      exact ⟨@clean_text "Transfer-Encoding: chunked" (by decide), _, _,
        @isField_of_name (ascii "Transfer-Encoding") (by decide) (by decide) (ascii " chunked")⟩

/-- The lines of a stream's head, beside its status. -/
theorem streamHead_lines (chunkedOut : Bool) (timing : Option TimingFacts) (upHead : Bytes) :
    ∃ others kept, streamHead [] chunkedOut timing upHead =
        ended (statusText 200 :: ascii "Content-Type: text/event-stream" ::
          ascii "Cache-Control: no-cache" :: streamLine chunkedOut :: (others ++ kept)) ++ crlf ∧
      (∀ line ∈ others, TimingLine line) ∧ ∀ line ∈ kept, KeptLine false upHead line := by
  have base : (if chunkedOut then kSseHeadChunked else kSseHead).take
      ((if chunkedOut then kSseHeadChunked else kSseHead).length - 2) =
      ended [statusText 200, ascii "Content-Type: text/event-stream",
        ascii "Cache-Control: no-cache", streamLine chunkedOut] := by
    cases chunkedOut <;> decide +kernel
  have timed : ∃ others, (timing.map fun t =>
        (t.entries "x-llmbridge-upstream-ttfb-us").flatMap timingHeader).getD [] = ended others ∧
      ∀ line ∈ others, TimingLine line := by
    cases timing with
    | none => exact ⟨[], rfl, List.forall_mem_nil _⟩
    | some t =>
        exact timingHeaders_lines
          (@entries_named t "x-llmbridge-upstream-ttfb-us" (by decide +kernel))
  obtain ⟨others, written, each⟩ := timed
  obtain ⟨kept, copied, -, keeps⟩ := appendRelayed_spec
    (ended [statusText 200, ascii "Content-Type: text/event-stream",
        ascii "Cache-Control: no-cache", streamLine chunkedOut] ++ ended others) upHead false
  refine ⟨others, kept, ?_, each, keeps⟩
  have staged : streamHead [] chunkedOut timing upHead =
      (appendRelayed (ended [statusText 200, ascii "Content-Type: text/event-stream",
        ascii "Cache-Control: no-cache", streamLine chunkedOut] ++ ended others) upHead
          false).1 ++ crlf := by
    unfold streamHead
    dsimp only
    rw [base, ← written]
    cases timing with
    | none => rw [List.nil_append, Option.map_none, Option.getD_none, List.append_nil]
    | some t => rfl
  rw [staged, copied]
  simp only [Forward.ended_cons, Forward.ended_nil, Forward.ended_append, List.append_assoc,
    List.nil_append]

/-- Whatever a venue's head says, the head of a stream is read as the gateway's: an event
stream in chunks on a connection that stays, or one that the end of the connection ends,
and what follows it is the stream. -/
theorem stream_head_reads (chunkedOut : Bool) (timing : Option TimingFacts)
    (upHead stream : Bytes)
    (short : (streamHead [] chunkedOut timing upHead).length ≤ kMaxHeaderLen) :
    ∃ r, parseResponseHead (streamHead [] chunkedOut timing upHead ++ stream) {} false =
        (.complete, r) ∧
      r.status = 200 ∧ r.eventStream = true ∧ r.keepAlive = chunkedOut ∧
      r.body = (if chunkedOut then .chunked else .untilClose) ∧
      (streamHead [] chunkedOut timing upHead ++ stream).drop r.headerLen = stream := by
  obtain ⟨others, kept, written, timed, keeps⟩ := streamHead_lines chunkedOut timing upHead
  have quiet : ∀ line ∈ others ++ kept, Unframing line :=
    List.forall_mem_append.mpr ⟨fun line member => (timed line member).unframing,
      fun line member => (keeps line member).unframing⟩
  obtain ⟨size, coding, connection⟩ := values_unframing quiet
  have typeless : values "content-type" (others ++ kept) = [] := by
    rw [values_append, values_timing timed, values_foreign keeps, List.append_nil]
  have own : ∀ lower, values lower (ascii "Content-Type: text/event-stream" ::
      ascii "Cache-Control: no-cache" :: streamLine chunkedOut :: (others ++ kept)) =
      values lower [ascii "Content-Type: text/event-stream", ascii "Cache-Control: no-cache",
        streamLine chunkedOut] ++ values lower (others ++ kept) :=
    fun lower => values_append lower [_, _, _] (others ++ kept)
  have fields : ∀ line ∈ ascii "Content-Type: text/event-stream" ::
      ascii "Cache-Control: no-cache" :: streamLine chunkedOut :: (others ++ kept),
      Clean line ∧ ∃ name value, IsField line name value := by
    have typed : Unframing (ascii "Content-Type: text/event-stream") :=
      @unframing_of_name (ascii "Content-Type") (by decide) (by decide) (by decide)
        (ascii " text/event-stream") (@clean_text "Content-Type: text/event-stream" (by decide))
    have uncached : Unframing (ascii "Cache-Control: no-cache") :=
      @unframing_of_name (ascii "Cache-Control") (by decide) (by decide) (by decide)
        (ascii " no-cache") (@clean_text "Cache-Control: no-cache" (by decide))
    exact List.forall_mem_cons.mpr ⟨⟨typed.clean, _, _, typed.isField⟩,
      List.forall_mem_cons.mpr ⟨⟨uncached.clean, _, _, uncached.isField⟩,
        List.forall_mem_cons.mpr ⟨streamLine_field chunkedOut, fun line member =>
          ⟨(quiet line member).clean, _, _, (quiet line member).isField⟩⟩⟩⟩
  have built : Built (streamHead [] chunkedOut timing upHead) 200 _ [] :=
    Built.of_ended (by rw [written, List.append_nil]; rfl) fields
  obtain ⟨bytes, clean, each⟩ := built
  rw [List.append_nil] at bytes
  have four : (crlf ++ crlf).length = 4 := rfl
  have lengthless : values "content-length" (ascii "Content-Type: text/event-stream" ::
      ascii "Cache-Control: no-cache" :: streamLine chunkedOut :: (others ++ kept)) = [] := by
    rw [own, size]
    cases chunkedOut <;> decide
  obtain ⟨r, complete, parsed⟩ := @Http.parseResponseHead_written 200 0 _ (by decide) (by decide)
    (List.forall_mem_cons.mpr ⟨clean_statusText 200, clean⟩) each
    (by rw [bytes, List.length_append, four] at short; exact short)
    (by rw [lengthless]; exact fun v member => absurd member List.not_mem_nil)
    (Or.inr lengthless) (by decide) stream
  have chunked : r.chunked = chunkedOut := by
    rw [parsed.chunked, own, coding]
    cases chunkedOut <;> decide
  have lengths : r.hasContentLength = false := by
    rw [parsed.length, lengthless]
    rfl
  refine ⟨r, by rw [bytes]; exact complete, parsed.status, ?_, ?_, ?_, ?_⟩
  · rw [parsed.eventStream, own, typeless]
    cases chunkedOut <;> decide
  · rw [parsed.keepAlive, own, connection]
    cases chunkedOut <;> decide
  · rw [parsed.body]
    unfold Http.bodyOf
    rw [parsed.status, chunked, lengths]
    cases chunkedOut <;> rfl
  · rw [parsed.headerLen, bytes, ← four, ← List.length_append, List.drop_left]

/-- A venue whose head gives a length and closes. -/
theorem stream_head_reads_length :
    ∃ r, parseResponseHead (streamHead [] true none
          (ascii "HTTP/1.1 200 OK\r\nContent-Length: 9\r\nConnection: close") ++
            ascii "0\r\n\r\n") {} false = (.complete, r) ∧
      r.status = 200 ∧ r.eventStream = true ∧ r.keepAlive = true ∧
      r.body = (if true then .chunked else .untilClose) ∧
      (streamHead [] true none
          (ascii "HTTP/1.1 200 OK\r\nContent-Length: 9\r\nConnection: close") ++
            ascii "0\r\n\r\n").drop r.headerLen = ascii "0\r\n\r\n" :=
  stream_head_reads true none
    (ascii "HTTP/1.1 200 OK\r\nContent-Length: 9\r\nConnection: close")
    (ascii "0\r\n\r\n") (by decide +kernel)

end Gateway

end Llmbridge
