import Llmbridge.Net.HeaderWalk

/-!
# Request framing

`parse_request` answers by the head alone and the length of the buffer, so no
verdict but `NeedMore` changes as bytes arrive; and the head it frames is one
that every parser splits the same way.
-/

namespace Llmbridge
namespace Http

open Rfc8259 (Byte Bytes ascii isDigit substr)
open Http1 (find cr lf crlf Clean join)

/-! ## Header lines -/

/-- A header line: a name without whitespace around it, a colon and a value. -/
structure IsField (line name value : Bytes) : Prop where
  split : line = name ++ 0x3a :: value
  some : name ≠ []
  noColon : 0x3a ∉ name
  front : ∀ c ∈ name.head?, isOws c = false
  back : ∀ c ∈ name.getLast?, isOws c = false

theorem isField_of_lineOk {line : Bytes} {colon : Nat} (ok : lineOk line = some colon) :
    IsField line (line.take colon) (line.drop (colon + 1)) := by
  rw [lineOk] at ok
  split at ok
  · cases ok
  · next notEmpty =>
      simp only [not_or, Bool.not_eq_true] at notEmpty
      rcases findIdx?_cases (fun c => c == 0x3a) line with
        ⟨name, c, value, split, found, before, isColon⟩ | ⟨none, -⟩
      · simp only [found] at ok
        split at ok
        · cases ok
        · next holds =>
            rw [Option.some.injEq] at ok
            subst ok
            simp only [not_or, Bool.not_eq_true] at holds
            obtain ⟨some, back⟩ := holds
            have same : c = 0x3a := by simpa using isColon
            subst same
            have taken : line.take name.length = name := by rw [split, List.take_left]
            have dropped : line.drop (name.length + 1) = value := by
              rw [split, ← List.drop_drop, List.drop_left, List.drop_one, List.tail_cons]
            have nonempty : name ≠ [] := fun none => some (by rw [none]; rfl)
            rw [taken, dropped]
            refine ⟨split, nonempty, ?_, ?_, ?_⟩
            · intro member
              have clash := before _ member
              simp at clash
            · intro d member
              have first := notEmpty.2
              rw [split, List.head?_append, Option.mem_def.mp member] at first
              simpa using first
            · intro d member
              have last : (line.drop (name.length - 1)).head? = Option.some d := by
                rw [split, List.drop_append_of_le_length (Nat.sub_le _ _), List.head?_append,
                  List.head?_drop, ← List.getLast?_eq_getElem?, Option.mem_def.mp member]
                rfl
              rw [last] at back
              simpa using back
      · simp [none] at ok

theorem lineOk_of_isField {line name value : Bytes} (isField : IsField line name value) :
    lineOk line = some name.length := by
  obtain ⟨rfl, some, noColon, front, back⟩ := isField
  have found : (name ++ 0x3a :: value).findIdx? (fun c => c == 0x3a) =
      Option.some name.length := by
    have absent : name.findIdx? (fun c => c == 0x3a) = none := by
      rw [List.findIdx?_eq_none_iff]
      intro c member
      have differs : c ≠ 0x3a := by
        rintro rfl
        exact noColon member
      simpa using differs
    rw [List.findIdx?_append, absent]
    simp [List.findIdx?_cons]
  have pos := List.length_pos_iff.mpr some
  have first : (name ++ 0x3a :: value).head?.any isOws = false := by
    rw [List.head?_append]
    cases head : name.head? with
    | none => exact absurd (List.head?_eq_none_iff.mp head) some
    | some c => simpa using front c head
  have last : ((name ++ 0x3a :: value).drop (name.length - 1)).head?.any isOws = false := by
    rw [List.drop_append_of_le_length (Nat.sub_le _ _), List.head?_append, List.head?_drop,
      ← List.getLast?_eq_getElem?]
    cases tail : name.getLast? with
    | none => exact absurd (List.getLast?_eq_none_iff.mp tail) some
    | some c => simpa using back c tail
  have notEmpty : (name ++ 0x3a :: value).isEmpty = false := by simp
  rw [lineOk, notEmpty, first, if_neg (by simp), found]
  simp only [last]
  rw [if_neg (by simp; omega)]

/-- A line has one name and one value. -/
theorem IsField.unique {line name value name' value' : Bytes}
    (first : IsField line name value) (second : IsField line name' value') :
    name = name' ∧ value = value' := by
  have places := (lineOk_of_isField first).symm.trans (lineOk_of_isField second)
  rw [Option.some.injEq] at places
  have same := first.split.symm.trans second.split
  have names := List.append_inj_left same places
  exact ⟨names, by simpa [names] using same⟩

theorem visitLine_true {σ : Type} {f : σ → HeaderLine → σ × Bool} {s : σ} {«at» : Nat}
    {line : Bytes} (ok : (visitLine f s «at» line).2 = true) :
    ∃ name value, IsField line name value ∧
      visitLine f s «at» line = f s ⟨classify name, name, value, «at»⟩ := by
  rw [visitLine] at ok
  cases colon : lineOk line with
  | none => simp [colon] at ok
  | some n =>
      refine ⟨_, _, isField_of_lineOk colon, ?_⟩
      rw [visitLine, colon]

theorem visitLine_field {σ : Type} (f : σ → HeaderLine → σ × Bool) (s : σ) («at» : Nat)
    {line name value : Bytes} (isField : IsField line name value) :
    visitLine f s «at» line = f s ⟨classify name, name, value, «at»⟩ := by
  rw [visitLine, lineOk_of_isField isField, isField.split]
  simp only [List.take_left]
  rw [← List.drop_drop, List.drop_left, List.drop_one, List.tail_cons]

/-! ## The walk of `parse_request` -/

section Walk

variable {α : Type} {also : α → HeaderLine → α × Bool}

/-- What one header line does to the framing of a request. -/
structure LineRead (w next : RequestWalk α) (h : HeaderLine) : Prop where
  headerLen : next.out.headerLen = w.out.headerLen
  coded : h.field ≠ .transferEncoding
  length : h.field = .contentLength →
    parseStrictLength h.value = some next.out.bodyLen ∧ next.haveCl = true ∧
      (w.haveCl = true → next.out.bodyLen = w.out.bodyLen)
  other : h.field ≠ .contentLength →
    next.out.bodyLen = w.out.bodyLen ∧ next.haveCl = w.haveCl

theorem requestLine_true {w : RequestWalk α} {h : HeaderLine}
    (ok : (requestLine w h).2 = true) : LineRead w (requestLine w h).1 h := by
  rw [requestLine] at ok ⊢
  cases field : h.field with
  | contentLength =>
      simp only [field] at ok
      cases length : parseStrictLength h.value with
      | none => simp [length] at ok
      | some n =>
          simp only [length] at ok
          by_cases clash : w.haveCl = true ∧ n ≠ w.out.bodyLen
          · rw [if_pos clash] at ok
            cases ok
          · simp only [clash, if_false]
            refine ⟨rfl, by simp [field], ?_, by simp [field]⟩
            intro _
            refine ⟨length, rfl, fun have' => ?_⟩
            by_contra differs
            exact clash ⟨have', differs⟩
  | transferEncoding => simp [field] at ok
  | _ => exact ⟨rfl, by simp [field], by simp [field], by simp⟩

theorem requestVisit_true {w : RequestWalk α} {h : HeaderLine}
    (ok : (requestVisit also w h).2 = true) : LineRead w (requestVisit also w h).1 h := by
  rw [requestVisit] at ok ⊢
  have read := requestLine_true (w := w) (h := h)
  generalize requestLine w h = result at ok read ⊢
  obtain ⟨next, good⟩ := result
  cases good with
  | false => cases ok
  | true =>
      obtain ⟨headerLen, coded, length, other⟩ := read rfl
      exact ⟨headerLen, coded, length, other⟩

/-- What the walk over a head does to the framing of a request. -/
structure LinesRead (w last : RequestWalk α) (lines : List Bytes) : Prop where
  headerLen : last.out.headerLen = w.out.headerLen
  fields : ∀ line ∈ lines, ∃ name value, IsField line name value
  coded : ∀ line ∈ lines, ∀ name value, IsField line name value →
    classify name ≠ .transferEncoding
  length : ∀ line ∈ lines, ∀ name value, IsField line name value →
    classify name = .contentLength → parseStrictLength value = some last.out.bodyLen
  had : w.haveCl = true → last.out.bodyLen = w.out.bodyLen
  none : (∀ line ∈ lines, ∀ name value, IsField line name value →
    classify name ≠ .contentLength) → last.out.bodyLen = w.out.bodyLen

theorem visitLines_request {w : RequestWalk α} {«at» : Nat} {lines : List Bytes}
    (ok : (visitLines (requestVisit also) w «at» lines).1 = true) :
    LinesRead w (visitLines (requestVisit also) w «at» lines).2 lines := by
  induction lines generalizing w «at» with
  | nil => exact ⟨rfl, by simp, by simp, by simp, fun _ => rfl, fun _ => rfl⟩
  | cons line lines inductionHypothesis =>
      rw [visitLines_cons] at ok ⊢
      by_cases good : (visitLine (requestVisit also) w «at» line).2 = true
      · rw [if_pos good] at ok ⊢
        obtain ⟨name, value, isField, visited⟩ := visitLine_true good
        rw [visited] at good ok ⊢
        have first := requestVisit_true good
        have others := inductionHypothesis ok
        generalize (requestVisit also w ⟨classify name, name, value, «at»⟩).1 = next at *
        generalize (visitLines (requestVisit also) next («at» + line.length + 2) lines).2 =
          last at *
        refine ⟨others.headerLen.trans first.headerLen, ?_, ?_, ?_, ?_, ?_⟩
        · intro found member
          rcases List.mem_cons.mp member with rfl | member
          · exact ⟨name, value, isField⟩
          · exact others.fields found member
        · intro found member name' value' isField'
          rcases List.mem_cons.mp member with rfl | member
          · obtain ⟨rfl, rfl⟩ := isField'.unique isField
            exact first.coded
          · exact others.coded found member name' value' isField'
        · intro found member name' value' isField' isLength
          rcases List.mem_cons.mp member with rfl | member
          · obtain ⟨rfl, rfl⟩ := isField'.unique isField
            obtain ⟨length, had, -⟩ := first.length isLength
            rw [others.had had]
            exact length
          · exact others.length found member name' value' isField' isLength
        · intro had
          by_cases isLength : classify name = .contentLength
          · obtain ⟨-, had', same⟩ := first.length isLength
            exact (others.had had').trans (same had)
          · obtain ⟨same, kept⟩ := first.other isLength
            exact (others.had (kept.trans had)).trans same
        · intro none
          have notLength := none line List.mem_cons_self name value isField
          obtain ⟨same, -⟩ := first.other notLength
          exact (others.none fun found member =>
            none found (List.mem_cons_of_mem line member)).trans same
      · rw [if_neg good] at ok
        cases ok

end Walk

/-! ## Framing -/

/-- The head of a buffer, as every parser must split it, and the length it gives the
message. -/
structure Framed (buf : Bytes) (out : Message) (start : Bytes) (lines : List Bytes)
    (length : Nat) : Prop where
  head : buf.take out.headerLen = join start lines ++ (crlf ++ crlf)
  clean : ∀ line ∈ start :: lines, Clean line
  unique : ∀ start' lines', (∀ line ∈ start' :: lines', Clean line) →
    join start' lines' = join start lines → start' = start ∧ lines' = lines
  fields : ∀ line ∈ lines, ∃ name value, IsField line name value
  coded : ∀ line ∈ lines, ∀ name value, IsField line name value →
    sameCi name (ascii "transfer-encoding") = false
  lengths : ∀ line ∈ lines, ∀ name value, IsField line name value →
    sameCi name (ascii "content-length") = true →
    trimOws value ≠ [] ∧ (∀ c ∈ trimOws value, isDigit c = true) ∧
      decimalValue (trimOws value) = length
  unstated : (∀ line ∈ lines, ∀ name value, IsField line name value →
    sameCi name (ascii "content-length") = false) → length = 0
  bounded : length ≤ kMaxBodyLen
  total : out.totalLen = out.headerLen + length
  short : out.headerLen ≤ kMaxHeaderLen

theorem parseStrictLength_some {v : Bytes} {n : Nat} (length : parseStrictLength v = some n) :
    trimOws v ≠ [] ∧ (∀ c ∈ trimOws v, isDigit c = true) ∧ decimalValue (trimOws v) = n := by
  simp only [parseStrictLength] at length
  by_cases bad : (trimOws v).isEmpty = true ∨ (trimOws v).all isDigit = false
  · rw [if_pos bad] at length
    cases length
  · rw [if_neg bad] at length
    rw [not_or, Bool.not_eq_true, Bool.not_eq_false] at bad
    by_cases fits : decimalValue (trimOws v) < 2 ^ 64
    · rw [if_pos fits, Option.some.injEq] at length
      refine ⟨?_, List.all_eq_true.mp bad.2, length⟩
      intro none
      rw [none] at bad
      cases bad.1
    · rw [if_neg fits] at length
      cases length

theorem sameCi_of_classify {name : Bytes} {lower : String} {f : Field} (listed : f ≠ .other)
    (names : f.names = [lower]) (differs : classify name ≠ f) :
    sameCi name (ascii lower) = false := by
  rw [← Bool.not_eq_true]
  intro same
  exact differs ((classify_eq listed).mpr ⟨lower, by simp [names], same⟩)

/-- The message that a request line starts. -/
def requestStart (head : Bytes) (out : Message) : Message :=
  { out with
    bodyLen := 0
    keepAlive := versionOf (requestLineOf head) != ascii "HTTP/1.0"
    http11 := versionOf (requestLineOf head) == ascii "HTTP/1.1"
    head := ((requestLineOf head).takeWhile fun c => c != 0x20) == ascii "HEAD" }

/-- An accepted head is clean lines, each visited in turn. -/
theorem requestHead_walked
    {α : Type} {also : α → HeaderLine → α × Bool} {head : Bytes} {out : Message} {a : α}
    (ok : (requestHead also head out a).1 = true) :
    out.headerLen ≤ kMaxHeaderLen ∧
    ∃ start lines w, head = join start lines ∧ (∀ line ∈ start :: lines, Clean line) ∧
      visitLines (requestVisit also) { out := requestStart head out, also := a }
        (start.length + 2) lines = (true, w) ∧
      w.out.bodyLen ≤ kMaxBodyLen ∧
      requestHead also head out a =
        (true,
          { w.out with
            keepAlive := if w.close || w.keep then !w.close else w.out.keepAlive
            totalLen := w.out.headerLen + w.out.bodyLen },
          w.also) := by
  unfold requestHead at ok ⊢
  by_cases long : kMaxHeaderLen < out.headerLen
  · rw [if_pos long] at ok
    cases ok
  · rw [if_neg long] at ok ⊢
    refine ⟨Nat.le_of_not_lt long, ?_⟩
    dsimp only at ok ⊢
    rw [← requestStart] at ok ⊢
    have walked := @join_of_walkHeaders _ (requestVisit also) head
      { out := requestStart head out, also := a }
    generalize result : walkHeaders (requestVisit also) head
      { out := requestStart head out, also := a } = walk at ok walked ⊢
    obtain ⟨good, w⟩ := walk
    by_cases refused : good = false ∨ kMaxBodyLen < w.out.bodyLen
    · rw [if_pos refused] at ok
      cases ok
    · rw [if_neg refused]
      rw [not_or, Bool.not_eq_false, Nat.not_lt] at refused
      obtain ⟨rfl, fits⟩ := refused
      obtain ⟨start, lines, split, clean⟩ := walked rfl
      refine ⟨start, lines, w, split, clean, ?_, fits, rfl⟩
      rw [← result, split, walkHeaders_join (requestVisit also) clean, ← split]

/-- An accepted head is framed one way. -/
theorem requestHead_framed
    {α : Type} {also : α → HeaderLine → α × Bool} {head : Bytes} {out : Message} {a : α}
    (ok : (requestHead also head out a).1 = true) {buf : Bytes}
    (split : buf.take out.headerLen = head ++ (crlf ++ crlf)) :
    ∃ start lines length, Framed buf (requestHead also head out a).2.1 start lines length := by
  obtain ⟨short, start, lines, w, rfl, clean, visited, fits, result⟩ := requestHead_walked ok
  have read := visitLines_request (congrArg Prod.fst visited)
  rw [visited] at read
  have headerLen : w.out.headerLen = out.headerLen := read.headerLen
  rw [result]
  refine ⟨start, lines, w.out.bodyLen, ?_, clean, ?_, read.fields, ?_, ?_, ?_, fits, rfl, ?_⟩
  · dsimp only
    rw [headerLen]
    exact split
  · intro start' lines' clean' same
    exact Http1.join_injective clean' clean same
  · intro line member name value isField
    exact sameCi_of_classify (by decide) rfl (read.coded line member name value isField)
  · intro line member name value isField isLength
    exact parseStrictLength_some (read.length line member name value isField
      ((classify_eq (by decide)).mpr ⟨_, List.mem_singleton_self _, isLength⟩))
  · intro unstated
    refine read.none ?_
    intro line member name value isField isLength
    obtain ⟨lower, listed, same⟩ := (classify_eq (by decide)).mp isLength
    rw [Field.names, List.mem_singleton] at listed
    subst listed
    have differs := unstated line member name value isField
    rw [same] at differs
    cases differs
  · dsimp only
    rw [headerLen]
    exact short

/-- A buffered head: the verdict is the head's, and the length of the buffer. -/
theorem parseRequest_of_find {buf : Bytes} {n : Nat} (found : find (crlf ++ crlf) buf = some n) :
    parseRequest buf {} =
      (let verdict := requestHead (fun (_ : Unit) _ => ((), true)) (buf.take n)
          { headerLen := n + 4 } ()
      (if verdict.1 = false then .error
        else if buf.length < verdict.2.1.totalLen then .needMore else .complete,
        verdict.2.1)) := by
  simp only [parseRequest, parseRequestWith, found]
  rcases requestHead (fun (_ : Unit) _ => ((), true)) (buf.take n) { headerLen := n + 4 } () with
    ⟨ok, out, a⟩
  cases ok <;> rfl

theorem parseRequest_of_none {buf : Bytes} (none : find (crlf ++ crlf) buf = Option.none) :
    parseRequest buf {} = (if kMaxHeaderLen < buf.length then .error else .needMore, {}) := by
  simp only [parseRequest, parseRequestWith, none]

/-- A head longer than the cap is refused. -/
theorem requestHead_long {α : Type} (also : α → HeaderLine → α × Bool) (head : Bytes)
    (out : Message) (a : α) (long : kMaxHeaderLen < out.headerLen) :
    (requestHead also head out a).1 = false := by
  rw [requestHead, if_pos long]

theorem take_of_find {buf : Bytes} {n : Nat} (found : find (crlf ++ crlf) buf = some n) :
    buf.take (n + 4) = buf.take n ++ (crlf ++ crlf) := by
  obtain ⟨rest, split⟩ := Http1.find_some found
  rw [List.take_add, split]
  rfl

/-- Request framing is stable as bytes arrive, and unambiguous. -/
theorem parseRequest_framing (buf more : Bytes) :
    ((parseRequest buf {}).1 = .error → (parseRequest (buf ++ more) {}).1 = .error) ∧
    ((parseRequest buf {}).1 = .complete →
      parseRequest (buf ++ more) {} = parseRequest buf {}) ∧
    ((parseRequest buf {}).1 = .needMore → (parseRequest buf {}).2.totalLen ≠ 0 →
      (parseRequest (buf ++ more) {}).1 ≠ .error ∧
        (parseRequest (buf ++ more) {}).2 = (parseRequest buf {}).2) ∧
    (∀ n, find (crlf ++ crlf) buf = some n → (parseRequest buf {}).1 ≠ .error →
      ∃ start lines length, Framed buf (parseRequest buf {}).2 start lines length) := by
  cases found : find (crlf ++ crlf) buf with
  | none =>
      rw [parseRequest_of_none found]
      refine ⟨?_, ?_, ?_, by simp⟩
      · intro isError
        have long : kMaxHeaderLen < buf.length := by
          by_contra short
          simp [short] at isError
        cases later : find (crlf ++ crlf) (buf ++ more) with
        | none =>
            rw [parseRequest_of_none later, if_pos]
            rw [List.length_append]
            omega
        | some n =>
            have beyond := Http1.find_beyond found later
            have size : (crlf ++ crlf).length = 4 := rfl
            rw [size] at beyond
            have refused := requestHead_long (fun (_ : Unit) _ => ((), true))
              ((buf ++ more).take n) { headerLen := n + 4 } ()
              (Nat.lt_trans long beyond)
            rw [parseRequest_of_find later]
            simp [refused]
      · intro isComplete
        split at isComplete <;> cases isComplete
      · intro _ some
        exact absurd rfl some
  | some n =>
      have fits := Http1.find_le found (by simp [crlf])
      have later := Http1.find_append found (by simp [crlf]) more
      have sameHead : (buf ++ more).take n = buf.take n :=
        List.take_append_of_le_length (by omega)
      have framed := @requestHead_framed _ (fun (_ : Unit) _ => ((), true))
        (buf.take n) { headerLen := n + 4 } ()
      rw [parseRequest_of_find found, parseRequest_of_find later, sameHead]
      generalize requestHead (fun (_ : Unit) _ => ((), true)) (buf.take n)
        { headerLen := n + 4 } () = verdict at framed ⊢
      dsimp only at framed ⊢
      rw [List.length_append]
      refine ⟨?_, ?_, ?_, ?_⟩
      · intro isError
        split at isError
        · next refused => rw [if_pos refused]
        · split at isError <;> cases isError
      · intro isComplete
        split at isComplete
        · cases isComplete
        · next accepted =>
            split at isComplete
            · cases isComplete
            · next whole =>
                rw [if_neg accepted, if_neg whole, if_neg (by omega), if_neg accepted]
      · intro isMore _
        split at isMore
        · cases isMore
        · next accepted =>
            refine ⟨?_, rfl⟩
            rw [if_neg accepted]
            split <;> simp
      · intro m same notError
        have accepted : verdict.1 = true := by
          by_contra refused
          rw [Bool.not_eq_true] at refused
          exact notError (if_pos refused)
        exact framed accepted (take_of_find found)

end Http
end Llmbridge
