import Llmbridge.Net.Http

/-!
# The walk over a head

`walk_headers` goes through a head exactly when the head is clean lines behind
one another, each with a name and a colon, and then its visitor sees those lines
in order.
-/

namespace Llmbridge
namespace Http

open Rfc8259 (Byte Bytes ascii isDigit substr)
open Http1 (find cr lf crlf Clean join)

/-! ## Lines -/

theorem findIdx?_cases (p : Byte → Bool) (b : Bytes) :
    (∃ front c back, b = front ++ c :: back ∧ b.findIdx? p = some front.length ∧
      (∀ x ∈ front, p x = false) ∧ p c = true) ∨
    (b.findIdx? p = none ∧ ∀ x ∈ b, p x = false) := by
  induction b with
  | nil => exact Or.inr ⟨rfl, by simp⟩
  | cons c rest inductionHypothesis =>
      by_cases here : p c = true
      · exact Or.inl ⟨[], c, rest, rfl, by simp [List.findIdx?_cons, here], by simp, here⟩
      · rw [Bool.not_eq_true] at here
        rcases inductionHypothesis with ⟨front, d, back, split, found, before, ends⟩ |
          ⟨none, absent⟩
        · refine Or.inl ⟨c :: front, d, back, by rw [split]; rfl, ?_, ?_, ends⟩
          · simp [List.findIdx?_cons, here, found]
          · intro x member
            rcases List.mem_cons.mp member with rfl | member
            · exact here
            · exact before x member
        · refine Or.inr ⟨by simp [List.findIdx?_cons, here, none], ?_⟩
          intro x member
          rcases List.mem_cons.mp member with rfl | member
          · exact here
          · exact absent x member

/-- The rest of a head behind a clean line. -/
def EndsLine (rest : Bytes) : Prop :=
  rest = [] ∨ ∃ more, rest = crlf ++ more

theorem lineEnd_of_line {s line rest : Bytes} {start : Nat}
    (split : s.drop start = line ++ rest) (clean : Clean line) (ends : EndsLine rest) :
    lineEnd s start = some (start + line.length) := by
  rw [lineEnd, split]
  rcases ends with rfl | ⟨more, rfl⟩
  · rw [List.append_nil]
    rcases findIdx?_cases (fun c => c == lf) line with ⟨front, c, back, same, -, -, isLf⟩ |
      ⟨none, -⟩
    · have member : c ∈ line := by simp [same]
      exact absurd (by simpa using isLf) (clean c member).2
    · have noCr : cr ∉ line := fun member => (clean cr member).1 rfl
      simp [none, noCr]
  · have found : (line ++ (crlf ++ more)).findIdx? (fun c => c == lf) =
        some (line.length + 1) := by
      have noLf : line.findIdx? (fun c => c == lf) = none := by
        rw [List.findIdx?_eq_none_iff]
        intro c member
        simpa using (clean c member).2
      rw [List.findIdx?_append, noLf]
      simp [crlf, List.findIdx?_cons, cr, lf, Nat.add_comm]
    have before : (line ++ (crlf ++ more))[line.length + 1 - 1]? = some cr := by
      simp [crlf]
    have noCr : ((line ++ (crlf ++ more)).take (line.length + 1 - 1)).contains cr = false := by
      rw [Nat.add_sub_cancel, List.take_left, List.contains_eq_mem, decide_eq_false_iff_not]
      intro member
      exact (clean cr member).1 rfl
    simp only [found, before, noCr]
    simp

theorem line_of_lineEnd {s : Bytes} {start eol : Nat} (found : lineEnd s start = some eol) :
    ∃ line rest, s.drop start = line ++ rest ∧ Clean line ∧ eol = start + line.length ∧
      EndsLine rest := by
  rw [lineEnd] at found
  generalize s.drop start = b at found ⊢
  rcases findIdx?_cases (fun c => c == lf) b with ⟨front, c, back, split, place, before, isLf⟩ |
    ⟨none, absent⟩
  · have same : c = lf := by simpa using isLf
    subst same
    simp only [place] at found
    split at found
    · cases found
    · next holds =>
        simp only [not_or, not_not] at holds
        obtain ⟨some, endsCr, noCr⟩ := holds
        rw [Option.some.injEq] at found
        subst found
        have nonempty : front ≠ [] := by
          rintro rfl
          exact some rfl
        have last := List.dropLast_concat_getLast nonempty
        have size : front.length - 1 = front.dropLast.length := by
          rw [List.length_dropLast]
        have isCr : front.getLast nonempty = cr := by
          rw [split, size, List.getElem?_append_left (by
            rw [List.length_dropLast]
            have pos := List.length_pos_iff.mpr nonempty
            omega)] at endsCr
          rw [List.getLast_eq_getElem]
          rw [List.length_dropLast] at endsCr
          exact (List.getElem?_eq_some_iff.mp endsCr).2
        have taken : b.take (front.length - 1) = front.dropLast := by
          rw [split, List.take_append_of_le_length (Nat.sub_le _ _), List.dropLast_eq_take]
        refine ⟨front.dropLast, crlf ++ back, ?_, ?_, by rw [size], Or.inr ⟨back, rfl⟩⟩
        · rw [split]
          nth_rewrite 1 [← last]
          rw [isCr]
          simp [crlf]
        · intro d member
          refine ⟨?_, ?_⟩
          · rintro rfl
            apply noCr
            rw [taken, List.contains_iff_mem]
            exact member
          · rintro rfl
            have clash := before lf (List.mem_of_mem_dropLast member)
            simp at clash
  · simp only [none] at found
    split at found
    · cases found
    · next noCr =>
        rw [Option.some.injEq] at found
        refine ⟨b, [], (List.append_nil b).symm, ?_, found.symm, Or.inl rfl⟩
        intro d member
        refine ⟨?_, ?_⟩
        · rintro rfl
          exact noCr (List.contains_iff_mem.mpr member)
        · rintro rfl
          have clash := absent lf member
          simp at clash

/-! ## Names -/

/-- The names that make a field, in lower case. -/
def Field.names : Field → List String
  | .other => []
  | .contentLength => ["content-length"]
  | .transferEncoding => ["transfer-encoding"]
  | .contentEncoding => ["content-encoding"]
  | .contentType => ["content-type"]
  | .connection => ["connection"]
  | .keepAlive => ["keep-alive"]
  | .proxyConnection => ["proxy-connection"]
  | .te => ["te"]
  | .trailer => ["trailer"]
  | .upgrade => ["upgrade"]
  | .host => ["host"]
  | .expect => ["expect"]
  | .acceptEncoding => ["accept-encoding"]
  | .authorization => ["authorization"]
  | .xApiKey => ["x-api-key"]
  | .apiKey => ["api-key"]
  | .xGoogApiKey => ["x-goog-api-key"]
  | .anthropicVersion => ["anthropic-version"]
  | .retryAfter => ["retry-after"]
  | .requestId => ["request-id", "x-request-id", "x-amzn-requestid"]
  | .requestsRemaining =>
      ["x-ratelimit-remaining-requests", "anthropic-ratelimit-requests-remaining"]
  | .inputTokensRemaining => ["anthropic-ratelimit-input-tokens-remaining"]
  | .outputTokensRemaining => ["anthropic-ratelimit-output-tokens-remaining"]
  | .tokensRemaining => ["x-ratelimit-remaining-tokens"]
  | .anthropicBeta => ["anthropic-beta"]

theorem sameCi_length {a b : Bytes} (same : sameCi a b = true) : a.length = b.length := by
  have maps : a.map lc = b.map lc := by simpa [sameCi] using same
  simpa using congrArg List.length maps

theorem sameCi_front {a : Byte} {as : Bytes} {b : Byte} {bs : Bytes}
    (same : sameCi (a :: as) (b :: bs) = true) : lc a = lc b := by
  have maps : (a :: as).map lc = (b :: bs).map lc := by simpa [sameCi] using same
  rw [List.map_cons, List.map_cons, List.cons.injEq] at maps
  exact maps.1

theorem named_eq {n : Bytes} {lower : String} {f g : Field} (same : named n lower f = g)
    (listed : g ≠ .other) : f = g ∧ sameCi n (ascii lower) = true := by
  rw [named] at same
  by_cases holds : sameCi n (ascii lower) = true
  · rw [if_pos holds] at same
    exact ⟨same, holds⟩
  · rw [if_neg holds] at same
    exact absurd same.symm listed

/-- Only the letters of a name count, not their case. -/
theorem classify_congr {n m : Bytes} (same : sameCi n m = true) : classify n = classify m := by
  have size := sameCi_length same
  have maps : n.map lc = m.map lc := by simpa [sameCi] using same
  have calls : named n = named m := by
    funext lower f
    rw [named, named, sameCi, sameCi, maps]
  cases n with
  | nil =>
      cases m with
      | nil => rfl
      | cons b bs => cases size
  | cons a as =>
      cases m with
      | nil => cases size
      | cons b bs =>
          unfold classify
          simp only [sameCi_front same, size, calls]

/-- Every listed name makes its field. -/
theorem classify_names (f : Field) : ∀ lower ∈ f.names, classify (ascii lower) = f := by
  cases f <;> simp only [Field.names, List.forall_mem_cons] <;> decide

/-- A name makes a field when it is one of the field's, in any case. -/
theorem classify_eq {n : Bytes} {f : Field} (listed : f ≠ .other) :
    classify n = f ↔ ∃ lower ∈ f.names, sameCi n (ascii lower) = true := by
  constructor
  · intro found
    cases n with
    | nil => exact absurd found.symm listed
    | cons front rest =>
        unfold classify at found
        dsimp only at found
        split at found <;> (try split_ifs at found) <;>
          first
          | exact absurd found.symm listed
          | (obtain ⟨rfl, same⟩ := named_eq found listed
             exact ⟨_, by simp [Field.names], same⟩)
  · rintro ⟨lower, member, same⟩
    rw [classify_congr same]
    exact classify_names f lower member

/-! ## The walk -/

section Walk

variable {σ : Type} (f : σ → HeaderLine → σ × Bool)

/-- Lines in turn, the first at `«at»`, up to one that is refused. -/
def visitLines : (s : σ) → («at» : Nat) → List Bytes → Bool × σ
  | s, _, [] => (true, s)
  | s, «at», line :: rest =>
      match visitLine f s «at» line with
      | (s, false) => (false, s)
      | (s, true) => visitLines s («at» + line.length + 2) rest

theorem visitLines_cons (s : σ) («at» : Nat) (line : Bytes) (rest : List Bytes) :
    visitLines f s «at» (line :: rest) =
      if (visitLine f s «at» line).2 then
        visitLines f (visitLine f s «at» line).1 («at» + line.length + 2) rest
      else (false, (visitLine f s «at» line).1) := by
  rw [visitLines]
  rcases visitLine f s «at» line with ⟨next, ok⟩
  cases ok <;> rfl

theorem walkLoop_lines
    {head : Bytes} {lines : List Bytes} (clean : ∀ line ∈ lines, Clean line)
    (rounds eol : Nat) (s : σ) (inside : eol ≤ head.length)
    (split : head.drop eol = lines.flatMap fun line => crlf ++ line)
    (enough : lines.length < rounds) :
    walkLoop f head rounds eol s = visitLines f s (eol + 2) lines := by
  induction lines generalizing rounds eol s with
  | nil =>
      obtain ⟨rounds, rfl⟩ : ∃ n, rounds = n + 1 := ⟨rounds - 1, by omega⟩
      have past : head.length ≤ eol := by simpa using split
      rw [walkLoop, if_pos past]
      rfl
  | cons line lines inductionHypothesis =>
      obtain ⟨rounds, rfl⟩ : ∃ n, rounds = n + 1 := ⟨rounds - 1, by omega⟩
      have size := congrArg List.length split
      rw [List.length_drop, List.flatMap_cons] at size
      simp only [crlf, List.length_append, List.length_cons, List.length_nil] at size
      have behind : head.drop (eol + 2) =
          line ++ lines.flatMap (fun line => crlf ++ line) := by
        rw [← List.drop_drop, split]
        simp [crlf]
      have ends : EndsLine (lines.flatMap fun line => crlf ++ line) := by
        cases lines with
        | nil => exact Or.inl rfl
        | cons next lines => exact Or.inr ⟨_, by rw [List.flatMap_cons, List.append_assoc]⟩
      have found := lineEnd_of_line behind (clean line List.mem_cons_self) ends
      have taken : substr head (eol + 2) (eol + 2 + line.length - (eol + 2)) = line := by
        rw [substr, behind, Nat.add_sub_cancel_left, List.take_left]
      rw [walkLoop, if_neg (by omega)]
      simp only [found, taken]
      rw [visitLines_cons]
      have next : head.drop (eol + 2 + line.length) =
          lines.flatMap fun line => crlf ++ line := by
        rw [← List.drop_drop, behind, List.drop_left]
      have others := inductionHypothesis
        (fun found member => clean found (List.mem_cons_of_mem line member)) rounds
        (eol + 2 + line.length) (visitLine f s (eol + 2) line).1 (by omega) next
        (by rw [List.length_cons] at enough; omega)
      rcases visited : visitLine f s (eol + 2) line with ⟨next, ok⟩
      rw [visited] at others
      cases ok with
      | false => rfl
      | true => exact others

theorem lines_of_walkLoop
    {head : Bytes} (rounds eol : Nat) (s : σ) (inside : eol ≤ head.length)
    (ok : (walkLoop f head rounds eol s).1 = true)
    (ends : EndsLine (head.drop eol)) :
    ∃ lines : List Bytes, (∀ line ∈ lines, Clean line) ∧
      head.drop eol = lines.flatMap fun line => crlf ++ line := by
  induction rounds generalizing eol s with
  | zero => cases ok
  | succ rounds inductionHypothesis =>
      rw [walkLoop] at ok
      rcases ends with none | ⟨more, ends⟩
      · exact ⟨[], by simp, none⟩
      · have size := congrArg List.length ends
        rw [List.length_drop] at size
        simp only [crlf, List.length_append, List.length_cons, List.length_nil] at size
        rw [if_neg (by omega)] at ok
        have behind : head.drop (eol + 2) = more := by
          rw [← List.drop_drop, ends]
          rfl
        cases found : lineEnd head (eol + 2) with
        | none => simp [found] at ok
        | some next =>
            obtain ⟨line, rest, split, clean, rfl, after⟩ := line_of_lineEnd found
            simp only [found] at ok
            generalize visitLine f s (eol + 2)
              (substr head (eol + 2) (eol + 2 + line.length - (eol + 2))) = visited at ok
            obtain ⟨state, good⟩ := visited
            cases good with
            | false => cases ok
            | true =>
                have rest' : head.drop (eol + 2 + line.length) = rest := by
                  rw [← List.drop_drop, split, List.drop_left]
                have bound : eol + 2 + line.length ≤ head.length := by
                  have sizes := congrArg List.length split
                  rw [List.length_drop, List.length_append] at sizes
                  omega
                obtain ⟨lines, allClean, same⟩ := inductionHypothesis (eol + 2 + line.length)
                  state bound ok (by rwa [rest'])
                refine ⟨line :: lines, ?_, ?_⟩
                · intro found member
                  rcases List.mem_cons.mp member with rfl | member
                  · exact clean
                  · exact allClean found member
                · rw [ends, List.flatMap_cons, ← same, rest', List.append_assoc, ← behind,
                    split]

/-- A head that is clean lines: the walk is the visit of its lines. -/
theorem walkHeaders_join {start : Bytes} {lines : List Bytes}
    (clean : ∀ line ∈ start :: lines, Clean line) (s : σ) :
    walkHeaders f (join start lines) s = visitLines f s (start.length + 2) lines := by
  have ends : EndsLine (lines.flatMap fun line => crlf ++ line) := by
    cases lines with
    | nil => exact Or.inl rfl
    | cons next lines => exact Or.inr ⟨_, by rw [List.flatMap_cons, List.append_assoc]⟩
  have found := @lineEnd_of_line (join start lines) _ _ 0 (by rw [List.drop_zero, join])
    (clean start List.mem_cons_self) ends
  have split : (join start lines).drop start.length =
      lines.flatMap fun line => crlf ++ line := by
    rw [join, List.drop_left]
  have size := congrArg List.length split
  rw [walkHeaders, found, Nat.zero_add]
  refine walkLoop_lines f (fun line member => clean line (List.mem_cons_of_mem _ member)) _ _ s
    ?_ split ?_
  · rw [join, List.length_append]
    omega
  · rw [join, List.length_append]
    have enough : lines.length ≤ (lines.flatMap fun line => crlf ++ line).length := by
      rw [List.length_flatMap]
      have each : lines.length = (lines.map fun _ => 1).sum := by simp
      rw [each]
      apply List.sum_le_sum
      intro line _
      simp [crlf]
    omega

/-- A head that the walk goes through is clean lines. -/
theorem join_of_walkHeaders {head : Bytes} {s : σ} (ok : (walkHeaders f head s).1 = true) :
    ∃ start lines, head = join start lines ∧ ∀ line ∈ start :: lines, Clean line := by
  rw [walkHeaders] at ok
  cases found : lineEnd head 0 with
  | none => simp [found] at ok
  | some eol =>
      obtain ⟨start, rest, split, clean, rfl, ends⟩ := line_of_lineEnd found
      rw [List.drop_zero] at split
      simp only [found, Nat.zero_add] at ok
      have behind : head.drop start.length = rest := by rw [split, List.drop_left]
      obtain ⟨lines, allClean, same⟩ := lines_of_walkLoop f _ _ s
        (by rw [split, List.length_append]; omega) ok (by rwa [behind])
      refine ⟨start, lines, ?_, ?_⟩
      · rw [join, ← same, behind, split]
      · intro line member
        rcases List.mem_cons.mp member with rfl | member
        · exact clean
        · exact allClean line member

/-- What the visitor keeps, the walk keeps, whether it goes through or not. -/
theorem walkHeaders_keeps {P : σ → Prop} (keeps : ∀ s h, P s → P (f s h).1) (head : Bytes)
    {s : σ} (holds : P s) : P (walkHeaders f head s).2 := by
  have line : ∀ s («at» : Nat) line, P s → P (visitLine f s «at» line).1 := by
    intro s «at» line holds
    unfold visitLine
    split
    · exact holds
    · exact keeps s _ holds
  have loop : ∀ rounds eol s, P s → P (walkLoop f head rounds eol s).2 := by
    intro rounds
    induction rounds with
    | zero => exact fun _ _ holds => holds
    | succ rounds inductionHypothesis =>
        intro eol s holds
        rw [walkLoop]
        split
        · exact holds
        · dsimp only
          split
          · exact holds
          · next eol' _ =>
            have visited := line s (eol + 2) (substr head (eol + 2) (eol' - (eol + 2))) holds
            rcases seen : visitLine f s (eol + 2) (substr head (eol + 2) (eol' - (eol + 2)))
              with ⟨next, ok⟩
            rw [seen] at visited
            cases ok with
            | false => exact visited
            | true => exact inductionHypothesis eol' next visited
  unfold walkHeaders
  split
  · exact holds
  · exact loop _ _ s holds

end Walk

end Http
end Llmbridge
