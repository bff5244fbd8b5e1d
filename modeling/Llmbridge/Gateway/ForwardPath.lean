import Llmbridge.Gateway.ForwardCorrect
import Llmbridge.Rfc3986.Paths
import Llmbridge.Provider.GeminiTarget

/-!
# The path a request is forwarded to

`build_forward` writes a base path and behind it the client's target.  The target has
neither a dot segment nor a backslash, encoded or not, so whatever decodes the path and
resolves it keeps every segment of the base path.
-/

namespace Llmbridge
namespace Forward

open Rfc8259 (Byte Bytes ascii substr isHex hexDigitValue)
open Rfc3986 (octet percentDecode percentDecode_plain percentDecode_octet Rooted noDots
  buffersAfter removeDotSegments)
open Http1 (find crlf)
open Provider (Venue pathOf)

/-! ## A target past its check -/

theorem hexDigitValue_small : ∀ n < 256, isHex (UInt8.ofNat n) = true →
    hexDigitValue (UInt8.ofNat n) < 16 ∧
      (hexDigitValue (UInt8.ofNat n) = 2 → UInt8.ofNat n = 0x32) ∧
      (hexDigitValue (UInt8.ofNat n) = 5 → UInt8.ofNat n = 0x35) ∧
      (hexDigitValue (UInt8.ofNat n) = 12 → UInt8.ofNat n ||| 0x20 = 0x63) ∧
      (hexDigitValue (UInt8.ofNat n) = 14 → UInt8.ofNat n ||| 0x20 = 0x65) ∧
      (hexDigitValue (UInt8.ofNat n) = 15 → UInt8.ofNat n ||| 0x20 = 0x66) := by
  decide +kernel

/-- The bytes that a checked path never encodes: a dot, a slash and a backslash. -/
def isGuarded (c : Byte) : Bool :=
  c == 0x2e || c == 0x2f || c == 0x5c

/-- No percent-encoded octet of a checked path is a dot, a slash or a backslash. -/
theorem octet_guarded {c v : Byte} {rest : Bytes} (ok : pathOk (c :: rest) = true)
    (encoded : octet c rest = some v) : isGuarded v = false := by
  unfold octet at encoded
  split at encoded
  · next a b more =>
    split at encoded
    · next percent =>
      obtain ⟨rfl, highHex, lowHex⟩ := percent
      have high := hexDigitValue_small a.toNat a.toNat_lt
      have low := hexDigitValue_small b.toNat b.toNat_lt
      rw [UInt8.ofNat_toNat] at high low
      obtain ⟨highSmall, two, five, -, -, -⟩ := high highHex
      obtain ⟨lowSmall, -, -, c, e, f⟩ := low lowHex
      by_contra guarded
      have value : v.toNat = hexDigitValue a * 16 + hexDigitValue b := by
        rw [← Option.some.inj encoded, UInt8.toNat_ofNat']
        exact Nat.mod_eq_of_lt (by omega)
      rw [Bool.not_eq_false, isGuarded, Bool.or_eq_true, Bool.or_eq_true, beq_iff_eq, beq_iff_eq,
        beq_iff_eq] at guarded
      have refused : pathOk (0x25 :: a :: b :: more) = false := by
        rw [pathOk]
        refine if_pos (Or.inr (Or.inl ⟨rfl, Nat.le_add_left 2 _, ?_⟩))
        rcases guarded with (rfl | rfl) | rfl
        · have dot : (0x2e : Byte).toNat = 46 := rfl
          rw [dot] at value
          exact Or.inl ⟨congrArg some (two (by omega)), by simp [e (by omega)]⟩
        · have slash : (0x2f : Byte).toNat = 47 := rfl
          rw [slash] at value
          exact Or.inl ⟨congrArg some (two (by omega)), by simp [f (by omega)]⟩
        · have backslash : (0x5c : Byte).toNat = 92 := rfl
          rw [backslash] at value
          exact Or.inr ⟨congrArg some (five (by omega)), by simp [c (by omega)]⟩
      rw [refused] at ok
      exact absurd ok (by decide)
    · exact absurd encoded (by simp)
  · exact absurd encoded (by simp)

theorem pathOk_tail {c : Byte} {rest : Bytes} (ok : pathOk (c :: rest) = true) :
    pathOk rest = true := by
  rw [pathOk] at ok
  split at ok
  · exact absurd ok (by decide)
  · exact ok

theorem pathOk_drop {text : Bytes} (ok : pathOk text = true) (n : Nat) :
    pathOk (text.drop n) = true := by
  induction n generalizing text with
  | zero => exact ok
  | succ n inductionHypothesis =>
      cases text with
      | nil => exact ok
      | cons c rest => exact inductionHypothesis (pathOk_tail ok)

/-- A dot or a slash of the decoded path stood in the path itself. -/
theorem percentDecode_guarded {text decoded : Bytes} {c : Byte} (ok : pathOk text = true)
    (guarded : isGuarded c = true) (shape : percentDecode text = c :: decoded) :
    ∃ rest, text = c :: rest ∧ percentDecode rest = decoded := by
  cases text with
  | nil => exact absurd shape (by simp)
  | cons d rest =>
      cases encoded : octet d rest with
      | some v =>
          rw [percentDecode_octet encoded] at shape
          have other := octet_guarded ok encoded
          rw [(List.cons.inj shape).1, guarded] at other
          exact absurd other (by decide)
      | none =>
          rw [percentDecode_plain encoded] at shape
          obtain ⟨rfl, same⟩ := List.cons.inj shape
          exact ⟨rest, rfl, same⟩

theorem percentDecode_eq_nil {text : Bytes} (empty : percentDecode text = []) : text = [] := by
  cases text with
  | nil => rfl
  | cons c rest =>
      cases encoded : octet c rest with
      | some v =>
          rw [percentDecode_octet encoded] at empty
          exact absurd empty (List.cons_ne_nil _ _)
      | none =>
          rw [percentDecode_plain encoded] at empty
          exact absurd empty (List.cons_ne_nil _ _)

/-- What starts with a slash when decoded starts with one. -/
theorem rooted_of_decoded {text : Bytes} (ok : pathOk text = true)
    (rooted : Rooted (percentDecode text)) : Rooted text := by
  rcases rooted with empty | ⟨decoded, shape⟩
  · exact Or.inl (percentDecode_eq_nil empty)
  · obtain ⟨rest, split, -⟩ := percentDecode_guarded ok (by decide) shape
    exact Or.inr ⟨rest, split⟩

/-- A first segment of dots is the same before decoding. -/
theorem dots_of_decoded {text tail : Bytes} (ok : pathOk text = true) {dots : Bytes}
    (which : dots = ascii "." ∨ dots = ascii "..") (shape : percentDecode text = dots ++ tail)
    (rooted : Rooted tail) : ∃ rest, text = dots ++ rest ∧ Rooted rest := by
  have dot : isGuarded 0x2e = true := by decide
  rcases which with rfl | rfl
  · obtain ⟨rest, rfl, decoded⟩ := percentDecode_guarded ok dot shape
    exact ⟨rest, rfl, rooted_of_decoded (pathOk_tail ok) (decoded ▸ rooted)⟩
  · obtain ⟨more, rfl, decoded⟩ := percentDecode_guarded ok dot shape
    obtain ⟨rest, rfl, decoded'⟩ := percentDecode_guarded (pathOk_tail ok) dot decoded
    exact ⟨rest, rfl, rooted_of_decoded (pathOk_tail (pathOk_tail ok)) (decoded' ▸ rooted)⟩

/-- A checked path decodes to one without dot segments and without backslashes. -/
theorem pathOk_decoded (size : Nat) {text : Bytes} (small : text.length ≤ size)
    (ok : pathOk text = true) :
    noDots (percentDecode text) = true ∧ (0x5c : Byte) ∉ percentDecode text := by
  induction size generalizing text with
  | zero =>
      rw [List.length_eq_zero_iff.mp (Nat.le_zero.mp small)]
      exact ⟨rfl, List.not_mem_nil⟩
  | succ size inductionHypothesis =>
      cases text with
      | nil => exact ⟨rfl, List.not_mem_nil⟩
      | cons c rest =>
          rw [List.length_cons] at small
          have step : ∀ d decoded, percentDecode (c :: rest) = d :: decoded → d ≠ 0x5c →
              (d = 0x2f → ∀ dots, dots = ascii "." ∨ dots = ascii ".." →
                decoded.takeWhile (· != 0x2f) ≠ dots) →
              noDots decoded = true ∧ (0x5c : Byte) ∉ decoded →
              noDots (percentDecode (c :: rest)) = true ∧
                (0x5c : Byte) ∉ percentDecode (c :: rest) := by
            rintro d decoded shape other plain ⟨free, clean⟩
            rw [shape]
            constructor
            · rw [noDots, if_neg, free]
              rintro ⟨slash, dots | dots⟩
              · exact plain slash _ (Or.inl rfl) dots
              · exact plain slash _ (Or.inr rfl) dots
            · rw [List.mem_cons]
              rintro (same | member)
              · exact other same.symm
              · exact clean member
          cases encoded : octet c rest with
          | some v =>
              have other := octet_guarded ok encoded
              apply step v _ (percentDecode_octet encoded)
              · rintro rfl
                exact absurd other (by decide)
              · rintro rfl
                exact absurd other (by decide)
              · exact inductionHypothesis (by rw [List.length_drop]; omega)
                  (pathOk_drop (pathOk_tail ok) 2)
          | none =>
              have refused := ok
              rw [pathOk] at refused
              split at refused
              · exact absurd refused (by decide)
              next passes =>
              apply step c _ (percentDecode_plain encoded)
              · exact fun backslash => passes (Or.inl backslash)
              · rintro slash dots which taken
                have shape : percentDecode rest =
                    dots ++ (percentDecode rest).dropWhile (· != 0x2f) := by
                  rw [← taken, List.takeWhile_append_dropWhile]
                obtain ⟨tail, split, rooted⟩ := dots_of_decoded (pathOk_tail ok) which shape
                  (Rfc3986.dropWhile_rooted _)
                have noSlash : (0x2f : Byte) ∉ dots := by
                  rcases which with rfl | rfl <;> decide
                have segment : rest.takeWhile (· != 0x2f) = dots := by
                  rw [split, Rfc3986.takeWhile_eq_of_prefix noSlash rooted]
                exact passes (Or.inr (Or.inr ⟨slash, by rw [segment]; exact which⟩))
              · exact inductionHypothesis (by omega) (pathOk_tail ok)

/-! ## The request line -/

/-- The parts of a request line that is split. -/
theorem originForm_parts {rl method target version : Bytes}
    (form : originForm rl = some (method, target, version)) :
    (∃ word, method = word ++ [0x20] ∧ (0x20 : Byte) ∉ word) ∧ (0x20 : Byte) ∉ target ∧
      ∃ rest, target = 0x2f :: rest := by
  unfold originForm at form
  rcases Http.findIdx?_cases (fun c => c == 0x20) rl with
    ⟨word, space, back, split, found, before, isSpace⟩ | ⟨none, -⟩
  · rw [found] at form
    rw [beq_iff_eq] at isSpace
    subst isSpace
    have whole : rl = word ++ [0x20] ++ back := by rw [split, List.append_assoc]; rfl
    have sized : (word ++ [0x20]).length = word.length + 1 := List.length_append
    have behind : rl.drop (word.length + 1) = back := by
      rw [whole, ← sized, List.drop_left]
    have ahead : rl.take (word.length + 1) = word ++ [0x20] := by
      rw [whole, ← sized, List.take_left]
    simp only [behind, ahead] at form
    rcases Http.findIdx?_cases (fun c => c == 0x20) back with
      ⟨text, space, more, split', found', before', -⟩ | ⟨none, -⟩
    · rw [found'] at form
      dsimp only at form
      split at form
      · exact absurd form (by simp)
      · next origin =>
        obtain ⟨some_byte, slash⟩ := not_or.mp origin
        rw [Option.some.injEq, Prod.mk.injEq, Prod.mk.injEq] at form
        obtain ⟨rfl, isTarget, -⟩ := form
        have taken : target = text := by
          rw [← isTarget, substr, behind, split', List.take_left]
        have absent : ∀ part : Bytes, (∀ x ∈ part, (x == 0x20) = false) → (0x20 : Byte) ∉ part :=
          fun part other member => absurd (other _ member) (by decide)
        refine ⟨⟨word, rfl, absent word before⟩, taken ▸ absent text before', ?_⟩
        have first : (rl.drop (word.length + 1))[0]? = some 0x2f := by
          rw [List.getElem?_drop]
          exact not_not.mp slash
        cases text with
        | nil => exact absurd rfl some_byte
        | cons c rest =>
            rw [behind, split', List.cons_append, List.getElem?_cons_zero, Option.some.injEq]
              at first
            exact ⟨rest, by rw [taken, first]⟩
    · rw [none] at form
      exact absurd form (by simp)
  · rw [none] at form
    exact absurd form (by simp)

theorem findIdx?_space {front : Bytes} (noSpace : (0x20 : Byte) ∉ front) (rest : Bytes) :
    (front ++ 0x20 :: rest).findIdx? (fun c => c == 0x20) = some front.length := by
  induction front with
  | nil => rfl
  | cons c front inductionHypothesis =>
      obtain ⟨other, later⟩ := List.ne_and_not_mem_of_not_mem_cons noSpace
      have differs : (c == 0x20) = false := beq_false_of_ne other.symm
      rw [List.cons_append, List.findIdx?_cons, differs, inductionHypothesis later]
      rfl

/-- A request line of three parts is split into them. -/
theorem originForm_of {word path : Bytes} (noSpace : (0x20 : Byte) ∉ word)
    (pathNoSpace : (0x20 : Byte) ∉ 0x2f :: path) (version : Bytes) :
    originForm (word ++ [0x20] ++ 0x2f :: path ++ ascii " " ++ version) =
      some (word ++ [0x20], 0x2f :: path, version) := by
  have whole : word ++ [0x20] ++ 0x2f :: path ++ ascii " " ++ version =
      word ++ 0x20 :: (0x2f :: path ++ 0x20 :: version) := by
    simp only [List.append_assoc]
    rfl
  have sized : (word ++ [0x20]).length = word.length + 1 := List.length_append
  have split : word ++ 0x20 :: (0x2f :: path ++ 0x20 :: version) =
      word ++ [0x20] ++ (0x2f :: path ++ 0x20 :: version) := by
    rw [List.append_assoc]
    rfl
  have behind : (word ++ 0x20 :: (0x2f :: path ++ 0x20 :: version)).drop (word.length + 1) =
      0x2f :: path ++ 0x20 :: version := by
    rw [split, ← sized, List.drop_left]
  have ahead : (word ++ 0x20 :: (0x2f :: path ++ 0x20 :: version)).take (word.length + 1) =
      word ++ [0x20] := by
    rw [split, ← sized, List.take_left]
  have atSlash : (word ++ 0x20 :: (0x2f :: path ++ 0x20 :: version))[word.length + 1]? =
      some 0x2f := by
    have first := congrArg (fun text : Bytes => text[0]?) behind
    rwa [List.getElem?_drop, Nat.add_zero] at first
  have last : (word ++ 0x20 :: (0x2f :: path ++ 0x20 :: version)).drop
      (word.length + 1 + (0x2f :: path).length + 1) = version := by
    rw [Nat.add_assoc, ← List.drop_drop, behind, ← List.drop_drop, List.drop_left]
    rfl
  rw [whole]
  unfold originForm
  rw [findIdx?_space noSpace]
  dsimp only
  rw [behind, findIdx?_space pathNoSpace]
  dsimp only
  rw [if_neg, ahead, substr, behind, List.take_left, last]
  · rw [atSlash]
    rintro (empty | other)
    · exact absurd empty (by simp)
    · exact other rfl

/-- What `build_forward` writes starts with the request line, whatever its head. -/
theorem buildForward_front {msg : Bytes} {headerLen : Nat} {f : HeadFacts} {strip : List Bytes}
    {hostHdr basePath body : Bytes} {declared : Nat} {key : NamedKey} {beta pathModel : Bytes}
    {venue : Venue} {vertexProject out : Bytes}
    (built : buildForward msg headerLen f strip hostHdr basePath body declared key beta pathModel
      venue vertexProject = (none, out)) :
    ∃ method target version forwarded,
      originForm ((headOf msg headerLen).take (lineEndOf (headOf msg headerLen))) =
        some (method, target, version) ∧
      targetPathOk target = true ∧
      forwardTarget target pathModel venue vertexProject = some forwarded ∧
      method ++ basePath ++ forwarded ++ ascii " " ++ forwardVersion version ++ crlf <+: out := by
  rcases buildForward_cases msg headerLen f strip hostHdr basePath body declared key beta
    pathModel venue vertexProject with
    ⟨why, refused⟩ | ⟨clientBeta, token, method, target, version, forwarded, c, through, closed⟩
  · rw [refused] at built
    cases built
  · rw [closed, Prod.mk.injEq] at built
    obtain ⟨-, rfl⟩ := built
    refine ⟨method, target, version, forwarded, through.form, through.path, through.place, ?_⟩
    -- Copying only adds to what is written.
    have walked := Http.walkHeaders_keeps
      (copyLine (headOf msg headerLen)
        ⟨hostHdr, strip, !key.isEmpty, !token.isEmpty, listedIn msg f⟩)
      (P := fun c => method ++ basePath ++ forwarded ++ ascii " " ++ forwardVersion version ++
        crlf <+: c.into)
      (by
        intro c h holds
        unfold copyLine
        split
        · dsimp only
          split
          · exact holds.trans (List.prefix_append _ _)
          · exact holds
        · exact holds)
      (headOf msg headerLen)
      (s := ⟨method ++ basePath ++ forwarded ++ ascii " " ++ forwardVersion version ++ crlf ++
          ended (added hostHdr f.contentLength declared key clientBeta token),
        lineEndOf (headOf msg headerLen) + 2⟩)
      (List.prefix_append _ _)
    rw [through.walk] at walked
    split
    · simp only [List.append_assoc] at walked ⊢
      exact walked.trans (List.prefix_append _ _)
    · simp only [List.append_assoc] at walked ⊢
      exact walked.trans (List.prefix_append _ _)

/-! ## The base path -/

/-- A base path: what `normalize_base_path` gives. -/
structure BasePath (path : Bytes) : Prop where
  rooted : Rooted path
  bytes : ∀ c ∈ path, isPathChar c = true
  noDots : noDots path = true

theorem basePath_nil : BasePath [] :=
  ⟨Or.inl rfl, fun _ member => absurd member List.not_mem_nil, rfl⟩

/-- A path less the slashes at its end starts with a slash still, or is empty. -/
theorem rdropWhile_rooted {given : Bytes} (slash : given.head? = some 0x2f) :
    Rooted (given.rdropWhile (· == 0x2f)) := by
  obtain ⟨tail, ends⟩ := List.rdropWhile_prefix (· == 0x2f) (l := given)
  cases kept : given.rdropWhile (· == 0x2f) with
  | nil => exact Or.inl rfl
  | cons c rest =>
      rw [kept, List.cons_append] at ends
      rw [← ends, List.head?_cons, Option.some.injEq] at slash
      exact Or.inr ⟨rest, by rw [slash]⟩

theorem normalizeBasePath_ok {given path : Bytes} (normal : normalizeBasePath given = .ok path) :
    BasePath path := by
  unfold normalizeBasePath at normal
  dsimp only at normal
  split at normal
  · cases normal
    exact basePath_nil
  split at normal
  · cases normal
  next slash =>
  split at normal
  · cases normal
  split at normal
  · cases normal
  next bytes =>
  split at normal
  · cases normal
  next plain =>
  cases normal
  rw [Bool.not_eq_false, List.all_eq_true] at bytes
  refine ⟨rdropWhile_rooted (not_not.mp slash), bytes, ?_⟩
  simp only [not_or, Http.find_isSome_iff, List.isSuffixOf_iff_suffix] at plain
  obtain ⟨-, noDot, noDots', noLastDot, noLastDots⟩ := plain
  by_contra dotted
  obtain ⟨front, segment, tail, split, which, rooted⟩ :=
    Rfc3986.dots_of_noDots (Bool.eq_false_of_not_eq_true dotted)
  rw [split] at noDot noDots' noLastDot noLastDots
  rcases rooted with rfl | ⟨rest, rfl⟩
  · rw [List.append_nil] at noLastDot noLastDots
    rcases which with rfl | rfl
    · exact noLastDot (List.suffix_append front _)
    · exact noLastDots (List.suffix_append front _)
  · rcases which with rfl | rfl
    · exact noDot ⟨front, rest, List.append_assoc _ _ _⟩
    · exact noDots' ⟨front, rest, List.append_assoc _ _ _⟩

/-- Decoded once and resolved, a base path with a client's target behind it keeps every
segment: all along, what section 5.2.4 has put out and what it still reads make up the
base path and the decoded target. -/
structure StaysUnder (basePath target : Bytes) : Prop where
  path : pathOf (basePath ++ target) = basePath ++ pathOf target
  decoded : percentDecode (basePath ++ pathOf target) = basePath ++ percentDecode (pathOf target)
  behind : ∃ rest, percentDecode (pathOf target) = 0x2f :: rest
  noBackslash : (0x5c : Byte) ∉ percentDecode (basePath ++ pathOf target)
  kept : ∀ steps, (buffersAfter steps (percentDecode (basePath ++ pathOf target))).1 ++
      (buffersAfter steps (percentDecode (basePath ++ pathOf target))).2 =
    basePath ++ percentDecode (pathOf target)
  resolved : removeDotSegments (percentDecode (basePath ++ pathOf target)) =
    basePath ++ percentDecode (pathOf target)

/-- The bytes of a base path are none of those that end it or that are decoded. -/
theorem basePath_bytes {basePath : Bytes} (base : BasePath basePath) (c : Byte)
    (other : isPathChar c = false) : c ∉ basePath := by
  intro member
  rw [base.bytes c member] at other
  exact absurd other (by decide)

/-- A target that passes its check stays under any base path. -/
theorem staysUnder {basePath target : Bytes} (base : BasePath basePath)
    (slash : ∃ rest, target = 0x2f :: rest) (ok : targetPathOk target = true) :
    StaysUnder basePath target := by
  have noMark := basePath_bytes base 0x3f (by decide)
  have noPercent : ∀ c ∈ basePath, c ≠ 0x25 := by
    rintro c member rfl
    exact basePath_bytes base 0x25 (by decide) member
  have decoded := Rfc3986.percentDecode_append noPercent (pathOf target)
  obtain ⟨free, clean⟩ := pathOk_decoded (pathOf target).length (Nat.le_refl _) ok
  have behind : ∃ rest, percentDecode (pathOf target) = 0x2f :: rest := by
    obtain ⟨rest, rfl⟩ := slash
    exact ⟨_, Rfc3986.percentDecode_of_ne (by decide) _⟩
  have rootedTarget : Rooted (percentDecode (pathOf target)) := Or.inr behind
  have rooted : Rooted (basePath ++ percentDecode (pathOf target)) := by
    rcases base.rooted with rfl | ⟨rest, rfl⟩
    · exact rootedTarget
    · exact Or.inr ⟨_, rfl⟩
  have noDotsAll := Rfc3986.noDots_join base.noDots free rootedTarget
  constructor
  · exact Provider.pathOf_append noMark target
  · exact decoded
  · exact behind
  · rw [decoded]
    exact List.not_mem_append (basePath_bytes base 0x5c (by decide)) clean
  · intro steps
    rw [decoded]
    exact (Rfc3986.buffersAfter_whole rooted noDotsAll steps).1
  · rw [decoded]
    exact Rfc3986.removeDotSegments_eq rooted noDotsAll

/-- A forwarded target stays under the venue's base path. -/
theorem buildForward_underBase {given basePath : Bytes}
    (normal : normalizeBasePath given = .ok basePath) {venue : Venue}
    (other : (Provider.spec venue).wire ≠ .gemini)
    {msg : Bytes} {headerLen : Nat} {f : HeadFacts} {strip : List Bytes}
    {hostHdr body : Bytes} {declared : Nat} {key : NamedKey} {beta pathModel : Bytes}
    {vertexProject out : Bytes}
    (built : buildForward msg headerLen f strip hostHdr basePath body declared key beta pathModel
      venue vertexProject = (none, out)) :
    ∃ method target version line,
      originForm ((headOf msg headerLen).take (lineEndOf (headOf msg headerLen))) =
        some (method, target, version) ∧
      line ++ crlf <+: out ∧
      originForm line = some (method, basePath ++ target, forwardVersion version) ∧
      StaysUnder basePath target := by
  obtain ⟨method, target, version, forwarded, form, ok, place, written⟩ :=
    buildForward_front built
  rw [forwardTarget, if_pos other, Option.some.injEq] at place
  subst place
  have base := normalizeBasePath_ok normal
  obtain ⟨⟨word, rfl, noSpace⟩, targetNoSpace, rest, slash⟩ := originForm_parts form
  have pathNoSpace : (0x20 : Byte) ∉ basePath ++ target :=
    List.not_mem_append (basePath_bytes base 0x20 (by decide)) targetNoSpace
  obtain ⟨path, shape⟩ : ∃ path, basePath ++ target = 0x2f :: path := by
    rcases base.rooted with rfl | ⟨tail, rfl⟩
    · exact ⟨rest, slash⟩
    · exact ⟨tail ++ target, rfl⟩
  refine ⟨_, target, version, _, form, written, ?_, staysUnder base ⟨rest, slash⟩ ok⟩
  rw [shape] at pathNoSpace
  rw [List.append_assoc (word ++ [0x20]), shape]
  exact originForm_of noSpace pathNoSpace _

/-- A request for a path with an encoded octet and a query of dots. -/
def dottedRequest : Bytes :=
  ascii "POST /v1/%7Ea?q=/../ HTTP/1.1\r\nHost: c\r\n\r\n"

theorem buildForward_underBase_dotted :
    ∃ method target version line,
      originForm ((headOf dottedRequest 42).take (lineEndOf (headOf dottedRequest 42))) =
        some (method, target, version) ∧
      line ++ crlf <+:
        ascii "POST /base/v1/%7Ea?q=/../ HTTP/1.1\r\nHost: venue\r\nContent-Length: 2\r\n\r\nxx" ∧
      originForm line = some (method, ascii "/base" ++ target, forwardVersion version) ∧
      StaysUnder (ascii "/base") target :=
  @buildForward_underBase (ascii "/base/") (ascii "/base") (by rfl) .anthropic (by decide)
    dottedRequest 42 {} [] (ascii "venue") (ascii "xx") 2 {} [] [] [] _ (by rfl)

end Forward
end Llmbridge
