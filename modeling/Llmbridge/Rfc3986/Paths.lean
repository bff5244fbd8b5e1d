import Llmbridge.Rfc8259.Strings

/-!
# Paths of a URI

Section 2 says which bytes stand in a path and which are percent-encoded, and section
5.2.4 how a path loses its dot segments.  A path without dot segments goes through that
algorithm one segment at a time, and nothing of it is ever taken back.
-/

namespace Llmbridge
namespace Rfc3986

open Rfc8259 (Byte Bytes ascii isHex isDigit hexDigitValue)

/-! ## Bytes of a path -/

/-- A letter. -/
def isAlpha (c : Byte) : Bool :=
  (0x41 ≤ c && c ≤ 0x5a) || (0x61 ≤ c && c ≤ 0x7a)

/-- `unreserved`. -/
def isUnreserved (c : Byte) : Bool :=
  isAlpha c || isDigit c || c == 0x2d || c == 0x5f || c == 0x2e || c == 0x7e

/-- `sub-delims`. -/
def isSubDelim (c : Byte) : Bool :=
  c ∈ ascii "!$&'()*+,;="

/-- A byte that stands for itself in a path, its slashes included. -/
def isPathByte (c : Byte) : Bool :=
  isUnreserved c || isSubDelim c || c == 0x3a || c == 0x40 || c == 0x2f

/-- The text of a path: bytes that stand for themselves and percent-encoded octets. -/
inductive PathText : Bytes → Prop
  | nil : PathText []
  | plain {c : Byte} {rest : Bytes} : isPathByte c = true → PathText rest → PathText (c :: rest)
  | encoded {a b : Byte} {rest : Bytes} :
      isHex a = true → isHex b = true → PathText rest → PathText (0x25 :: a :: b :: rest)

theorem PathText.append {first second : Bytes} (one : PathText first) (two : PathText second) :
    PathText (first ++ second) := by
  induction one with
  | nil => exact two
  | plain ok _ inductionHypothesis => exact PathText.plain ok inductionHypothesis
  | encoded ha hb _ inductionHypothesis => exact PathText.encoded ha hb inductionHypothesis

theorem PathText.of_bytes {text : Bytes} (ok : text.all isPathByte = true) : PathText text := by
  induction text with
  | nil => exact PathText.nil
  | cons c rest inductionHypothesis =>
      rw [List.all_cons, Bool.and_eq_true] at ok
      exact PathText.plain ok.1 (inductionHypothesis ok.2)

/-! ## Percent-encoding -/

/-- The octet that a percent sign and what follows it encode. -/
def octet (c : Byte) : Bytes → Option Byte
  | a :: b :: _ =>
      if c = 0x25 ∧ isHex a = true ∧ isHex b = true then
        some (UInt8.ofNat (hexDigitValue a * 16 + hexDigitValue b))
      else none
  | _ => none

/-- A path past its first `skip` bytes, each percent-encoded octet decoded once. -/
def decodeFrom : Nat → Bytes → Bytes
  | _, [] => []
  | skip + 1, _ :: rest => decodeFrom skip rest
  | 0, c :: rest =>
      match octet c rest with
      | some v => v :: decodeFrom 2 rest
      | none => c :: decodeFrom 0 rest

/-- A path, each percent-encoded octet decoded once. -/
def percentDecode (text : Bytes) : Bytes :=
  decodeFrom 0 text

theorem decodeFrom_skip (skip : Nat) (text : Bytes) :
    decodeFrom skip text = percentDecode (text.drop skip) := by
  induction text generalizing skip with
  | nil => cases skip <;> rfl
  | cons c rest inductionHypothesis =>
      cases skip with
      | zero => rfl
      | succ skip => exact inductionHypothesis skip

@[simp] theorem percentDecode_nil : percentDecode [] = [] := rfl

theorem percentDecode_plain {c : Byte} {rest : Bytes} (plain : octet c rest = none) :
    percentDecode (c :: rest) = c :: percentDecode rest := by
  unfold percentDecode
  rw [decodeFrom, plain]

theorem percentDecode_octet {c v : Byte} {rest : Bytes} (encoded : octet c rest = some v) :
    percentDecode (c :: rest) = v :: percentDecode (rest.drop 2) := by
  unfold percentDecode
  rw [decodeFrom, encoded]
  exact congrArg (v :: ·) (decodeFrom_skip 2 rest)

theorem octet_of_ne {c : Byte} (other : c ≠ 0x25) (rest : Bytes) : octet c rest = none := by
  unfold octet
  split
  · exact if_neg fun h => other h.1
  · rfl

theorem percentDecode_of_ne {c : Byte} (other : c ≠ 0x25) (rest : Bytes) :
    percentDecode (c :: rest) = c :: percentDecode rest :=
  percentDecode_plain (octet_of_ne other rest)

/-- A text without percent signs decodes to itself, whatever follows it. -/
theorem percentDecode_append {front : Bytes} (plain : ∀ c ∈ front, c ≠ 0x25) (rest : Bytes) :
    percentDecode (front ++ rest) = front ++ percentDecode rest := by
  induction front with
  | nil => rfl
  | cons c front inductionHypothesis =>
      obtain ⟨first, others⟩ := List.forall_mem_cons.mp plain
      rw [List.cons_append, percentDecode_of_ne first, inductionHypothesis others,
        List.cons_append]

/-- A hexadecimal digit, in upper case. -/
def upperHex (n : Nat) : Byte :=
  if n < 10 then UInt8.ofNat (0x30 + n) else UInt8.ofNat (0x37 + n)

theorem upperHex_digit : ∀ n < 16, isHex (upperHex n) = true ∧ hexDigitValue (upperHex n) = n := by
  decide

/-- One byte of a segment: itself where it is unreserved, else percent-encoded. -/
def encodeByte (c : Byte) : Bytes :=
  if isUnreserved c then [c] else [0x25, upperHex (c.toNat / 16), upperHex (c.toNat % 16)]

/-- A text as one segment. -/
def percentEncode (text : Bytes) : Bytes :=
  text.flatMap encodeByte

theorem octet_encoded (c : Byte) (rest : Bytes) :
    octet 0x25 (upperHex (c.toNat / 16) :: upperHex (c.toNat % 16) :: rest) = some c := by
  have small := c.toNat_lt
  obtain ⟨highHex, high⟩ := upperHex_digit (c.toNat / 16) (by omega)
  obtain ⟨lowHex, low⟩ := upperHex_digit (c.toNat % 16) (by omega)
  have whole : c.toNat / 16 * 16 + c.toNat % 16 = c.toNat := Nat.div_add_mod' c.toNat 16
  rw [octet, if_pos ⟨rfl, highHex, lowHex⟩, high, low, whole, UInt8.ofNat_toNat]

theorem isUnreserved_ne {c : Byte} (unreserved : isUnreserved c = true) : c ≠ 0x25 ∧ c ≠ 0x2f := by
  constructor
  · rintro rfl
    exact absurd unreserved (by decide)
  · rintro rfl
    exact absurd unreserved (by decide)

/-- Decoding undoes encoding, whatever follows. -/
theorem percentDecode_encode (text rest : Bytes) :
    percentDecode (percentEncode text ++ rest) = text ++ percentDecode rest := by
  induction text with
  | nil => rfl
  | cons c text inductionHypothesis =>
      rw [percentEncode, List.flatMap_cons, List.append_assoc, ← percentEncode, encodeByte]
      split
      · next unreserved =>
        rw [List.cons_append, List.nil_append,
          percentDecode_of_ne (isUnreserved_ne unreserved).1, inductionHypothesis]
        rfl
      · simp only [List.cons_append, List.nil_append]
        rw [percentDecode_octet (octet_encoded c _), List.drop_succ_cons, List.drop_succ_cons,
          List.drop_zero, inductionHypothesis]

/-- An encoded text is legal in a path. -/
theorem percentEncode_text (text : Bytes) : PathText (percentEncode text) := by
  induction text with
  | nil => exact PathText.nil
  | cons c text inductionHypothesis =>
      rw [percentEncode, List.flatMap_cons, ← percentEncode, encodeByte]
      split
      · next unreserved =>
        apply PathText.plain _ inductionHypothesis
        rw [isPathByte, unreserved]
        rfl
      · have small := c.toNat_lt
        exact PathText.encoded (upperHex_digit _ (by omega)).1 (upperHex_digit _ (by omega)).1
          inductionHypothesis

theorem upperHex_noSlash : ∀ n < 16, upperHex n ≠ 0x2f := by
  decide

/-- An encoded text is one segment. -/
theorem percentEncode_noSlash (text : Bytes) : (0x2f : Byte) ∉ percentEncode text := by
  induction text with
  | nil => exact List.not_mem_nil
  | cons c text inductionHypothesis =>
      rw [percentEncode, List.flatMap_cons, ← percentEncode, List.mem_append]
      rintro (first | later)
      · rw [encodeByte] at first
        have small := c.toNat_lt
        split at first
        · next unreserved =>
          exact (isUnreserved_ne unreserved).2 (List.mem_singleton.mp first).symm
        · simp only [List.mem_cons, List.not_mem_nil, or_false] at first
          rcases first with percent | high | low
          · exact absurd percent (by decide)
          · exact upperHex_noSlash _ (by omega) high.symm
          · exact upperHex_noSlash _ (by omega) low.symm
      · exact inductionHypothesis later

/-! ## Dot segments -/

/-- The first segment of a path, with the slash ahead of it, and what follows it. -/
def firstSegment : Bytes → Bytes × Bytes
  | [] => ([], [])
  | c :: rest => (c :: rest.takeWhile (· != 0x2f), rest.dropWhile (· != 0x2f))

/-- A path less its last segment and the slash ahead of it. -/
def lessLastSegment (path : Bytes) : Bytes :=
  ((path.reverse.dropWhile (· != 0x2f)).drop 1).reverse

/-- One step of section 5.2.4, on its output buffer and its input buffer. -/
def dotStep (buffers : Bytes × Bytes) : Bytes × Bytes :=
  let (out, path) := buffers
  if (ascii "../").isPrefixOf path then (out, path.drop 3)
  else if (ascii "./").isPrefixOf path then (out, path.drop 2)
  else if (ascii "/./").isPrefixOf path then (out, path.drop 2)
  else if path = ascii "/." then (out, ascii "/")
  else if (ascii "/../").isPrefixOf path then (lessLastSegment out, path.drop 3)
  else if path = ascii "/.." then (lessLastSegment out, ascii "/")
  else if path = ascii "." ∨ path = ascii ".." then (out, [])
  else (out ++ (firstSegment path).1, (firstSegment path).2)

/-- The buffers after some steps, from an empty output buffer. -/
def buffersAfter (steps : Nat) (path : Bytes) : Bytes × Bytes :=
  dotStep^[steps] ([], path)

/-- A path less its dot segments: a step takes at least one byte. -/
def removeDotSegments (path : Bytes) : Bytes :=
  (buffersAfter path.length path).1

/-- No segment of the path is a dot segment, each starting after a slash. -/
def noDots : Bytes → Bool
  | [] => true
  | c :: rest =>
      let segment := rest.takeWhile (· != 0x2f)
      if c = 0x2f ∧ (segment = ascii "." ∨ segment = ascii "..") then false else noDots rest

/-- A path is empty or starts with a slash. -/
def Rooted (path : Bytes) : Prop :=
  path = [] ∨ ∃ rest, path = 0x2f :: rest

theorem noDots_append {front rest : Bytes} (noSlash : (0x2f : Byte) ∉ front) :
    noDots (front ++ rest) = noDots rest := by
  induction front with
  | nil => rfl
  | cons c front inductionHypothesis =>
      obtain ⟨other, others⟩ := List.ne_and_not_mem_of_not_mem_cons noSlash
      rw [List.cons_append, noDots, if_neg fun h => other h.1.symm, inductionHypothesis others]

theorem takeWhile_noSlash (rest : Bytes) : (0x2f : Byte) ∉ rest.takeWhile (· != 0x2f) := by
  intro inside
  exact absurd (List.mem_takeWhile_imp inside) (by decide)

theorem dropWhile_rooted (rest : Bytes) : Rooted (rest.dropWhile (· != 0x2f)) := by
  cases after : rest.dropWhile (· != 0x2f) with
  | nil => exact Or.inl rfl
  | cons c tail =>
      right
      have stops := List.head_dropWhile_not (· != 0x2f) (l := rest)
        (by rw [after]; exact List.cons_ne_nil _ _)
      simp only [after, List.head_cons, bne_eq_false_iff_eq] at stops
      exact ⟨tail, by rw [stops]⟩

/-- A segment is what stands up to the next slash. -/
theorem takeWhile_eq_of_prefix {segment rest : Bytes} (noSlash : (0x2f : Byte) ∉ segment)
    (ends : Rooted rest) : (segment ++ rest).takeWhile (· != 0x2f) = segment := by
  have inside : ∀ c ∈ segment, (c != 0x2f) = true := by
    intro c mem
    exact bne_iff_ne.mpr fun same => noSlash (same ▸ mem)
  rw [List.takeWhile_append_of_pos inside]
  rcases ends with rfl | ⟨tail, rfl⟩
  · rw [List.takeWhile_nil, List.append_nil]
  · rw [List.takeWhile_cons_of_neg (by decide), List.append_nil]

/-- A segment ends where a path that starts with a slash is joined to it. -/
theorem takeWhile_append_rooted {rest : Bytes} (rooted : Rooted rest) (front : Bytes) :
    (front ++ rest).takeWhile (· != 0x2f) = front.takeWhile (· != 0x2f) := by
  induction front with
  | nil => exact takeWhile_eq_of_prefix List.not_mem_nil rooted
  | cons c front inductionHypothesis =>
      rw [List.cons_append, List.takeWhile_cons, List.takeWhile_cons, inductionHypothesis]

/-- Two paths without dot segments make up one, the second of them rooted. -/
theorem noDots_join {first second : Bytes} (one : noDots first = true)
    (two : noDots second = true) (rooted : Rooted second) : noDots (first ++ second) = true := by
  induction first with
  | nil => exact two
  | cons c first inductionHypothesis =>
      rw [noDots] at one
      split at one
      · exact absurd one (by decide)
      · next plain =>
        rw [List.cons_append, noDots, takeWhile_append_rooted rooted, if_neg plain]
        exact inductionHypothesis one

/-- A path with a dot segment has one between slashes, or at its end. -/
theorem dots_of_noDots {path : Bytes} (dotted : noDots path = false) :
    ∃ front segment tail, path = front ++ 0x2f :: (segment ++ tail) ∧
      (segment = ascii "." ∨ segment = ascii "..") ∧ Rooted tail := by
  induction path with
  | nil => exact absurd dotted (by decide)
  | cons c rest inductionHypothesis =>
      rw [noDots] at dotted
      split at dotted
      · next dots =>
        obtain ⟨rfl, which⟩ := dots
        refine ⟨[], _, _, ?_, which, dropWhile_rooted rest⟩
        rw [List.takeWhile_append_dropWhile, List.nil_append]
      · obtain ⟨front, segment, tail, rfl, which, rooted⟩ := inductionHypothesis dotted
        exact ⟨c :: front, segment, tail, rfl, which, rooted⟩

/-- Where no segment is a dot segment, a step moves one segment to the output buffer. -/
theorem dotStep_moves (out : Bytes) {path : Bytes} (rooted : Rooted path)
    (clean : noDots path = true) :
    ∃ moved rest, dotStep (out, path) = (out ++ moved, rest) ∧ path = moved ++ rest ∧
      Rooted rest ∧ noDots rest = true ∧ (path ≠ [] → moved ≠ []) := by
  rcases rooted with rfl | ⟨rest, rfl⟩
  · exact ⟨[], [], rfl, rfl, Or.inl rfl, rfl, fun h => h⟩
  · rw [noDots] at clean
    split at clean
    · exact absurd clean (by decide)
    · next plain =>
      have notDots : ∀ segment tail, rest = segment ++ tail → (0x2f : Byte) ∉ segment →
          Rooted tail → segment ≠ ascii "." ∧ segment ≠ ascii ".." := by
        intro segment tail split noSlash ends
        have taken : rest.takeWhile (· != 0x2f) = segment := by
          rw [split, takeWhile_eq_of_prefix noSlash ends]
        constructor
        · rintro rfl
          exact plain ⟨rfl, Or.inl taken⟩
        · rintro rfl
          exact plain ⟨rfl, Or.inr taken⟩
      have one := notDots (ascii ".")
      have two := notDots (ascii "..")
      have step : dotStep (out, 0x2f :: rest) =
          (out ++ 0x2f :: rest.takeWhile (· != 0x2f), rest.dropWhile (· != 0x2f)) := by
        have parent : ¬ (ascii "../").isPrefixOf (0x2f :: rest) = true := Bool.false_ne_true
        have here : ¬ (ascii "./").isPrefixOf (0x2f :: rest) = true := Bool.false_ne_true
        have alone : ¬ (0x2f :: rest = ascii "." ∨ 0x2f :: rest = ascii "..") := by
          rintro (same | same)
          · exact absurd (List.cons.inj same).1 (by decide)
          · exact absurd (List.cons.inj same).1 (by decide)
        simp only [dotStep]
        rw [if_neg parent, if_neg here, if_neg, if_neg, if_neg, if_neg, if_neg alone]
        · rfl
        · intro same
          exact (two [] (List.cons.inj same).2 (by decide) (Or.inl rfl)).2 rfl
        · intro starts
          obtain ⟨tail, split⟩ := List.isPrefixOf_iff_prefix.mp starts
          exact (two (0x2f :: tail) (List.cons.inj split).2.symm (by decide)
            (Or.inr ⟨tail, rfl⟩)).2 rfl
        · intro same
          exact (one [] (List.cons.inj same).2 (by decide) (Or.inl rfl)).1 rfl
        · intro starts
          obtain ⟨tail, split⟩ := List.isPrefixOf_iff_prefix.mp starts
          exact (one (0x2f :: tail) (List.cons.inj split).2.symm (by decide)
            (Or.inr ⟨tail, rfl⟩)).1 rfl
      refine ⟨_, _, step, ?_, dropWhile_rooted rest, ?_, fun _ => List.cons_ne_nil _ _⟩
      · rw [List.cons_append, List.takeWhile_append_dropWhile]
      · rw [← noDots_append (takeWhile_noSlash rest), List.takeWhile_append_dropWhile]
        exact clean

/-- The two buffers of a path without dot segments always make up the path. -/
theorem buffersAfter_whole {path : Bytes} (rooted : Rooted path) (clean : noDots path = true)
    (steps : Nat) :
    (buffersAfter steps path).1 ++ (buffersAfter steps path).2 = path ∧
      Rooted (buffersAfter steps path).2 ∧ noDots (buffersAfter steps path).2 = true ∧
      (buffersAfter steps path).2.length ≤ path.length - steps := by
  induction steps with
  | zero => exact ⟨rfl, rooted, clean, Nat.le_refl _⟩
  | succ steps inductionHypothesis =>
      obtain ⟨whole, atSlash, free, left⟩ := inductionHypothesis
      have next : buffersAfter (steps + 1) path = dotStep (buffersAfter steps path) :=
        Function.iterate_succ_apply' dotStep steps _
      obtain ⟨moved, rest, step, split, atSlash', free', some_byte⟩ :=
        dotStep_moves (buffersAfter steps path).1 atSlash free
      rw [next, step]
      refine ⟨?_, atSlash', free', ?_⟩
      · rw [List.append_assoc, ← split, whole]
      · have sizes := congrArg List.length split
        rw [List.length_append] at sizes
        by_cases done : (buffersAfter steps path).2 = []
        · have none : (buffersAfter steps path).2.length = 0 := by rw [done]; rfl
          dsimp only
          omega
        · have taken := List.length_pos_of_ne_nil (some_byte done)
          dsimp only
          omega

/-- A path without dot segments is left as it is. -/
theorem removeDotSegments_eq {path : Bytes} (rooted : Rooted path) (clean : noDots path = true) :
    removeDotSegments path = path := by
  obtain ⟨whole, -, -, left⟩ := buffersAfter_whole rooted clean path.length
  rw [Nat.sub_self, Nat.le_zero, List.length_eq_zero_iff] at left
  rw [left, List.append_nil] at whole
  exact whole

/-! ## Paths of segments -/

/-- The path of some segments, a slash ahead of each. -/
def joined (segments : List Bytes) : Bytes :=
  segments.flatMap (0x2f :: ·)

@[simp] theorem joined_cons (segment : Bytes) (segments : List Bytes) :
    joined (segment :: segments) = 0x2f :: segment ++ joined segments := rfl

theorem joined_append (first second : List Bytes) :
    joined (first ++ second) = joined first ++ joined second :=
  List.flatMap_append

theorem joined_rooted (segments : List Bytes) : Rooted (joined segments) := by
  cases segments with
  | nil => exact Or.inl rfl
  | cons segment segments => exact Or.inr ⟨_, rfl⟩

theorem joined_text {segments : List Bytes} (legal : ∀ s ∈ segments, PathText s) :
    PathText (joined segments) := by
  induction segments with
  | nil => exact PathText.nil
  | cons segment segments inductionHypothesis =>
      obtain ⟨first, others⟩ := List.forall_mem_cons.mp legal
      rw [joined_cons, List.cons_append]
      exact PathText.plain (by decide) (first.append (inductionHypothesis others))

/-- A text that stays in its place when it is a segment. -/
def PlainSegment (segment : Bytes) : Prop :=
  (0x2f : Byte) ∉ segment ∧ segment ≠ ascii "." ∧ segment ≠ ascii ".."

theorem noDots_joined {segments : List Bytes} (plain : ∀ s ∈ segments, PlainSegment s) :
    noDots (joined segments) = true := by
  induction segments with
  | nil => rfl
  | cons segment segments inductionHypothesis =>
      obtain ⟨⟨noSlash, notDot, notDots⟩, others⟩ := List.forall_mem_cons.mp plain
      have taken := takeWhile_eq_of_prefix noSlash (joined_rooted segments)
      rw [joined_cons, List.cons_append, noDots, if_neg, noDots_append noSlash,
        inductionHypothesis others]
      rintro ⟨-, dot | dots⟩
      · exact notDot (taken ▸ dot)
      · exact notDots (taken ▸ dots)

/-- Segments that stay in their place make up a path that resolving does not change. -/
theorem removeDotSegments_joined {segments : List Bytes} (plain : ∀ s ∈ segments, PlainSegment s) :
    removeDotSegments (joined segments) = joined segments :=
  removeDotSegments_eq (joined_rooted segments) (noDots_joined plain)

end Rfc3986
end Llmbridge
