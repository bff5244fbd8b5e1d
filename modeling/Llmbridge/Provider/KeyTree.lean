import Llmbridge.Provider.KeyMatches

/-!
# Key-anchored scans of a JSON text

On a text of the grammar a scan that looks for keys by their text, in a window at the
end of it, takes exactly the members of the tree with such a key and an object: text
inside a string is never taken for a key.
-/

namespace Llmbridge
namespace JsonScan

open Rfc8259
open Scanning (Matcher)

variable {τ : Type} (names : KeyNames τ)

/-! ## The members a scan is for -/

/-- What a key tells that is one of `names`. -/
def KeyNames.named (key : Bytes) : Option τ :=
  (names.list.find? fun name => name.1 == key).map Prod.snd

/-- What the key before an item tells; an element of an array has none. -/
def KeyNames.ofHead : {kind : Kind} → Head kind → Option τ
  | .array, _ => none
  | .object, key => names.named (Key.name key).bytes

/-- What the item behind the separator at `sep` adds: itself, when its key is one of
`names`, its value is an object and the separator is in the window, or else what is
`inside` it. -/
def KeyNames.ofItem {kind : Kind} (lo sep : Nat) (head : Head kind) (value : Json)
    (inside : List (τ × Bytes)) : List (τ × Bytes) :=
  match names.ofHead head with
  | none => inside
  | some tag => if lo ≤ sep ∧ value.isObject then [(tag, value.render)] else inside

mutual

/-- The members under `names` in a value whose text begins at `start`, in document
order, with the text of their objects.  A member whose separator is at `lo` or later is
taken whole; what its object holds is not looked for. -/
def KeyNames.inValue (lo : Nat) : (start : Nat) → Json → List (τ × Bytes)
  | start, .full _ items => KeyNames.inItems lo start (start + 1) items
  | _, .lit _ => []
  | _, .number _ => []
  | _, .string _ => []
  | _, .empty _ _ => []

/-- Those in the items that begin at `start`, behind the bracket or comma at `sep`. -/
def KeyNames.inItems (lo : Nat) : {kind : Kind} → (sep start : Nat) → Items kind →
    List (τ × Bytes)
  | _, sep, start, .last head pre value _ =>
      names.ofItem lo sep head value
        (KeyNames.inValue lo (start + head.render.length + pre.bytes.length) value)
  | _, sep, start, .cons head pre value post rest =>
      names.ofItem lo sep head value
          (KeyNames.inValue lo (start + head.render.length + pre.bytes.length) value) ++
        KeyNames.inItems lo
          (start + head.render.length + pre.bytes.length + value.render.length +
            post.bytes.length)
          (start + head.render.length + pre.bytes.length + value.render.length +
            post.bytes.length + 1) rest

end

/-! ## Places where no key stands -/

/-- The bytes of a located text. -/
theorem Located.byte {b bytes : Bytes} {i r : Nat} (located : Located b i bytes)
    (small : r < bytes.length) : b[i + r]? = some bytes[r] := by
  obtain ⟨rest, shape⟩ := located
  rw [← List.getElem?_drop, shape, List.getElem?_append_left small,
    List.getElem?_eq_getElem small]

/-- No object under one of `names` has its key at `p`. -/
def KeyNames.Misses (b : Bytes) (p : Nat) : Prop :=
  ∀ sep value stop name, ¬ ObjectAt names b sep p value stop name

section Misses

variable {names} {b : Bytes} {p : Nat}

/-- Only a quote ends a key. -/
theorem misses_other {c : Byte} (byte : b[p]? = some c) (notQuote : c ≠ 0x22) :
    names.Misses b p := by
  intro sep value stop name object
  have quote := object.text.head
  rw [byte, Option.some.injEq] at quote
  exact notQuote quote

/-- A quote behind a backslash is no key's. -/
theorem misses_escaped (slash : b[p]? = some 0x5c) : names.Misses b (p + 1) := by
  intro sep value stop name object
  have lead := object.key.lead
  have sep_lt := object.key.sep_lt
  by_cases here : sep = p
  · subst here
    rcases object.key.before with byte | byte
    · rw [slash] at byte
      exact absurd byte (by decide)
    · rw [slash] at byte
      exact absurd byte (by decide)
  · obtain ⟨c, byte, ws⟩ := lead.each p (by omega) (by omega)
    rw [slash, Option.some.injEq] at byte
    rw [← byte] at ws
    exact absurd ws (by decide)

/-- A quote with no letter behind it is no key's. -/
theorem misses_closing (next : ∀ c, b[p + 1]? = some c → isLetter c = false) :
    names.Misses b p := by
  intro sep value stop name object
  obtain ⟨some, letters⟩ := names.letters name object.member
  obtain ⟨c, rest, shape⟩ := List.exists_cons_of_ne_nil some
  have text := object.text
  rw [quoted, shape] at text
  have letter := letters c (by rw [shape]; exact List.mem_cons_self)
  rw [next c text.tail.head] at letter
  exact Bool.noConfusion letter

/-- A name of letters is the contents of a string. -/
theorem isChars_letters {s : Bytes} (letters : ∀ c ∈ s, isLetter c = true) : IsChars s := by
  induction s with
  | nil => exact .nil
  | cons c rest inductionHypothesis =>
      refine .plain c rest ?_ (inductionHypothesis fun d member =>
        letters d (List.mem_cons_of_mem c member))
      have letter := letters c List.mem_cons_self
      have notQuote := isLetter_ne letter (show isLetter 0x22 = false by decide)
      have notSlash := isLetter_ne letter (show isLetter 0x5c = false by decide)
      simp only [isLetter, Bool.or_eq_true, Bool.and_eq_true, decide_eq_true_eq,
        UInt8.le_iff_toNat_le] at letter
      simp only [isPlain, Bool.and_eq_true, bne_iff_ne, decide_eq_true_eq,
        UInt8.le_iff_toNat_le]
      exact ⟨⟨notQuote, notSlash⟩, by grind⟩

/-- Where a string stands, the only key is its contents. -/
theorem name_of_string {chars : Chars} {name : Bytes} (letters : ∀ c ∈ name, isLetter c = true)
    (located : Located b p (quoted chars.bytes)) (text : Located b p (quoted name)) :
    name = chars.bytes := by
  have close := stringClose_chars chars located.tail
  have close' := stringClose_chars ⟨name, isChars_letters letters⟩ text.tail
  rw [close, Option.some.injEq, Nat.add_left_cancel_iff] at close'
  have one := located.tail.split.1.substr
  have two := text.tail.split.1.substr
  dsimp only at close'
  rw [← one, ← two, close']

/-- A string without a colon behind it is no key. -/
theorem misses_string {chars : Chars} (located : Located b p (quoted chars.bytes))
    (behind : b[skipWs b (p + (quoted chars.bytes).length)]? ≠ some 0x3a) :
    names.Misses b p := by
  intro sep value stop name object
  have same := name_of_string (names.letters name object.member).2 located object.text
  obtain ⟨c, run, colon, -⟩ := object.key.colon
  have toColon : skipWs b (p + (quoted name.1).length) = c := skipWs_eq run (by
    intro d byte
    rw [colon, Option.some.injEq] at byte
    rw [← byte]
    decide)
  rw [← same, toColon] at behind
  exact behind colon

/-- A quote inside a string's contents is escaped. -/
theorem quote_escaped {s : Bytes} (chars : IsChars s) :
    ∀ k : Nat, s[k]? = some 0x22 → ∃ j, k = j + 1 ∧ s[j]? = some 0x5c := by
  induction chars with
  | nil => simp
  | plain c rest plain _ inductionHypothesis =>
      intro k quote
      cases k with
      | zero =>
          rw [List.getElem?_cons_zero, Option.some.injEq] at quote
          rw [quote] at plain
          exact absurd plain (by decide)
      | succ k =>
          obtain ⟨j, rfl, slash⟩ := inductionHypothesis k quote
          exact ⟨j + 1, rfl, slash⟩
  | escape c rest escape _ inductionHypothesis =>
      intro k quote
      cases k with
      | zero => exact absurd quote (by simp)
      | succ k =>
          cases k with
          | zero => exact ⟨0, rfl, rfl⟩
          | succ k =>
              obtain ⟨j, rfl, slash⟩ := inductionHypothesis k quote
              exact ⟨j + 2, rfl, slash⟩
  | unicode a b c d rest hexA hexB hexC hexD _ inductionHypothesis =>
      have notQuote : ∀ {h : Byte}, isHex h = true → h ≠ 0x22 := by
        rintro h hex rfl
        exact absurd hex (by decide)
      intro k quote
      rcases k with _ | _ | _ | _ | _ | _ | k
      · exact absurd quote (by simp)
      · exact ⟨0, rfl, rfl⟩
      · exact absurd (Option.some.inj quote) (notQuote hexA)
      · exact absurd (Option.some.inj quote) (notQuote hexB)
      · exact absurd (Option.some.inj quote) (notQuote hexC)
      · exact absurd (Option.some.inj quote) (notQuote hexD)
      · obtain ⟨j, rfl, slash⟩ := inductionHypothesis k quote
        exact ⟨j + 6, rfl, slash⟩

/-- Past its opening quote a string holds no key. -/
theorem misses_inString {chars : Chars} {i : Nat} (located : Located b i (quoted chars.bytes))
    (next : ∀ c, b[i + (quoted chars.bytes).length]? = some c → isLetter c = false)
    (inside : i < p) (before : p < i + (quoted chars.bytes).length) : names.Misses b p := by
  have size : (quoted chars.bytes).length = chars.bytes.length + 2 := by
    simp [quoted]
  rw [size] at before next
  have contents : ∀ k, k < chars.bytes.length → b[i + 1 + k]? = chars.bytes[k]? := by
    intro k small
    rw [Located.byte located.tail.split.1 small, List.getElem?_eq_getElem small]
  obtain ⟨k, rfl⟩ : ∃ k, p = i + 1 + k := ⟨p - (i + 1), by omega⟩
  by_cases closing : k = chars.bytes.length
  · apply misses_closing
    intro c byte
    apply next c
    rwa [show i + (chars.bytes.length + 2) = i + 1 + k + 1 by omega]
  · have small : k < chars.bytes.length := by omega
    by_cases quote : chars.bytes[k]? = some 0x22
    · obtain ⟨j, rfl, slash⟩ := quote_escaped chars.ok k quote
      rw [← Nat.add_assoc]
      apply misses_escaped
      rw [contents j (by omega), slash]
    · have byte := List.getElem?_eq_getElem small
      apply misses_other ((contents k small).trans byte)
      rintro same
      rw [same] at byte
      exact quote byte

end Misses

/-! ## The window -/

/-- The scan of the end of `b` from `lo` on. -/
def KeyNames.window (b : Bytes) (lo : Nat) : Matcher (τ × Bytes) :=
  names.matcher (fun _ _ tag object => (tag, object)) (part b lo b.length)

/-- A window is hit where its part is. -/
theorem KeyNames.window_hit (b : Bytes) (lo : Nat) :
    (names.window b lo).hit =
      names.hit (fun _ _ tag object => (tag, object)) (part b lo b.length) := rfl

/-- Between two places of the whole text the scan of the window finds `xs`; what lies
before the window counts as its start. -/
def KeyNames.Passes (b : Bytes) (lo i : Nat) (xs : List (τ × Bytes)) (j : Nat) : Prop :=
  (names.window b lo).Passes (i - lo) xs (j - lo)

section Passes

variable {names} {b : Bytes} {lo i j : Nat}

/-- It is missed where no object is. -/
theorem KeyNames.window_miss {r : Nat}
    (miss : ∀ sep value stop name, ¬ ObjectAt names (part b lo b.length) sep r value stop name) :
    (names.window b lo).hit r = none := by
  rw [KeyNames.window_hit]
  exact KeyNames.hit_eq_none.mpr miss

/-- Places that miss are passed. -/
theorem KeyNames.Passes.miss (ordered : i ≤ j)
    (miss : ∀ p, i ≤ p → p < j → names.Misses b p) : names.Passes b lo i [] j := by
  apply Matcher.Passes.skip (by omega)
  intro r start stop
  apply KeyNames.window_miss
  intro sep value stop' name object
  exact miss (lo + r) (by omega) (by omega) _ _ _ _ (ObjectAt.part.mp object).1

/-- A byte that is no quote is passed. -/
theorem KeyNames.Passes.byte {c : Byte} (byte : b[i]? = some c) (notQuote : c ≠ 0x22) :
    names.Passes b lo i [] (i + 1) := by
  apply KeyNames.Passes.miss (Nat.le_succ i)
  intro p start stop
  obtain rfl : p = i := by omega
  exact misses_other byte notQuote

/-- So is a run of them. -/
theorem KeyNames.Passes.run {run : Bytes} (located : Located b i run)
    (noQuote : ∀ c ∈ run, c ≠ 0x22) : names.Passes b lo i [] (i + run.length) := by
  apply KeyNames.Passes.miss (Nat.le_add_right _ _)
  intro p start stop
  obtain ⟨r, rfl⟩ : ∃ r, p = i + r := ⟨p - i, by omega⟩
  have small : r < run.length := by omega
  exact misses_other (Located.byte located small) (noQuote _ (List.getElem_mem small))

/-- So is whitespace. -/
theorem KeyNames.Passes.ws (ws : Ws) (located : Located b i ws.bytes) :
    names.Passes b lo i [] (i + ws.bytes.length) := by
  apply KeyNames.Passes.run located
  rintro c member rfl
  exact absurd (ws.ok _ member) (by decide)

/-- So is the rest of a string that is no key. -/
theorem KeyNames.Passes.stringRest {chars : Chars}
    (located : Located b i (quoted chars.bytes))
    (next : ∀ c, b[i + (quoted chars.bytes).length]? = some c → isLetter c = false) :
    names.Passes b lo (i + 1) [] (i + (quoted chars.bytes).length) := by
  apply KeyNames.Passes.miss (by rw [quoted, List.length_cons]; omega)
  intro p start stop
  exact misses_inString located next (by omega) stop

/-- A member in the window is taken. -/
theorem KeyNames.Passes.take {sep value stop : Nat} {name : Bytes × τ}
    (object : ObjectAt names b sep i value stop name) (inside : lo ≤ sep) :
    names.Passes b lo i [(name.2, substr b value (stop - value))] stop := by
  have bounds := object.bounds
  apply Matcher.Passes.take
  rw [KeyNames.window_hit]
  refine KeyNames.hit_eq_some.mpr ⟨sep - lo, value - lo, name, ?_, ?_⟩
  · apply ObjectAt.part.mpr
    rw [Nat.add_sub_cancel' inside, Nat.add_sub_cancel' (by omega),
      Nat.add_sub_cancel' (by omega), Nat.add_sub_cancel' (by omega)]
    exact ⟨object, by omega⟩
  · rw [substr, substr, part, List.take_length, List.drop_drop,
      show lo + (value - lo) = value by omega,
      show stop - lo - (value - lo) = stop - value by omega]

/-- A member whose separator is before the window is passed. -/
theorem KeyNames.Passes.cut {sep value stop : Nat} {name : Bytes × τ}
    (object : ObjectAt names b sep i value stop name) (outside : sep < lo) :
    names.Passes b lo i [] (i + 1) := by
  apply Matcher.Passes.skip (by omega)
  intro r start last
  apply KeyNames.window_miss
  intro sep' value' stop' name' found
  have found' := (ObjectAt.part.mp found).1
  have same : lo + r = i := by omega
  rw [same] at found'
  have := (object.unique found').1
  omega

end Passes

/-! ## Passing over the tree -/

/-- Behind a value stands, after whitespace, a comma, a bracket or nothing. -/
def Behind (b : Bytes) (j : Nat) : Prop :=
  ∃ k, WsRun b j k ∧ ∀ c, b[k]? = some c → c = 0x2c ∨ c = 0x7d ∨ c = 0x5d

section Tree

variable {names} {b : Bytes} {lo i : Nat}

/-- Behind a value there is no letter. -/
theorem Behind.notLetter (behind : Behind b i) : ∀ c, b[i]? = some c → isLetter c = false := by
  obtain ⟨k, run, ends⟩ := behind
  intro c byte
  by_cases here : i = k
  · subst here
    rcases ends c byte with rfl | rfl | rfl <;> decide
  · obtain ⟨d, byte', ws⟩ := run.each i (Nat.le_refl i) (by have := run.ordered; omega)
    rw [byte, Option.some.injEq] at byte'
    subst byte'
    simp only [isWs, Bool.or_eq_true, beq_iff_eq] at ws
    rcases ws with ((rfl | rfl) | rfl) | rfl <;> decide

/-- Nor is there a colon. -/
theorem Behind.notColon (behind : Behind b i) : b[skipWs b i]? ≠ some 0x3a := by
  obtain ⟨k, run, ends⟩ := behind
  have stop : skipWs b i = k := skipWs_eq run (by
    intro c byte
    rcases ends c byte with rfl | rfl | rfl <;> decide)
  rw [stop]
  intro colon
  rcases ends _ colon with same | same | same <;> exact absurd same (by decide)

/-- Located whitespace is a run of it. -/
theorem WsRun.of_located {ws : Ws} (located : Located b i ws.bytes) :
    WsRun b i (i + ws.bytes.length) := by
  refine ⟨Nat.le_add_right _ _, fun r start stop => ?_⟩
  obtain ⟨k, rfl⟩ : ∃ k, r = i + k := ⟨r - i, by omega⟩
  have small : k < ws.bytes.length := by omega
  exact ⟨ws.bytes[k], Located.byte located small, ws.ok _ (List.getElem_mem small)⟩

/-- A string that is no key is passed. -/
theorem KeyNames.Passes.string {chars : Chars} (located : Located b i (quoted chars.bytes))
    (behind : Behind b (i + (quoted chars.bytes).length)) :
    names.Passes b lo i [] (i + (quoted chars.bytes).length) := by
  have opened : names.Passes b lo i [] (i + 1) := by
    apply KeyNames.Passes.miss (Nat.le_succ i)
    intro p start stop
    obtain rfl : p = i := by omega
    exact misses_string located behind.notColon
  exact opened.after (KeyNames.Passes.stringRest located behind.notLetter)

/-- A key of the tree, behind its separator and before its value. -/
theorem keyAt_key {sep : Nat} {key : Key} {pre : Ws} {value : Json} {more : Bytes}
    (located : Located b i (key.render ++ (pre.bytes ++ (value.render ++ more))))
    (behindSep : b[sep]? = some 0x7b ∨ b[sep]? = some 0x2c) (place : sep + 1 = i) :
    KeyAt b sep (i + key.pre.bytes.length) (quoted key.name.bytes).length
      (i + key.render.length + pre.bytes.length) := by
  obtain ⟨keyed, rest⟩ := located.split
  rw [Key.render] at keyed
  obtain ⟨spaces, named⟩ := keyed.split
  obtain ⟨after, colon⟩ := named.split.2.split
  obtain ⟨before, valued⟩ := rest.split
  obtain ⟨first, others, shape, notWs, -⟩ := value.head
  have byte : b[i + key.render.length + pre.bytes.length]? = some first := by
    rw [shape] at valued
    exact valued.split.1.head
  have size : i + key.render.length = i + key.pre.bytes.length +
      (quoted key.name.bytes).length + key.post.bytes.length + 1 := by
    simp only [Key.render, List.length_append, List.length_singleton]
    omega
  refine ⟨behindSep, by omega, ?_, ⟨_, WsRun.of_located after, colon.head, ?_⟩,
    ⟨first, byte, notWs⟩⟩
  · rw [place]
    exact WsRun.of_located spaces
  · rw [← size]
    exact WsRun.of_located before

/-- The first byte of a located value. -/
theorem valueByte {value : Json} {more : Bytes} (located : Located b i (value.render ++ more)) :
    b[i]? = some value.firstByte := by
  obtain ⟨first, others, shape, -⟩ := value.head
  rw [Json.firstByte, shape]
  rw [shape] at located
  exact located.split.1.head

/-- A name that is found is on the list. -/
theorem KeyNames.named_eq_some {name : Bytes} {tag : τ} (named : names.named name = some tag) :
    (name, tag) ∈ names.list := by
  obtain ⟨found, here, rfl⟩ := Option.map_eq_some_iff.mp named
  have equal := List.find?_some (p := fun found : Bytes × τ => found.1 == name) here
  rw [← beq_iff_eq.mp equal]
  exact List.mem_of_find?_eq_some here

/-- A name on the list is found. -/
theorem KeyNames.named_ne_none {name : Bytes × τ} (member : name ∈ names.list) :
    names.named name.1 ≠ none := by
  intro none
  rw [KeyNames.named, Option.map_eq_none_iff] at none
  exact absurd (beq_self_eq_true name.1) (List.find?_eq_none.mp none name member)

/-- At a key of the tree stands an object when the key is named and its value is one. -/
theorem objectAt_key {sep : Nat} {key : Key} {pre : Ws} {value : Json} {post : Ws} {c : Byte}
    {more : Bytes} {tag : τ} (named : names.named key.name.bytes = some tag)
    (isObject : value.isObject = true)
    (located : Located b i (key.render ++ (pre.bytes ++ (value.render ++ (post.bytes ++
      c :: more))))) (ends : isScalar c = false)
    (behindSep : b[sep]? = some 0x7b ∨ b[sep]? = some 0x2c) (place : sep + 1 = i) :
    ObjectAt names b sep (i + key.pre.bytes.length)
      (i + key.render.length + pre.bytes.length)
      (i + key.render.length + pre.bytes.length + value.render.length)
      (key.name.bytes, tag) := by
  obtain ⟨keyed, rest⟩ := located.split
  have valued := rest.split.2
  have text : Located b (i + key.pre.bytes.length) (quoted key.name.bytes) := by
    rw [Key.render] at keyed
    exact keyed.split.2.split.1
  refine ⟨KeyNames.named_eq_some named, text, keyAt_key located behindSep place, ?_,
    skipValue_spaced value post valued ends⟩
  rw [valueByte valued, value.firstByte_eq_brace.mpr isObject]

/-- A key of the tree is passed when it is not named, its value is no object, or its
separator is before the window. -/
theorem KeyNames.Passes.key {sep : Nat} {key : Key} {pre : Ws} {value : Json} {post : Ws}
    {c : Byte} {more : Bytes}
    (untaken : names.named key.name.bytes = none ∨ ¬ (lo ≤ sep ∧ value.isObject = true))
    (located : Located b i (key.render ++ (pre.bytes ++ (value.render ++ (post.bytes ++
      c :: more)))))
    (behindSep : b[sep]? = some 0x7b ∨ b[sep]? = some 0x2c) (place : sep + 1 = i) :
    names.Passes b lo i [] (i + key.render.length) := by
  have keyAt := keyAt_key located behindSep place
  have valued := located.split.2.split.2
  have keyed := located.split.1
  rw [Key.render] at keyed
  obtain ⟨spaces, named⟩ := keyed.split
  obtain ⟨text, colonOn⟩ := named.split
  obtain ⟨after, colon⟩ := colonOn.split
  have opened : names.Passes b lo (i + key.pre.bytes.length) []
      (i + key.pre.bytes.length + 1) := by
    by_cases member : ∃ sep' value' stop name,
        ObjectAt names b sep' (i + key.pre.bytes.length) value' stop name
    · obtain ⟨sep', value', stop, name, object⟩ := member
      have same := name_of_string (names.letters name object.member).2 text object.text
      have key' := object.key
      rw [same] at key'
      obtain ⟨rfl, rfl⟩ := key'.unique keyAt
      have isObject : value.isObject = true := by
        have brace := object.brace
        rw [valueByte valued, Option.some.injEq] at brace
        exact value.firstByte_eq_brace.mp brace
      rcases untaken with unnamed | outside
      · rw [← same] at unnamed
        exact absurd unnamed (KeyNames.named_ne_none object.member)
      · exact KeyNames.Passes.cut object
          (Nat.lt_of_not_le fun inside => outside ⟨inside, isObject⟩)
    · apply KeyNames.Passes.miss (Nat.le_succ _)
      intro p start stop sep' value' stop' name object
      obtain rfl : p = i + key.pre.bytes.length := by omega
      exact member ⟨sep', value', stop', name, object⟩
  have behind : ∀ d, b[i + key.pre.bytes.length + (quoted key.name.bytes).length]? = some d →
      isLetter d = false := by
    intro d byte
    cases spaced : key.post.bytes with
    | nil =>
        rw [spaced] at colon
        rw [List.length_nil, Nat.add_zero] at colon
        rw [colon.head, Option.some.injEq] at byte
        subst byte
        decide
    | cons e rest =>
        have ws := key.post.ok e (by rw [spaced]; exact List.mem_cons_self)
        rw [spaced] at after
        rw [after.head, Option.some.injEq] at byte
        subst byte
        simp only [isWs, Bool.or_eq_true, beq_iff_eq] at ws
        rcases ws with ((rfl | rfl) | rfl) | rfl <;> decide
  have last : names.Passes b lo _ [] _ := KeyNames.Passes.byte colon.head (by decide)
  have passed := ((((KeyNames.Passes.ws key.pre spaces).after opened).after
    (KeyNames.Passes.stringRest text behind)).after
    (KeyNames.Passes.ws key.post after)).after last
  have size : i + key.render.length = i + key.pre.bytes.length +
      (quoted key.name.bytes).length + key.post.bytes.length + 1 := by
    simp only [Key.render, List.length_append, List.length_singleton]
    omega
  rw [size]
  exact passed

/-- One item: its key and whitespace, then itself or what is inside its value. -/
theorem KeyNames.Passes.item {sep : Nat} {kind : Kind} {head : Head kind} {pre : Ws}
    {value : Json} {post : Ws} {c : Byte} {more : Bytes} {inside : List (τ × Bytes)}
    (located : Located b i (head.render ++ (pre.bytes ++ (value.render ++ (post.bytes ++
      c :: more))))) (ends : c = 0x2c ∨ c = 0x7d ∨ c = 0x5d)
    (behindSep : kind = .object → b[sep]? = some 0x7b ∨ b[sep]? = some 0x2c)
    (place : sep + 1 = i)
    (valuePasses : names.Passes b lo (i + head.render.length + pre.bytes.length) inside
      (i + head.render.length + pre.bytes.length + value.render.length)) :
    names.Passes b lo i (names.ofItem lo sep head value inside)
      (i + head.render.length + pre.bytes.length + value.render.length +
        post.bytes.length) := by
  have scalar : isScalar c = false := by
    rcases ends with rfl | rfl | rfl <;> decide
  have spaces := located.split.2.split.1
  have after : names.Passes b lo _ [] _ :=
    KeyNames.Passes.ws post located.split.2.split.2.split.2.split.1
  cases kind with
  | array =>
      have inner : names.Passes b lo i inside _ :=
        (KeyNames.Passes.ws pre spaces).after valuePasses
      exact inner.before after
  | object =>
      have behindSep := behindSep rfl
      by_cases taken : ∃ tag, names.named (Key.name head).bytes = some tag ∧
          (lo ≤ sep ∧ value.isObject = true)
      · obtain ⟨tag, named, inWindow, isObject⟩ := taken
        have object := objectAt_key named isObject located scalar behindSep place
        have opened : names.Passes b lo i [] (i + (Key.pre head).bytes.length) := by
          have keyed : Located b i ((Key.pre head).bytes ++ (quoted (Key.name head).bytes ++
              ((Key.post head).bytes ++ [0x3a]))) := located.split.1
          exact KeyNames.Passes.ws (Key.pre head) keyed.split.1
        have whole := (opened.after (KeyNames.Passes.take object inWindow)).before after
        have text : substr b (i + (Head.render head).length + pre.bytes.length)
            value.render.length = value.render :=
          located.split.2.split.2.split.1.substr
        have result : names.ofItem lo sep head value inside = [(tag, value.render)] := by
          rw [KeyNames.ofItem, KeyNames.ofHead, named]
          exact if_pos ⟨inWindow, isObject⟩
        rw [Nat.add_sub_cancel_left] at whole
        rw [result]
        rw [Head.render_object] at text ⊢
        rwa [text] at whole
      · have untaken : names.named (Key.name head).bytes = none ∨
            ¬ (lo ≤ sep ∧ value.isObject = true) := by
          cases named : names.named (Key.name head).bytes with
          | none => exact Or.inl rfl
          | some tag => exact Or.inr fun both => taken ⟨tag, named, both⟩
        have result : names.ofItem lo sep head value inside = inside := by
          rw [KeyNames.ofItem, KeyNames.ofHead]
          rcases untaken with unnamed | outside
          · rw [unnamed]
          · cases named : names.named (Key.name head).bytes with
            | none => rfl
            | some tag => exact if_neg outside
        have keyed := KeyNames.Passes.key untaken located behindSep place
        rw [result]
        exact ((keyed.after (KeyNames.Passes.ws pre spaces)).after valuePasses).before after

/-- Whitespace may stand between a value and what ends it. -/
theorem Behind.spaced {post : Ws} {c : Byte} {more : Bytes}
    (located : Located b i (post.bytes ++ c :: more))
    (ends : c = 0x2c ∨ c = 0x7d ∨ c = 0x5d) : Behind b i := by
  refine ⟨_, WsRun.of_located located.split.1, fun d byte => ?_⟩
  rw [located.split.2.head, Option.some.injEq] at byte
  rwa [← byte]

/-- A token holds no quote. -/
theorem tokens_noQuote {run : Bytes} (tokens : ∀ c ∈ run, isToken c = true) :
    ∀ c ∈ run, c ≠ 0x22 :=
  fun c member => isToken_ne (tokens c member) (by decide)

mutual

/-- Over a value the scan finds the members in it. -/
theorem KeyNames.Passes.value {b : Bytes} {lo : Nat} :
    ∀ (value : Json) (i : Nat), Located b i value.render →
      Behind b (i + value.render.length) →
      names.Passes b lo i (names.inValue lo i value) (i + value.render.length)
  | .lit l, i, located, _ => by
      rw [Json.render] at located ⊢
      exact KeyNames.Passes.run located (tokens_noQuote (lit_isToken l))
  | .number n, i, located, _ => by
      rw [Json.render] at located ⊢
      exact KeyNames.Passes.run located (tokens_noQuote (number_isToken n))
  | .string chars, i, located, behind => by
      rw [Json.render] at located behind ⊢
      exact KeyNames.Passes.string located behind
  | .empty kind ws, i, located, _ => by
      rw [Json.render] at located
      obtain ⟨spaces, close⟩ := located.tail.split
      have opens : names.Passes b lo i [] (i + 1) :=
        KeyNames.Passes.byte located.head (by cases kind <;> decide)
      have closes : names.Passes b lo _ [] _ :=
        KeyNames.Passes.byte close.head (by cases kind <;> decide)
      have place : i + (Json.empty kind ws).render.length =
          i + 1 + ws.bytes.length + 1 := by
        simp only [Json.render, List.length_cons, List.length_append, List.length_nil]
        omega
      rw [place]
      exact (opens.after (KeyNames.Passes.ws ws spaces)).after closes
  | .full kind items, i, located, _ => by
      rw [Json.render] at located
      obtain ⟨members, close⟩ := located.tail.split
      have opens : names.Passes b lo i [] (i + 1) :=
        KeyNames.Passes.byte located.head (by cases kind <;> decide)
      have closes : names.Passes b lo _ [] _ :=
        KeyNames.Passes.byte close.head (by cases kind <;> decide)
      have place : i + (Json.full kind items).render.length =
          i + 1 + items.render.length + 1 := by
        simp only [Json.render, List.length_cons, List.length_append, List.length_nil]
        omega
      have separated : kind = .object → b[i]? = some 0x7b ∨ b[i]? = some 0x2c := by
        intro isObject
        rw [located.head, isObject]
        exact Or.inl rfl
      rw [place, KeyNames.inValue]
      exact (opens.after (KeyNames.Passes.items items i (i + 1) located.tail separated
        rfl)).before closes

/-- Over the items of a container the scan finds the members in them. -/
theorem KeyNames.Passes.items {b : Bytes} {lo : Nat} :
    ∀ {kind : Kind} (items : Items kind) (sep i : Nat),
      Located b i (items.render ++ [kind.closes]) →
      (kind = .object → b[sep]? = some 0x7b ∨ b[sep]? = some 0x2c) → sep + 1 = i →
      names.Passes b lo i (names.inItems lo sep i items) (i + items.render.length)
  | kind, .last head pre value post, sep, i, located, separated, place => by
      have shape : Located b i (head.render ++ (pre.bytes ++ (value.render ++
          (post.bytes ++ kind.closes :: [])))) := by
        rw [Items.render] at located
        simpa using located
      have ends : kind.closes = 0x2c ∨ kind.closes = 0x7d ∨ kind.closes = 0x5d := by
        cases kind <;> decide
      have valued := shape.split.2.split.2
      have inner : names.Passes b lo _ _ _ := KeyNames.Passes.value value _ valued.split.1
        (Behind.spaced valued.split.2 ends)
      have size : i + (Items.last head pre value post).render.length =
          i + head.render.length + pre.bytes.length + value.render.length +
            post.bytes.length := by
        simp only [Items.render, List.length_append]
        omega
      rw [size, KeyNames.inItems]
      exact KeyNames.Passes.item shape ends separated place inner
  | kind, .cons head pre value post rest, sep, i, located, separated, place => by
      have shape : Located b i (head.render ++ (pre.bytes ++ (value.render ++
          (post.bytes ++ 0x2c :: (rest.render ++ [kind.closes]))))) := by
        rw [Items.render] at located
        simpa using located
      have valued := shape.split.2.split.2
      have commaOn := valued.split.2.split.2
      have inner : names.Passes b lo _ _ _ := KeyNames.Passes.value value _ valued.split.1
        (Behind.spaced valued.split.2 (Or.inl rfl))
      have item := KeyNames.Passes.item shape (Or.inl rfl) separated place inner
      have comma : names.Passes b lo _ [] _ :=
        KeyNames.Passes.byte commaOn.head (by decide)
      have others : names.Passes b lo _ _ _ := KeyNames.Passes.items rest _ _ commaOn.tail
        (fun _ => Or.inr commaOn.head) rfl
      have size : i + (Items.cons head pre value post rest).render.length =
          i + head.render.length + pre.bytes.length + value.render.length +
            post.bytes.length + 1 + rest.render.length := by
        simp only [Items.render, List.length_append, List.length_cons]
        omega
      rw [size, KeyNames.inItems]
      exact (item.before comma).trans others

end

/-- The members under `names` in a text. -/
def KeyNames.inText (names : KeyNames τ) (lo : Nat) (text : Text) : List (τ × Bytes) :=
  names.inValue lo text.pre.bytes.length text.value

/-- The scan of the window takes exactly the members of the text. -/
theorem KeyNames.window_found (text : Text) (lo : Nat) :
    (names.window text.render lo).found 0 = names.inText lo text := by
  have located : Located text.render 0
      (text.pre.bytes ++ (text.value.render ++ text.post.bytes)) :=
    ⟨[], by rw [List.append_nil]; rfl⟩
  have valued := located.split.2
  rw [Nat.zero_add] at valued
  have after := valued.split.2
  have size : text.render.length =
      text.pre.bytes.length + text.value.render.length + text.post.bytes.length := by
    simp only [Text.render, List.length_append]
    omega
  have behind : Behind text.render (text.pre.bytes.length + text.value.render.length) := by
    refine ⟨_, WsRun.of_located after, fun c byte => ?_⟩
    rw [← size, List.getElem?_eq_none (Nat.le_refl _)] at byte
    cases byte
  have spaces : names.Passes text.render lo 0 [] (0 + text.pre.bytes.length) :=
    KeyNames.Passes.ws text.pre located.split.1
  rw [Nat.zero_add] at spaces
  have inside : names.Passes text.render lo _ _ _ :=
    KeyNames.Passes.value text.value _ valued.split.1 behind
  have whole := (spaces.after inside).before (KeyNames.Passes.ws text.post after)
  rw [← size] at whole
  have atEnd : (names.window text.render lo).found (text.render.length - lo) = [] := by
    apply Matcher.found_end
    exact (part_length _ _ _).le.trans (by omega)
  have found : (names.window text.render lo).found (0 - lo) =
      names.inText lo text ++ (names.window text.render lo).found (text.render.length - lo) :=
    whole
  rwa [atEnd, List.append_nil, Nat.zero_sub] at found

end Tree

end JsonScan
end Llmbridge
