import Llmbridge.Provider.StreamUsage

/-!
# Usage keys in a part of a stream

`feed` looks at the part of its stream that it still holds.  What it sees at a place of
that part says what stands there in the stream, or that more bytes are needed.
-/

namespace Llmbridge
namespace OpenAi

open Rfc8259
open JsonScan
open StreamUsage (keyCut feedLoop kMaxObject)

/-! ## Keys in a part of the stream -/

/-- Every key is close behind its separator, and its object, when it has one, ends soon
behind the key. -/
structure Readable (stream : Bytes) : Prop where
  lead : ∀ name ∈ scannedKeys.list, ∀ sep start value,
    Located stream start (quoted name.1) →
    KeyAt stream sep start (quoted name.1).length value → start - (sep + 1) < 64
  closes : ∀ name ∈ scannedKeys.list, ∀ sep start value,
    Located stream start (quoted name.1) →
    KeyAt stream sep start (quoted name.1).length value → stream[value]? = some 0x7b →
    ∃ stop, skipValue stream value = some stop ∧ stop ≤ start + 64 * 1024

/-- The search stops at `p`. -/
def Text (stream : Bytes) (p : Nat) : Prop :=
  Located stream p (ascii "\"usage")

theorem scannedKeys_cases {name : Bytes × Bool} (member : name ∈ scannedKeys.list) :
    (quoted name.1 = kMetadata ∧ name.2 = true) ∨ (quoted name.1 = kUsage ∧ name.2 = false) := by
  simp only [scannedKeys, List.mem_cons, List.not_mem_nil, or_false] at member
  rcases member with rfl | rfl
  · exact Or.inl ⟨by decide, rfl⟩
  · exact Or.inr ⟨by decide, rfl⟩

theorem kMetadata_member : (ascii "usageMetadata", true) ∈ scannedKeys.list := by
  simp [scannedKeys]

theorem kUsage_member : (ascii "usage", false) ∈ scannedKeys.list := by
  simp [scannedKeys]

section Part

variable {stream : Bytes} {lo hi : Nat}

theorem text_part {r : Nat} :
    Located (part stream lo hi) r (ascii "\"usage") ↔
      Text stream (lo + r) ∧ lo + r + 6 ≤ hi :=
  Located.part

theorem nextUsage_some {s : Bytes} {start found : Nat} (next : nextUsage s start = some found) :
    start ≤ found ∧ Located s found (ascii "\"usage") ∧
      ∀ r, start ≤ r → r < found → ¬ Located s r (ascii "\"usage") := by
  unfold nextUsage at next
  split_ifs at next
  exact memmem_eq_some next

theorem nextUsage_none {s : Bytes} {start : Nat} (next : nextUsage s start = none) :
    ∀ r, start ≤ r → ¬ Located s r (ascii "\"usage") := by
  unfold nextUsage at next
  split_ifs at next with atEnd
  · intro r from_start located
    have inside := (List.getElem?_eq_some_iff.mp located.head).1
    omega
  · exact memmem_eq_none next

/-- The search in a part finds the next place of the stream. -/
theorem nextUsage_part {start found : Nat}
    (next : nextUsage (part stream lo hi) start = some found) :
    start ≤ found ∧ Text stream (lo + found) ∧ lo + found + 6 ≤ hi ∧
      ∀ p, lo + start ≤ p → p < lo + found → ¬ Text stream p := by
  obtain ⟨ordered, here, earlier⟩ := nextUsage_some next
  obtain ⟨text, inside⟩ := text_part.mp here
  refine ⟨ordered, text, inside, fun p from_start before text' => ?_⟩
  apply earlier (p - lo) (by omega) (by omega)
  apply text_part.mpr
  rw [Nat.add_sub_cancel' (by omega)]
  exact ⟨text', by omega⟩

theorem nextUsage_part_none {start : Nat}
    (next : nextUsage (part stream lo hi) start = none) :
    ∀ p, lo + start ≤ p → p + 6 ≤ hi → ¬ Text stream p := by
  intro p from_start inside text
  apply nextUsage_none next (p - lo) (by omega)
  apply text_part.mpr
  rw [Nat.add_sub_cancel' (by omega)]
  exact ⟨text, inside⟩

/-- Whitespace in a part ends where it ends in the stream, or with the part. -/
theorem skipWs_part {i j : Nat} (inside : lo + i ≤ hi)
    (run : WsRun stream (lo + i) j) (ends : ∀ c, stream[j]? = some c → isWs c = false) :
    skipWs (part stream lo hi) i = min j hi - lo := by
  have ordered := run.ordered
  apply skipWs_eq
  · apply WsRun.part.mpr
    rw [Nat.add_sub_cancel' (by omega)]
    refine ⟨⟨by omega, fun r start stop => run.each r start (by omega)⟩, by omega⟩
  · intro c byte
    obtain ⟨byte', small⟩ := part_byte.mp byte
    rw [Nat.add_sub_cancel' (by omega)] at byte' small
    rw [Nat.min_eq_left (by omega)] at byte'
    exact ends c byte'

/-- Where the code looks for the value of the key found at `r`. -/
def valuePlace (s : Bytes) (r len : Nat) : Nat :=
  let v := skipWs s (r + len)
  if s[v]? = some 0x3a then skipWs s (v + 1) else v

/-- Before that place stand whitespace and a colon. -/
theorem valuePlace_between {s : Bytes} {r len p : Nat} {c : Byte} (behind : r + len ≤ p)
    (before : p < valuePlace s r len) (byte : s[p]? = some c) : isWs c = true ∨ c = 0x3a := by
  have ofRun : ∀ {i j : Nat}, WsRun s i j → i ≤ p → p < j → isWs c = true := by
    intro i j run start stop
    obtain ⟨d, here, ws⟩ := run.each p start stop
    rw [byte, Option.some.injEq] at here
    rwa [here]
  unfold valuePlace at before
  dsimp only at before
  by_cases first : p < skipWs s (r + len)
  · exact Or.inl (ofRun (skipWs_run s _) behind first)
  · split_ifs at before with colon
    · by_cases here : p = skipWs s (r + len)
      · rw [← here, byte, Option.some.injEq] at colon
        exact Or.inr colon
      · exact Or.inl (ofRun (skipWs_run s _) (by omega) before)
    · exact absurd before first

/-- Of a key of the stream it looks where the value begins, or has no more bytes. -/
theorem valuePlace_part {sep r len value : Nat} (inside : lo + r + len ≤ hi)
    (key : KeyAt stream sep (lo + r) len value) :
    valuePlace (part stream lo hi) r len = min value hi - lo := by
  obtain ⟨c, first, colon, second⟩ := key.colon
  obtain ⟨d, present, notWs⟩ := key.present
  have c_ge := first.ordered
  have v_ge := second.ordered
  have colonEnds : ∀ d, stream[c]? = some d → isWs d = false := by
    intro d byte
    rw [colon, Option.some.injEq] at byte
    rw [← byte]
    decide
  have valueEnds : ∀ e, stream[value]? = some e → isWs e = false := by
    intro e byte
    rw [present, Option.some.injEq] at byte
    rwa [← byte]
  rw [Nat.add_assoc] at first inside
  have toColon := skipWs_part inside first colonEnds
  unfold valuePlace
  dsimp only
  rw [toColon]
  by_cases small : c < hi
  · have here : (part stream lo hi)[min c hi - lo]? = some 0x3a := by
      apply part_byte.mpr
      rw [Nat.min_eq_left (by omega), Nat.add_sub_cancel' (by omega)]
      exact ⟨colon, small⟩
    have second' : WsRun stream (lo + (c - lo + 1)) value := by
      rwa [show lo + (c - lo + 1) = c + 1 by omega]
    have room : lo + (c - lo + 1) ≤ hi := by omega
    rw [if_pos here, Nat.min_eq_left (by omega : c ≤ hi)]
    exact skipWs_part room second' valueEnds
  · have none : (part stream lo hi)[min c hi - lo]? ≠ some 0x3a := by
      intro byte
      have := (part_byte.mp byte).2
      omega
    rw [if_neg none]
    omega

/-- The key that the code finds at `r` in some bytes: its length, and whether it is
Gemini's. -/
def FoundKey (s : Bytes) (r len : Nat) (gemini : Bool) : Prop :=
  ∃ name ∈ scannedKeys.list, Located s r (quoted name.1) ∧ (quoted name.1).length = len ∧
    name.2 = gemini

theorem kMetadata_located {s : Bytes} {r : Nat}
    (found : kMetadata.isPrefixOf (s.drop r) = true) :
    FoundKey s r kMetadata.length true := by
  have same : quoted (ascii "usageMetadata") = kMetadata := by decide
  exact ⟨_, kMetadata_member, by rw [same]; exact located_iff_isPrefixOf.mp found,
    by rw [same], rfl⟩

theorem kUsage_located {s : Bytes} {r : Nat} (found : (s.drop r).take kUsage.length = kUsage) :
    FoundKey s r kUsage.length false := by
  have same : quoted (ascii "usage") = kUsage := by decide
  refine ⟨_, kUsage_member, ?_, by rw [same], rfl⟩
  rw [same]
  exact ⟨(s.drop r).drop kUsage.length,
    (List.take_append_drop kUsage.length (s.drop r)).symm.trans (by rw [found])⟩

/-- A key of the search that is not cut has a byte behind it. -/
theorem uncut_length {r : Nat} (here : Located (part stream lo hi) r (ascii "\"usage"))
    (uncut : keyCut ((part stream lo hi).drop r) = false) : lo + r + 7 ≤ hi := by
  obtain ⟨-, inside⟩ := text_part.mp here
  by_contra short
  obtain ⟨rest, shape⟩ := here
  have size := congrArg List.length shape
  have six : (ascii "\"usage").length = 6 := by decide
  rw [List.length_drop, part_length, List.length_append, six] at size
  have none : rest = [] := by
    apply List.eq_nil_of_length_eq_zero
    omega
  rw [shape, none] at uncut
  exact absurd uncut (by decide)

/-- Where no key is found, and none is cut, the stream has none. -/
theorem no_key_part {r : Nat} (uncut : keyCut ((part stream lo hi).drop r) = false)
    (notMetadata : kMetadata.isPrefixOf ((part stream lo hi).drop r) = false)
    (notUsage : ((part stream lo hi).drop r).take kUsage.length ≠ kUsage) :
    ∀ name ∈ scannedKeys.list, ¬ Located stream (lo + r) (quoted name.1) := by
  intro name member located
  have shape : (part stream lo hi).drop r = (stream.drop (lo + r)).take (hi - (lo + r)) := by
    rw [part, List.drop_drop, List.drop_take]
  obtain ⟨rest, whole⟩ := located
  rw [shape, whole] at uncut notMetadata notUsage
  have metadataLength : kMetadata.length = 15 := by decide
  have usageLength : kUsage.length = 7 := by decide
  rcases scannedKeys_cases member with ⟨same, -⟩ | ⟨same, -⟩
  · rw [same] at uncut notMetadata
    by_cases fits : kMetadata.length ≤ hi - (lo + r)
    · rw [List.take_append, List.take_of_length_le fits] at notMetadata
      exact absurd (List.isPrefixOf_iff_prefix.mpr (List.prefix_append _ _)) (by
        rw [notMetadata]
        decide)
    · rw [List.take_append_of_le_length (by omega)] at uncut
      unfold keyCut at uncut
      rw [List.length_take_of_le (by omega)] at uncut
      simp [show hi - (lo + r) < kMetadata.length by omega] at uncut
  · rw [same] at uncut notUsage
    by_cases fits : kUsage.length ≤ hi - (lo + r)
    · rw [List.take_append, List.take_of_length_le fits,
        List.take_append_of_le_length (Nat.le_refl _), List.take_length] at notUsage
      exact notUsage rfl
    · rw [List.take_append_of_le_length (by omega)] at uncut
      unfold keyCut at uncut
      rw [List.length_take_of_le (by omega)] at uncut
      simp [show hi - (lo + r) < kMetadata.length by omega] at uncut

/-- The keys a part shows are the stream's. -/
theorem FoundKey.whole {r len : Nat} {gemini : Bool}
    (found : FoundKey (part stream lo hi) r len gemini) :
    FoundKey stream (lo + r) len gemini ∧ lo + r + len ≤ hi := by
  obtain ⟨name, member, located, rfl, rfl⟩ := found
  obtain ⟨located', inside⟩ := Located.part.mp located
  exact ⟨⟨name, member, located', rfl, rfl⟩, inside⟩

theorem no_key_hit {r : Nat} (uncut : keyCut ((part stream lo hi).drop r) = false)
    (notMetadata : kMetadata.isPrefixOf ((part stream lo hi).drop r) = false)
    (notUsage : ((part stream lo hi).drop r).take kUsage.length ≠ kUsage) :
    (usageMatcher stream).hit (lo + r) = none := by
  rw [usageMatcher_hit]
  apply KeyNames.hit_eq_none.mpr
  intro sep value stop name object
  exact no_key_part uncut notMetadata notUsage name object.member object.text

/-- Where a key stands whose object the code does not take, the stream has none. -/
theorem no_object_part {r len : Nat} {gemini : Bool} (readable : Readable stream)
    (whole : hi ≤ stream.length) (lead : lo = 0 ∨ 64 ≤ r)
    (found : FoundKey (part stream lo hi) r len gemini)
    (present : valuePlace (part stream lo hi) r len < (part stream lo hi).length)
    (other : (part stream lo hi)[valuePlace (part stream lo hi) r len]? ≠ some 0x7b ∨
      keyValueAt (part stream lo hi) r len ≠ some (valuePlace (part stream lo hi) r len)) :
    (usageMatcher stream).hit (lo + r) = none := by
  rw [usageMatcher_hit]
  apply KeyNames.hit_eq_none.mpr
  intro sep value stop name object
  obtain ⟨⟨name', member, located, length, -⟩, inside⟩ := found.whole
  have same := quoted_unique (scannedKeys.letters _ object.member).2
    (scannedKeys.letters _ member).2 object.text located
  have key := object.key
  rw [same, length] at key
  have near := readable.lead name object.member sep (lo + r) value object.text object.key
  have sep_lt := key.sep_lt
  have place := valuePlace_part inside key
  rw [part_length, Nat.min_eq_left whole] at present
  rw [place] at present other
  have keyInside := key.inside
  rw [Nat.min_eq_left (by omega)] at other
  have here : KeyAt (part stream lo hi) (sep - lo) r len (value - lo) := by
    apply KeyAt.part.mpr
    rw [Nat.add_sub_cancel' (by omega), Nat.add_sub_cancel' (by omega)]
    exact ⟨key, by omega⟩
  have size : r ≤ (part stream lo hi).length := by
    rw [part_length]
    omega
  rcases other with notBrace | notKey
  · apply notBrace
    apply part_byte.mpr
    rw [Nat.add_sub_cancel' (by omega)]
    exact ⟨object.brace, by omega⟩
  · exact notKey ((keyValueAt_eq_some size).mpr ⟨_, here⟩)

theorem substr_part {v e : Nat} (inside : lo + e ≤ hi) :
    substr (part stream lo hi) v (e - v) = substr stream (lo + v) (lo + e - (lo + v)) := by
  rw [substr, substr, part, List.drop_drop, List.drop_take, List.take_take]
  congr 1
  omega

/-- No key reaches over the end of an object. -/
theorem object_end_text {value stop : Nat} (brace : stream[value]? = some 0x7b)
    (ends : skipValue stream value = some stop) :
    ∀ p, p < stop → stop ≤ p + 6 → ¬ Text stream p := by
  intro p before reaches text
  have bounds := skipValue_bounds brace ends
  have last := skipValue_last brace ends
  have letter : stream[stop - 1]? = (ascii "\"usage")[stop - 1 - p]? := by
    obtain ⟨rest, shape⟩ := text
    have six : (ascii "\"usage").length = 6 := by decide
    rw [show stop - 1 = p + (stop - 1 - p) by omega, ← List.getElem?_drop, shape,
      List.getElem?_append_left (by omega)]
    congr 1
    omega
  have offset : stop - 1 - p < 6 := by omega
  have none : ∀ k < 6, (ascii "\"usage")[k]? ≠ some 0x7d ∧ (ascii "\"usage")[k]? ≠ some 0x5d := by
    decide
  rw [letter] at last
  have := none _ offset
  tauto

/-- An object that the code takes is the stream's. -/
theorem object_part {r len v e : Nat} {gemini : Bool}
    (found : FoundKey (part stream lo hi) r len gemini)
    (brace : (part stream lo hi)[v]? = some 0x7b)
    (keyed : keyValueAt (part stream lo hi) r len = some v)
    (ends : skipValue (part stream lo hi) v = some e) :
    (usageMatcher stream).hit (lo + r) =
        some (lo + e, gemini, substr (part stream lo hi) v (e - v)) ∧
      lo + e ≤ hi ∧ r < e ∧ ∀ p, p < lo + e → lo + e ≤ p + 6 → ¬ Text stream p := by
  obtain ⟨name, member, located, rfl, rfl⟩ := found
  have inside : r ≤ (part stream lo hi).length := by
    have byte := (List.getElem?_eq_some_iff.mp located.head).1
    omega
  obtain ⟨sep, key⟩ := (keyValueAt_eq_some inside).mp keyed
  obtain ⟨object, small⟩ := ObjectAt.part.mp
    (⟨member, located, key, brace, ends⟩ :
      ObjectAt scannedKeys (part stream lo hi) sep r v e name)
  have bounds := object.bounds
  refine ⟨?_, small, by omega, object_end_text object.brace object.ends⟩
  rw [usageMatcher_hit, substr_part small]
  exact KeyNames.hit_eq_some.mpr ⟨_, _, name, object, rfl⟩

/-- An object that does not end in the part ends soon behind it. -/
theorem object_unfinished {r len v : Nat} {gemini : Bool} (readable : Readable stream)
    (found : FoundKey (part stream lo hi) r len gemini)
    (brace : (part stream lo hi)[v]? = some 0x7b)
    (keyed : keyValueAt (part stream lo hi) r len = some v)
    (unended : skipValue (part stream lo hi) v = none) :
    hi < stream.length ∧ hi - (lo + r) < 64 * 1024 := by
  obtain ⟨name, member, located, rfl, rfl⟩ := found
  have inside : r ≤ (part stream lo hi).length := by
    have byte := (List.getElem?_eq_some_iff.mp located.head).1
    omega
  obtain ⟨sep, key⟩ := (keyValueAt_eq_some inside).mp keyed
  obtain ⟨brace', small⟩ := part_byte.mp brace
  obtain ⟨stop, ends, near⟩ := readable.closes name member (lo + sep) (lo + r) (lo + v)
    (Located.part.mp located).1 (KeyAt.part.mp key).1 brace'
  obtain ⟨forward, atMost⟩ := skipValue_bounds brace' ends
  have beyond : hi < stop := by
    by_contra within
    have shift : lo + (stop - lo) = stop := by omega
    have ended := (skipValue_part (e := stop - lo) brace' small).mpr
      ⟨by rw [shift]; exact ends, by omega⟩
    rw [unended] at ended
    cases ended
  omega

end Part

end OpenAi
end Llmbridge
