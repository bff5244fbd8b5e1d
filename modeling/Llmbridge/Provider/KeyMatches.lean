import Llmbridge.Provider.JsonScanParts

/-!
# Objects under a key

The places where a scan for some keys succeeds: a key of theirs whose value is an
object that ends inside the text.  A part of a text holds those of the text that lie in
it from their separator to their end.
-/

namespace Llmbridge
namespace JsonScan

open Rfc8259
open Scanning (Matcher)

/-- An ASCII letter. -/
def isLetter (c : Byte) : Bool :=
  (0x61 ≤ c && c ≤ 0x7a) || (0x41 ≤ c && c ≤ 0x5a)

theorem isLetter_ne {c other : Byte} (letter : isLetter c = true)
    (notLetter : isLetter other = false) : c ≠ other := by
  rintro rfl
  rw [letter] at notLetter
  exact Bool.noConfusion notLetter

/-- The keys a scan looks for, without their quotes, and what each tells. -/
structure KeyNames (τ : Type) where
  list : List (Bytes × τ)
  letters : ∀ name ∈ list, name.1 ≠ [] ∧ ∀ c ∈ name.1, isLetter c = true
  distinct : (list.map Prod.fst).Nodup

variable {τ α : Type} {names : KeyNames τ}

/-- The key at the front of a text. -/
def KeyNames.here (names : KeyNames τ) (rest : Bytes) : Option (Bytes × τ) :=
  names.list.find? fun name => (quoted name.1).isPrefixOf rest

theorem located_iff_isPrefixOf {b bytes : Bytes} {start : Nat} :
    bytes.isPrefixOf (b.drop start) = true ↔ Located b start bytes := by
  rw [List.isPrefixOf_iff_prefix]
  exact exists_congr fun _ => eq_comm

theorem memmem_eq_some {b needle : Bytes} {start p : Nat}
    (found : memmem b needle start = some p) :
    start ≤ p ∧ Located b p needle ∧ ∀ r, start ≤ r → r < p → ¬ Located b r needle := by
  rw [memmem, List.find?_range'_eq_some] at found
  obtain ⟨here, inside, earlier⟩ := found
  refine ⟨(List.mem_range'_1.mp inside).1, located_iff_isPrefixOf.mp here, ?_⟩
  intro r from_start before located
  have none := earlier r from_start before
  rw [located_iff_isPrefixOf.mpr located] at none
  exact Bool.noConfusion none

theorem memmem_eq_none {b bytes : Bytes} {c : Byte} {start : Nat}
    (none : memmem b (c :: bytes) start = none) :
    ∀ r, start ≤ r → ¬ Located b r (c :: bytes) := by
  rw [memmem, List.find?_range'_eq_none] at none
  intro r from_start located
  have inside := (List.getElem?_eq_some_iff.mp located.head).1
  have miss := none r from_start (by omega)
  rw [located_iff_isPrefixOf.mpr located] at miss
  exact Bool.noConfusion miss

/-- A quoted name goes on to its quote. -/
theorem quoted_unique {b : Bytes} {start : Nat} {first second : Bytes}
    (firstLetters : ∀ c ∈ first, isLetter c = true)
    (secondLetters : ∀ c ∈ second, isLetter c = true)
    (here : Located b start (quoted first)) (there : Located b start (quoted second)) :
    first = second := by
  have le : ∀ {first second : Bytes}, (∀ c ∈ second, isLetter c = true) →
      Located b start (quoted first) → Located b start (quoted second) →
      ¬ first.length < second.length := by
    intro first second letters here there shorter
    have quote : b[start + 1 + first.length]? = some 0x22 := here.tail.split.2.head
    obtain ⟨rest, shape⟩ := there.tail.split.1
    have byte : b[start + 1 + first.length]? = some second[first.length] := by
      rw [← List.getElem?_drop, shape, List.getElem?_append_left shorter,
        List.getElem?_eq_getElem shorter]
    rw [quote, Option.some.injEq] at byte
    have letter := letters _ (List.getElem_mem shorter)
    rw [← byte] at letter
    exact absurd letter (by decide)
  have := le secondLetters here there
  have := le firstLetters there here
  have same : first.length = second.length := by omega
  have one := here.tail.split.1.substr
  have two := there.tail.split.1.substr
  rw [← one, ← two, same]

theorem KeyNames.here_located {b : Bytes} {start : Nat} {name : Bytes × τ}
    (found : names.here (b.drop start) = some name) :
    name ∈ names.list ∧ Located b start (quoted name.1) := by
  rw [KeyNames.here] at found
  have text := List.find?_some
    (p := fun name : Bytes × τ => (quoted name.1).isPrefixOf (b.drop start)) found
  exact ⟨List.mem_of_find?_eq_some found, located_iff_isPrefixOf.mp text⟩

theorem KeyNames.here_eq_some {b : Bytes} {start : Nat} {name : Bytes × τ} :
    names.here (b.drop start) = some name ↔
      name ∈ names.list ∧ Located b start (quoted name.1) := by
  constructor
  · exact KeyNames.here_located
  · rintro ⟨member, located⟩
    cases found : names.here (b.drop start) with
    | none =>
        have not := List.find?_eq_none.mp found name member
        exact absurd (located_iff_isPrefixOf.mpr located) not
    | some other =>
        obtain ⟨member', located'⟩ := KeyNames.here_located found
        have same := quoted_unique (names.letters _ member').2 (names.letters _ member).2
          located' located
        exact congrArg _ (List.inj_on_of_nodup_map names.distinct member' member same)

/-- At `start` a key of `names` stands whose value is an object from `value` up to
`stop`. -/
structure ObjectAt (names : KeyNames τ) (b : Bytes) (sep start value stop : Nat)
    (name : Bytes × τ) : Prop where
  member : name ∈ names.list
  text : Located b start (quoted name.1)
  key : KeyAt b sep start (quoted name.1).length value
  brace : b[value]? = some 0x7b
  ends : skipValue b value = some stop

section ObjectAt

variable {b : Bytes} {sep start value stop : Nat} {name : Bytes × τ}

theorem skipValue_bounds (brace : b[value]? = some 0x7b)
    (ends : skipValue b value = some stop) : value < stop ∧ stop ≤ b.length := by
  rw [skipValue_object brace, Option.map_eq_some_iff] at ends
  obtain ⟨k, found, rfl⟩ := ends
  have bounds := bracketClose_bounds found
  have inside := (List.getElem?_eq_some_iff.mp brace).1
  rw [List.length_drop] at bounds
  omega

theorem skipValue_last (brace : b[value]? = some 0x7b)
    (ends : skipValue b value = some stop) :
    b[stop - 1]? = some 0x7d ∨ b[stop - 1]? = some 0x5d := by
  rw [skipValue_object brace, Option.map_eq_some_iff] at ends
  obtain ⟨k, found, rfl⟩ := ends
  have bounds := bracketClose_bounds found
  have last := bracketClose_last found
  rwa [List.getElem?_drop, show value + (k - 1) = value + k - 1 by omega] at last

theorem ObjectAt.bounds (object : ObjectAt names b sep start value stop name) :
    sep < start ∧ start + (quoted name.1).length < value ∧ value < stop ∧
      stop ≤ b.length := by
  have bounds := skipValue_bounds object.brace object.ends
  exact ⟨object.key.sep_lt, object.key.inside, bounds⟩

theorem ObjectAt.unique {sep' value' stop' : Nat} {name' : Bytes × τ}
    (object : ObjectAt names b sep start value stop name)
    (other : ObjectAt names b sep' start value' stop' name') :
    sep = sep' ∧ value = value' ∧ stop = stop' ∧ name = name' := by
  have here := KeyNames.here_eq_some.mpr ⟨object.member, object.text⟩
  have there := KeyNames.here_eq_some.mpr ⟨other.member, other.text⟩
  rw [here, Option.some.injEq] at there
  subst there
  obtain ⟨rfl, rfl⟩ := object.key.unique other.key
  have ends := object.ends
  rw [other.ends, Option.some.injEq] at ends
  exact ⟨rfl, rfl, ends.symm, rfl⟩

theorem objectAt_eq_some {len : Nat} (inside : start ≤ b.length) :
    objectAt b start len = some (value, stop) ↔
      ∃ sep, KeyAt b sep start len value ∧ b[value]? = some 0x7b ∧
        skipValue b value = some stop := by
  constructor
  · intro found
    unfold objectAt at found
    cases keyed : keyValueAt b start len with
    | none =>
        rw [keyed] at found
        cases found
    | some v =>
        rw [keyed] at found
        dsimp only at found
        by_cases brace : b[v]? ≠ some 0x7b
        · rw [if_pos brace] at found
          cases found
        · rw [if_neg brace, Option.map_eq_some_iff] at found
          obtain ⟨e, ends, shape⟩ := found
          rw [Prod.mk.injEq] at shape
          obtain ⟨rfl, rfl⟩ := shape
          obtain ⟨sep, key⟩ := (keyValueAt_eq_some inside).mp keyed
          exact ⟨sep, key, not_not.mp brace, ends⟩
  · rintro ⟨sep, key, brace, ends⟩
    unfold objectAt
    rw [(keyValueAt_eq_some inside).mpr ⟨sep, key⟩]
    dsimp only
    rw [if_neg (not_not.mpr brace), ends]
    rfl

/-! ## The matcher -/

/-- The object whose key begins at `p`, and its end. -/
def KeyNames.hit (names : KeyNames τ) (tell : Nat → Nat → τ → Bytes → α) (b : Bytes)
    (p : Nat) : Option (Nat × α) :=
  (names.here (b.drop p)).bind fun name =>
    (objectAt b p (quoted name.1).length).map fun (v, e) =>
      (e, tell p e name.2 (substr b v (e - v)))

theorem KeyNames.hit_eq_some {tell : Nat → Nat → τ → Bytes → α} {x : α} :
    names.hit tell b start = some (stop, x) ↔ ∃ sep value name,
      ObjectAt names b sep start value stop name ∧
        x = tell start stop name.2 (substr b value (stop - value)) := by
  have inside : ∀ {name : Bytes × τ}, Located b start (quoted name.1) → start ≤ b.length := by
    intro name located
    have byte := (List.getElem?_eq_some_iff.mp located.head).1
    omega
  constructor
  · intro found
    rw [KeyNames.hit, Option.bind_eq_some_iff] at found
    obtain ⟨name, here, found⟩ := found
    obtain ⟨member, located⟩ := KeyNames.here_eq_some.mp here
    rw [Option.map_eq_some_iff] at found
    obtain ⟨⟨v, e⟩, object, shape⟩ := found
    rw [Prod.mk.injEq] at shape
    obtain ⟨rfl, rfl⟩ := shape
    obtain ⟨sep, key, brace, ends⟩ := (objectAt_eq_some (inside located)).mp object
    exact ⟨sep, v, name, ⟨member, located, key, brace, ends⟩, rfl⟩
  · rintro ⟨sep, value, name, object, rfl⟩
    rw [KeyNames.hit, KeyNames.here_eq_some.mpr ⟨object.member, object.text⟩,
      Option.bind_some, (objectAt_eq_some (inside object.text)).mpr
        ⟨sep, object.key, object.brace, object.ends⟩]
    rfl

theorem KeyNames.hit_eq_none {tell : Nat → Nat → τ → Bytes → α} :
    names.hit tell b start = none ↔
      ∀ sep value stop name, ¬ ObjectAt names b sep start value stop name := by
  constructor
  · intro none sep value stop name object
    rw [KeyNames.hit_eq_some.mpr ⟨sep, value, name, object, rfl⟩] at none
    cases none
  · intro none
    cases found : names.hit tell b start with
    | none => rfl
    | some hit =>
        obtain ⟨sep, value, name, object, -⟩ :=
          KeyNames.hit_eq_some.mp (show names.hit tell b start = some (hit.1, hit.2) from found)
        exact absurd object (none _ _ _ _)

/-- The matches of a scan for the objects under `names`. -/
def KeyNames.matcher (names : KeyNames τ) (tell : Nat → Nat → τ → Bytes → α) (b : Bytes) :
    Matcher α where
  hit := names.hit tell b
  len := b.length
  forward := by
    intro p e x found
    obtain ⟨sep, value, name, object, -⟩ := KeyNames.hit_eq_some.mp found
    have bounds := object.bounds
    omega

end ObjectAt

/-! ## Parts of a text -/

theorem Located.part {b bytes : Bytes} {lo hi start : Nat} {c : Byte} :
    Located (part b lo hi) start (c :: bytes) ↔
      Located b (lo + start) (c :: bytes) ∧ lo + start + (c :: bytes).length ≤ hi := by
  have shape : (JsonScan.part b lo hi).drop start =
      (b.drop (lo + start)).take (hi - (lo + start)) := by
    rw [JsonScan.part, List.drop_drop, List.drop_take]
  constructor
  · rintro ⟨rest, located⟩
    rw [shape] at located
    have size := congrArg List.length located
    have inside := (List.take_prefix (hi - (lo + start)) (b.drop (lo + start))).length_le
    rw [List.length_take, List.length_append, List.length_cons] at size
    rw [List.length_cons]
    refine ⟨⟨rest ++ (b.drop (lo + start)).drop (hi - (lo + start)), ?_⟩, by omega⟩
    rw [← List.append_assoc, ← located, List.take_append_drop]
  · rintro ⟨⟨rest, located⟩, small⟩
    refine ⟨rest.take (hi - (lo + start) - (c :: bytes).length), ?_⟩
    rw [shape, located, List.take_append, List.take_of_length_le (by omega)]

theorem ObjectAt.part {b : Bytes} {lo hi sep start value stop : Nat} {name : Bytes × τ} :
    ObjectAt names (part b lo hi) sep start value stop name ↔
      ObjectAt names b (lo + sep) (lo + start) (lo + value) (lo + stop) name ∧
        lo + stop ≤ hi := by
  constructor
  · intro object
    have key := KeyAt.part.mp object.key
    have brace := part_byte.mp object.brace
    have ends := (skipValue_part brace.1 brace.2).mp object.ends
    exact ⟨⟨object.member, (Located.part.mp object.text).1, key.1, brace.1, ends.1⟩, ends.2⟩
  · rintro ⟨object, small⟩
    have bounds := object.bounds
    refine ⟨object.member, Located.part.mpr ⟨object.text, ?_⟩,
      KeyAt.part.mpr ⟨object.key, by omega⟩, part_byte.mpr ⟨object.brace, by omega⟩,
      (skipValue_part object.brace (by omega)).mpr ⟨object.ends, small⟩⟩
    have := bounds.2.1
    rw [quoted] at this
    omega

end JsonScan
end Llmbridge
