import Llmbridge.Provider.Json

/-!
# The repeated-key check is exact

The parser checks an object's keys in two stages, a filter of 64 bits and a
comparison of the raw or of the decoded keys.  Together they say whether two
keys decode to the same name, provided that a string with a backslash since the
object opened was reported.
-/

namespace Llmbridge
namespace Json

open Rfc8259 (Byte Bytes)

/-! ## Decoding plain keys -/

/-- No backslash in a raw span. -/
def Unescaped (raw : Bytes) : Prop :=
  ∀ c ∈ raw, c ≠ 0x5c

/-- A span without a backslash decodes to itself. -/
theorem unescapeString_of_unescaped
    {raw : Bytes} (plain : Unescaped raw) : unescapeString raw = raw := by
  unfold unescapeString
  induction raw with
  | nil => rw [unescapeFrom.eq_def]
  | cons c rest inductionHypothesis =>
      have first : c ≠ 0x5c := plain c (by simp)
      have others := inductionHypothesis fun c member =>
        plain c (List.mem_cons_of_mem _ member)
      rw [unescapeFrom.eq_def]
      simp [first, others]

theorem map_unescapeString_of_unescaped
    {keys : List Bytes} (plain : ∀ key ∈ keys, Unescaped key) :
    keys.map unescapeString = keys := by
  conv_rhs => rw [← List.map_id keys]
  exact List.map_congr_left fun key member =>
    unescapeString_of_unescaped (plain key member)

theorem any_contains_backslash_eq_false_iff {keys : List Bytes} :
    (keys.any fun key => key.contains 0x5c) = false ↔
      ∀ key ∈ keys, Unescaped key := by
  simp only [List.any_eq_false, List.contains_iff_mem, Unescaped]
  constructor
  · intro absent key member c inside equal
    exact absent key member (equal ▸ inside)
  · intro plain key member inside
    exact plain key member _ inside rfl

/-! ## The exact comparisons -/

/-- On a sorted list equal keys are neighbours. -/
theorem noAdjacentEqual_iff
    {keys : List Bytes} (sorted : keys.Pairwise (· ≤ ·)) :
    noAdjacentEqual keys = true ↔ keys.Nodup := by
  induction keys with
  | nil => simp [noAdjacentEqual]
  | cons first rest inductionHypothesis =>
      obtain ⟨below, restSorted⟩ := List.pairwise_cons.mp sorted
      cases rest with
      | nil => simp [noAdjacentEqual]
      | cons second tail =>
          rw [noAdjacentEqual, Bool.and_eq_true,
            inductionHypothesis restSorted, List.nodup_cons (a := first)]
          refine and_congr_left fun distinct => ?_
          simp only [bne_iff_ne, List.mem_cons, not_or]
          constructor
          · intro different
            refine ⟨different, fun later => different ?_⟩
            have upper := (List.pairwise_cons.mp restSorted).1 first later
            exact List.le_antisymm (below second (by simp)) upper
          · exact fun absent => absent.1

theorem sortedFresh_iff (keys : List Bytes) :
    sortedFresh keys = true ↔ keys.Nodup := by
  rw [sortedFresh, noAdjacentEqual_iff (List.pairwise_insertionSort (· ≤ ·) keys)]
  exact (List.perm_insertionSort (· ≤ ·) keys).nodup_iff

theorem pairwiseFresh_iff (keys : List Bytes) :
    pairwiseFresh keys = true ↔ keys.Nodup := by
  induction keys with
  | nil => simp [pairwiseFresh]
  | cons key rest inductionHypothesis =>
      simp only [pairwiseFresh, Bool.and_eq_true, inductionHypothesis,
        List.nodup_cons, List.all_eq_true, bne_iff_ne]
      refine and_congr_left fun _ => ?_
      constructor
      · exact fun different member => different key member rfl
      · exact fun absent other member equal => absent (equal ▸ member)

/-- `keys_unique` compares the decoded keys. -/
theorem keysUnique_iff (keys : List Bytes) :
    keysUnique keys = true ↔ (keys.map unescapeString).Nodup := by
  unfold keysUnique
  split
  · exact sortedFresh_iff _
  · next plain =>
      rw [Bool.not_eq_true, any_contains_backslash_eq_false_iff] at plain
      rw [map_unescapeString_of_unescaped plain]
      split
      · exact pairwiseFresh_iff keys
      · exact sortedFresh_iff keys

/-! ## The filter -/

/-- A walk of the filter that meets no set bit meets no key twice, and no key
whose bit was set before. -/
theorem bitsFresh_nodup
    {seen : Nat} {keys : List Bytes} (fresh : bitsFresh seen keys = true) :
    keys.Nodup ∧ ∀ key ∈ keys, seen.testBit (keyBit key) = false := by
  induction keys generalizing seen with
  | nil => simp
  | cons key rest inductionHypothesis =>
      rw [bitsFresh] at fresh
      split at fresh
      · simp at fresh
      · next clear =>
          obtain ⟨distinct, later⟩ := inductionHypothesis fresh
          simp only [Nat.testBit_or, Bool.or_eq_false_iff] at later
          refine ⟨List.nodup_cons.mpr ⟨fun member => ?_, distinct⟩, ?_⟩
          · have bit := (later key member).2
            simp [Nat.one_shiftLeft, Nat.testBit_two_pow_self] at bit
          · intro other member
            rcases List.mem_cons.mp member with rfl | member
            · simpa using clear
            · exact (later other member).1

/-- `keys_fresh` is exact when a backslash in a key was reported. -/
theorem keysFresh_iff
    {keys : List Bytes} {escaped : Bool}
    (reported : escaped = false → ∀ key ∈ keys, Unescaped key) :
    keysFresh keys escaped = true ↔ (keys.map unescapeString).Nodup := by
  unfold keysFresh
  split
  · next short =>
      have nodup : (keys.map unescapeString).Nodup := by
        match keys, short with
        | [], _ => simp
        | [_], _ => simp
      simp [nodup]
  · split
    · exact keysUnique_iff keys
    · next notEscaped =>
        split
        · next fresh =>
            have plain := reported (by simpa using notEscaped)
            rw [map_unescapeString_of_unescaped plain]
            simp [(bitsFresh_nodup fresh).1]
        · exact keysUnique_iff keys

end Json
end Llmbridge
