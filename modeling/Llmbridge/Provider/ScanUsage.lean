import Llmbridge.Provider.KeyTree
import Llmbridge.Provider.OpenAi

/-!
# The usage object of a body

`scan_usage` of `provider/src/openai.cpp`: the last usage object in a window at the end
of a response, found by its key.
-/

namespace Llmbridge
namespace OpenAi

open Rfc8259
open JsonScan
open Scanning (Matcher)

/-- `kUsage`. -/
def kUsage : Bytes := ascii "\"usage\""

/-- `kMetadata`. -/
def kMetadata : Bytes := ascii "\"usageMetadata\""

/-- `next_usage`: each `"usage` from `start` on, the two keys in one search. -/
def nextUsage (s : Bytes) (start : Nat) : Option Nat :=
  if s.length ≤ start then none else memmem s (ascii "\"usage") start

/-- The loop of `scan_usage`: whether the last object is Gemini's, and its text. -/
def scanUsageLoop (tail : Bytes) : (fuel start : Nat) → Bool × Bytes → Bool × Bytes
  | 0, _, last => last
  | fuel + 1, start, last =>
      match nextUsage tail start with
      | none => last
      | some found =>
          let rest := tail.drop found
          let g := kMetadata.isPrefixOf rest
          if g = false ∧ kUsage.isPrefixOf rest = false then
            scanUsageLoop tail fuel (found + 1) last
          else
            let len := if g then kMetadata.length else kUsage.length
            match objectAt tail found len with
            | none => scanUsageLoop tail fuel (found + 1) last
            | some (v, e) => scanUsageLoop tail fuel e (g, substr tail v (e - v))

/-- `kUsageWindow`. -/
def kUsageWindow : Nat := 4096

/-- Where the final `window` bytes of `size` begin; 0 is all of them. -/
def windowStart (size window : Nat) : Nat :=
  if window ≠ 0 ∧ window < size then size - window else 0

/-- `scan_usage`. -/
def scanUsage (body : Bytes) (window : Nat := kUsageWindow) : Usage :=
  let tail := body.drop (windowStart body.length window)
  let (gemini, last) := scanUsageLoop tail (tail.length + 1) 0 (false, [])
  if last.isEmpty then {} else readUsage last gemini

/-! ## What the scan takes -/

/-- The two keys; whether each is Gemini's. -/
def scannedKeys : KeyNames Bool where
  list := [(ascii "usageMetadata", true), (ascii "usage", false)]
  letters := by
    intro name member
    simp only [List.mem_cons, List.not_mem_nil, or_false] at member
    rcases member with rfl | rfl
    · exact ⟨by decide, List.all_eq_true.mp (by decide)⟩
    · exact ⟨by decide, List.all_eq_true.mp (by decide)⟩
  distinct := by decide

theorem scannedKeys_here (rest : Bytes) :
    scannedKeys.here rest =
      if kMetadata.isPrefixOf rest then some (ascii "usageMetadata", true)
      else if kUsage.isPrefixOf rest then some (ascii "usage", false) else none := by
  have metadata : quoted (ascii "usageMetadata") = kMetadata := by decide
  have usage : quoted (ascii "usage") = kUsage := by decide
  rw [KeyNames.here, scannedKeys, List.find?_cons, List.find?_cons, List.find?_nil, metadata,
    usage]
  cases kMetadata.isPrefixOf rest <;> cases kUsage.isPrefixOf rest <;> rfl

/-- Both keys begin as the search does. -/
theorem scannedKeys_text {b : Bytes} {p : Nat} {name : Bytes × Bool}
    (member : name ∈ scannedKeys.list) (text : Located b p (quoted name.1)) :
    Located b p (ascii "\"usage") := by
  have start : ∃ rest, quoted name.1 = ascii "\"usage" ++ rest := by
    simp only [scannedKeys, List.mem_cons, List.not_mem_nil, or_false] at member
    rcases member with rfl | rfl
    · exact ⟨ascii "Metadata\"", by decide⟩
    · exact ⟨ascii "\"", by decide⟩
  obtain ⟨rest, shape⟩ := start
  rw [shape] at text
  exact text.split.1

/-- The usage objects of a text. -/
def usageMatcher (b : Bytes) : Matcher (Bool × Bytes) :=
  scannedKeys.matcher (fun _ _ gemini object => (gemini, object)) b

theorem usageMatcher_hit (b : Bytes) :
    (usageMatcher b).hit = scannedKeys.hit (fun _ _ gemini object => (gemini, object)) b := rfl

theorem usageMatcher_miss {b : Bytes} {r : Nat} (other : ¬ Located b r (ascii "\"usage")) :
    (usageMatcher b).hit r = none := by
  rw [usageMatcher_hit]
  refine KeyNames.hit_eq_none.mpr fun sep value stop name object => ?_
  exact other (scannedKeys_text object.member object.text)

theorem usageMatcher_skip {b : Bytes} {start found : Nat}
    (next : nextUsage b start = some found) :
    start ≤ found ∧ (usageMatcher b).found start = (usageMatcher b).found found := by
  unfold nextUsage at next
  split_ifs at next
  obtain ⟨ordered, -, earlier⟩ := memmem_eq_some next
  exact ⟨ordered, (usageMatcher b).found_skip ordered fun r from_start before =>
    usageMatcher_miss (earlier r from_start before)⟩

theorem usageMatcher_none {b : Bytes} {start : Nat} (next : nextUsage b start = none) :
    (usageMatcher b).found start = [] := by
  unfold nextUsage at next
  split_ifs at next with atEnd
  · exact (usageMatcher b).found_end atEnd
  · exact (usageMatcher b).found_none fun r from_start =>
      usageMatcher_miss (memmem_eq_none next r from_start)

/-- At a place the search stops at, the matcher does what the loop does. -/
theorem usageMatcher_at (b : Bytes) (p : Nat) :
    (usageMatcher b).hit p =
      let rest := b.drop p
      let g := kMetadata.isPrefixOf rest
      if g = false ∧ kUsage.isPrefixOf rest = false then none
      else
        let len := if g then kMetadata.length else kUsage.length
        match objectAt b p len with
        | none => none
        | some (v, e) => some (e, g, substr b v (e - v)) := by
  rw [usageMatcher_hit, KeyNames.hit, scannedKeys_here]
  dsimp only
  cases kMetadata.isPrefixOf (b.drop p) with
  | true =>
      simp only [if_true, Option.bind_some, Bool.true_eq_false, false_and, if_false]
      show (objectAt b p kMetadata.length).map _ = _
      cases objectAt b p kMetadata.length <;> rfl
  | false =>
      cases kUsage.isPrefixOf (b.drop p) with
      | true =>
          simp only [if_true, Bool.false_eq_true, if_false, Option.bind_some,
            Bool.true_eq_false, and_false]
          show (objectAt b p kUsage.length).map _ = _
          cases objectAt b p kUsage.length <;> rfl
      | false => rfl

/-- The loop keeps the last object found. -/
theorem scanUsageLoop_eq (tail : Bytes) :
    ∀ (fuel start : Nat) (last : Bool × Bytes), tail.length - start < fuel →
      scanUsageLoop tail fuel start last =
        ((usageMatcher tail).found start).getLast?.getD last := by
  intro fuel
  induction fuel with
  | zero =>
      intro start last enough
      omega
  | succ fuel inductionHypothesis =>
      intro start last enough
      rw [scanUsageLoop]
      cases next : nextUsage tail start with
      | none => rw [usageMatcher_none next]; rfl
      | some found =>
          obtain ⟨ordered, skipped⟩ := usageMatcher_skip next
          have inside : found < tail.length := by
            unfold nextUsage at next
            split_ifs at next
            exact (List.getElem?_eq_some_iff.mp (memmem_eq_some next).2.1.head).1
          have here := usageMatcher_at tail found
          rw [skipped]
          dsimp only at here ⊢
          split_ifs at here ⊢ with absent
          · rw [(usageMatcher tail).found_miss here, inductionHypothesis _ _ (by omega)]
          all_goals
            cases object : objectAt tail found _ with
            | none =>
                rw [object] at here
                rw [(usageMatcher tail).found_miss here]
                exact inductionHypothesis _ _ (by omega)
            | some place =>
                rw [object] at here
                have bounds := (usageMatcher tail).forward here
                rw [(usageMatcher tail).found_take here, List.getLast?_cons,
                  Option.getD_some]
                exact inductionHypothesis _ _ (by omega)

/-- An object taken is not empty. -/
theorem usageMatcher_ne_nil {b : Bytes} {start : Nat} {x : Bool × Bytes}
    (member : x ∈ (usageMatcher b).found start) : x.2 ≠ [] := by
  obtain ⟨q, e, -, hit⟩ := (usageMatcher b).hit_of_mem_found member
  rw [usageMatcher_hit] at hit
  obtain ⟨sep, value, name, object, rfl⟩ := KeyNames.hit_eq_some.mp hit
  have bounds := object.bounds
  apply List.ne_nil_of_length_pos
  simp only [substr, List.length_take, List.length_drop]
  omega

/-- `scan_usage` on any bytes reads the last object taken in the window. -/
theorem scanUsage_eq (body : Bytes) (window : Nat) :
    scanUsage body window =
      match ((usageMatcher (body.drop (windowStart body.length window))).found 0).getLast? with
      | none => {}
      | some (gemini, object) => readUsage object gemini := by
  rw [scanUsage, scanUsageLoop_eq _ _ _ _ (by omega)]
  cases last : ((usageMatcher (body.drop (windowStart body.length window))).found 0).getLast? with
  | none => rfl
  | some taken =>
      have some : taken.2 ≠ [] := usageMatcher_ne_nil (List.mem_of_getLast? last)
      dsimp only [Option.getD_some]
      rw [if_neg (by rwa [List.isEmpty_iff])]

/-- On a JSON text `scan_usage` reads the last member, at any depth, whose key is
`usage` or `usageMetadata`, whose value is an object and which begins in the window with
its separator, of those that no other such member holds. -/
theorem scanUsage_correct (text : Text) (window : Nat) :
    scanUsage text.render window =
      match (scannedKeys.inText (windowStart text.render.length window) text).getLast? with
      | none => {}
      | some (gemini, object) => readUsage object gemini := by
  have tail : text.render.drop (windowStart text.render.length window) =
      part text.render (windowStart text.render.length window) text.render.length := by
    rw [part, List.take_length]
  have found : (usageMatcher (text.render.drop
      (windowStart text.render.length window))).found 0 =
        scannedKeys.inText (windowStart text.render.length window) text := by
    rw [tail]
    exact scannedKeys.window_found text _
  rw [scanUsage_eq, found]

end OpenAi
end Llmbridge
