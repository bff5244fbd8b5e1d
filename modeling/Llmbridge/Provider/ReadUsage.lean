import Llmbridge.Provider.JsonCount
import Llmbridge.Provider.OpenAi

/-!
# What reading a usage object keeps

The readers of `json_scan` call a function on every member or element they come to.
What each call keeps the whole walk keeps, and two walks over the same bytes go
together.
-/

namespace Llmbridge
namespace JsonScan

open Rfc8259

section Members

variable {σ τ : Type} {f : σ → Bytes → Bytes → σ × Bool} {g : τ → Bytes → Bytes → τ × Bool}
  {R : σ → τ → Prop}

/-- Two functions that keep a relation and go on alike. -/
def StepsTogether (f : σ → Bytes → Bytes → σ × Bool) (g : τ → Bytes → Bytes → τ × Bool)
    (R : σ → τ → Prop) : Prop :=
  ∀ s t k v, R s t → R (f s k v).1 (g t k v).1 ∧ (f s k v).2 = (g t k v).2

theorem membersLoop_together (steps : StepsTogether f g R) (obj : Bytes) :
    ∀ (fuel i : Nat) (s : σ) (t : τ), R s t →
      R (membersLoop f obj fuel i s).2 (membersLoop g obj fuel i t).2 := by
  intro fuel
  induction fuel with
  | zero => exact fun _ _ _ related => related
  | succ fuel inductionHypothesis =>
      intro i s t related
      unfold membersLoop
      by_cases quote : obj[i]? ≠ some 0x22
      · rw [if_pos quote, if_pos quote]
        exact related
      · rw [if_neg quote, if_neg quote]
        dsimp only
        cases stringClose obj (i + 1) with
        | none => exact related
        | some close =>
            dsimp only
            by_cases colon : obj[skipWs obj (close + 1)]? ≠ some 0x3a
            · rw [if_pos colon, if_pos colon]
              exact related
            · rw [if_neg colon, if_neg colon]
              cases skipValue obj (skipWs obj (skipWs obj (close + 1) + 1)) with
              | none => exact related
              | some stop =>
                  dsimp only
                  have step := steps s t (substr obj (i + 1) (close - (i + 1)))
                    (substr obj (skipWs obj (skipWs obj (close + 1) + 1))
                      (stop - skipWs obj (skipWs obj (close + 1) + 1))) related
                  revert step
                  cases f s (substr obj (i + 1) (close - (i + 1))) _ with
                  | mk s' goes =>
                  cases g t (substr obj (i + 1) (close - (i + 1))) _ with
                  | mk t' goes' =>
                  rintro ⟨related', rfl⟩
                  cases goes with
                  | false => exact related'
                  | true =>
                      dsimp only
                      by_cases last : obj[skipWs obj stop]? = some 0x7d
                      · rw [if_pos last, if_pos last]
                        exact related'
                      · rw [if_neg last, if_neg last]
                        by_cases comma : obj[skipWs obj stop]? ≠ some 0x2c
                        · rw [if_pos comma, if_pos comma]
                          exact related'
                        · rw [if_neg comma, if_neg comma]
                          exact inductionHypothesis _ _ _ related'

/-- Two walks over the members of the same bytes go together. -/
theorem forEachMember_together (steps : StepsTogether f g R) (obj : Bytes) {s : σ} {t : τ}
    (related : R s t) : R (forEachMember f obj s).2 (forEachMember g obj t).2 := by
  unfold forEachMember
  dsimp only
  split_ifs
  · exact related
  · exact related
  · exact membersLoop_together steps obj _ _ _ _ related

/-- What each call keeps the walk keeps. -/
theorem forEachMember_keeps {P : σ → Prop} (step : ∀ s k v, P s → P (f s k v).1)
    (obj : Bytes) {s : σ} (holds : P s) : P (forEachMember f obj s).2 := by
  have steps : StepsTogether f f fun s t => s = t ∧ P s := by
    rintro s t k v ⟨rfl, holds⟩
    exact ⟨⟨rfl, step s k v holds⟩, rfl⟩
  exact (forEachMember_together steps obj ⟨rfl, holds⟩).2

end Members

section Elements

variable {σ τ : Type} {f : σ → Bytes → σ} {g : τ → Bytes → τ} {R : σ → τ → Prop}

theorem elementsLoop_together (steps : ∀ s t e, R s t → R (f s e) (g t e)) (arr : Bytes) :
    ∀ (fuel i : Nat) (s : σ) (t : τ), R s t →
      R (elementsLoop f arr fuel i s).2 (elementsLoop g arr fuel i t).2 := by
  intro fuel
  induction fuel with
  | zero => exact fun _ _ _ related => related
  | succ fuel inductionHypothesis =>
      intro i s t related
      unfold elementsLoop
      cases skipValue arr i with
      | none => exact related
      | some stop =>
          dsimp only
          have related' := steps s t (substr arr i (stop - i)) related
          split_ifs
          · exact related'
          · exact related'
          · exact inductionHypothesis _ _ _ related'

/-- Two walks over the elements of the same bytes go together. -/
theorem forEachElement_together (steps : ∀ s t e, R s t → R (f s e) (g t e)) (arr : Bytes)
    {s : σ} {t : τ} (related : R s t) :
    R (forEachElement f arr s).2 (forEachElement g arr t).2 := by
  unfold forEachElement
  dsimp only
  split_ifs
  · exact related
  · exact related
  · exact elementsLoop_together steps arr _ _ _ _ related

/-- What each call keeps the walk keeps. -/
theorem forEachElement_keeps {P : σ → Prop} (step : ∀ s e, P s → P (f s e)) (arr : Bytes)
    {s : σ} (holds : P s) : P (forEachElement f arr s).2 := by
  have steps : ∀ s t, ∀ e : Bytes, (s = t ∧ P s) → (f s e = f t e ∧ P (f s e)) := by
    rintro s t e ⟨rfl, holds⟩
    exact ⟨rfl, step s e holds⟩
  exact (forEachElement_together (R := fun s t => s = t ∧ P s) steps arr ⟨rfl, holds⟩).2

end Elements

end JsonScan

namespace OpenAi

open Rfc8259
open JsonScan

/-- One member of a usage object, as `read_members` reads it. -/
def readStep (keys : List Key) (levels : Nat) (parent : Bytes) (r : Raw) (k v : Bytes) :
    Raw × Bool :=
  if v.head? = some 0x7b then
    (if parent = [] then readMembers keys levels v k r else r, true)
  else if parent = [] ∧ v.head? = some 0x5b then
    (if k = ascii "iterations" then readIterations v r
    else if k = ascii "promptTokensDetails" then
      { r with gAudioIn := modalityCount v (ascii "AUDIO") }
    else if k = ascii "candidatesTokensDetails" then
      { r with gAudioOut := modalityCount v (ascii "AUDIO") }
    else r, true)
  else if parent = [] ∧ v.head? = some 0x22 then
    (if k = ascii "speed" then { r with speed := plainString v }
    else if k = ascii "inference_geo" then { r with geo := plainString v }
    else r, true)
  else
    match keys.find? fun key => ascii key.name = k ∧ ascii key.parent = parent with
    | some key => (key.set r (key.parse v), true)
    | none => (r, true)

theorem readMembers_succ (keys : List Key) (levels : Nat) (obj parent : Bytes) (r : Raw) :
    readMembers keys (levels + 1) obj parent r =
      (forEachMember (readStep keys levels parent) obj r).2 := rfl

/-- What every change of a usage object's reading keeps. -/
structure Kept (keys : List Key) (P : Raw → Prop) : Prop where
  iteration : ∀ r e, P r → P (r.iteration e)
  audioIn : ∀ r arr, P r → P { r with gAudioIn := modalityCount arr (ascii "AUDIO") }
  audioOut : ∀ r arr, P r → P { r with gAudioOut := modalityCount arr (ascii "AUDIO") }
  speed : ∀ r s, P r → P { r with speed := s }
  geo : ∀ r s, P r → P { r with geo := s }
  set : ∀ key ∈ keys, ∀ r raw, P r → P (key.set r (key.parse raw))

theorem Kept.readIterations {keys : List Key} {P : Raw → Prop} (kept : Kept keys P)
    (arr : Bytes) {r : Raw} (holds : P r) : P (readIterations arr r) :=
  forEachElement_keeps (fun r _ holds => kept.iteration r _ holds) arr holds

theorem Kept.readMembers {keys : List Key} {P : Raw → Prop} (kept : Kept keys P) :
    ∀ (levels : Nat) (obj parent : Bytes) {r : Raw}, P r →
      P (readMembers keys levels obj parent r) := by
  intro levels
  induction levels with
  | zero => exact fun _ _ _ holds => holds
  | succ levels inductionHypothesis =>
      intro obj parent r holds
      rw [readMembers_succ]
      refine forEachMember_keeps ?_ obj holds
      intro r k v holds
      unfold readStep
      split_ifs
      · exact inductionHypothesis v k holds
      · exact holds
      · exact kept.readIterations v holds
      · exact kept.audioIn r v holds
      · exact kept.audioOut r v holds
      · exact holds
      · exact kept.speed r _ holds
      · exact kept.geo r _ holds
      · exact holds
      · cases found : keys.find? fun key => ascii key.name = k ∧ ascii key.parent = parent with
        | none => exact holds
        | some key => exact kept.set key (List.mem_of_find?_eq_some found) r v holds

end OpenAi
end Llmbridge
