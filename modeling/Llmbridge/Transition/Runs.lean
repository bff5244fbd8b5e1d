import Mathlib

/-!
# Runs

What a step of a relation preserves, every run preserves; and a list is written item by item,
each allowed by the items in front of it.
-/

namespace Llmbridge
namespace Transition

open Relation (ReflTransGen)

variable {σ : Type} {init : σ → Prop} {step : σ → σ → Prop}

/-- A state that a run reaches. -/
def Reachable (init : σ → Prop) (step : σ → σ → Prop) (s : σ) : Prop :=
  ∃ s₀, init s₀ ∧ ReflTransGen step s₀ s

theorem Reachable.start {s : σ} (starts : init s) : Reachable init step s :=
  ⟨s, starts, ReflTransGen.refl⟩

theorem Reachable.run {s t : σ} (reachable : Reachable init step s)
    (runs : ReflTransGen step s t) : Reachable init step t := by
  obtain ⟨s₀, starts, led⟩ := reachable
  exact ⟨s₀, starts, led.trans runs⟩

/-- A run keeps what each of its steps keeps. -/
theorem kept_of_run {I : σ → Prop} (next : ∀ s t, I s → step s t → I t) {s t : σ}
    (runs : ReflTransGen step s t) (holds : I s) : I t := by
  induction runs with
  | refl => exact holds
  | tail _ last inductionHypothesis => exact next _ _ inductionHypothesis last

/-- An invariant holds in every state reached. -/
theorem Reachable.invariant {I : σ → Prop} (start : ∀ s, init s → I s)
    (next : ∀ s t, I s → step s t → I t) {s : σ} (reachable : Reachable init step s) : I s := by
  obtain ⟨s₀, starts, led⟩ := reachable
  exact kept_of_run next led (start s₀ starts)

/-! ## What may stand behind what -/

section Guarded

variable {α : Type} {allowed weaker : List α → α → Prop}

/-- Every item is allowed behind the items in front of it. -/
def Guarded (allowed : List α → α → Prop) (items : List α) : Prop :=
  ∀ front x back, items = front ++ x :: back → allowed front x

theorem Guarded.nil : Guarded allowed [] := by
  intro front x back split
  exact absurd split.symm (List.append_ne_nil_of_right_ne_nil front (List.cons_ne_nil x back))

theorem Guarded.mono {items : List α} (guarded : Guarded allowed items)
    (implies : ∀ front x, allowed front x → weaker front x) : Guarded weaker items :=
  fun front x back split => implies front x (guarded front x back split)

/-- One more item. -/
theorem Guarded.concat {items : List α} {y : α} (guarded : Guarded allowed items)
    (next : allowed items y) : Guarded allowed (items ++ [y]) := by
  intro front x back split
  rcases List.eq_nil_or_concat back with rfl | ⟨back', z, rfl⟩
  · obtain ⟨rfl, same⟩ := List.append_inj' split rfl
    obtain rfl : y = x := List.head_eq_of_cons_eq same
    exact next
  · rw [List.concat_eq_append, ← List.cons_append, ← List.append_assoc] at split
    exact guarded front x back' (List.append_inj_left' split rfl)

end Guarded

end Transition
end Llmbridge
