import Llmbridge.Rfc8259.Automaton

/-!
# What a byte can do to the recogniser

The recogniser's places fall into a few phases, and a byte takes it from one
phase to another in one of the ways of `Turn`, or ends a number first.  An
invariant of an observer over every prefix of an input is therefore checked
against the turns only.
-/

namespace Llmbridge
namespace Rfc8259

/-- Where the recogniser is, as far as what it tells depends on it. -/
inductive Phase
  | value
  | first (kind : Kind)
  | key
  | colon
  | next
  | inKey
  | inScalar
  deriving DecidableEq, Repr

/-- The phase of a place. -/
def Place.phase : Place → Phase
  | .value => .value
  | .first kind => .first kind
  | .key => .key
  | .colon => .colon
  | .next => .next
  | .chars isKey => if isKey then .inKey else .inScalar
  | .escape isKey => if isKey then .inKey else .inScalar
  | .hex isKey _ => if isKey then .inKey else .inScalar
  | _ => .inScalar

section Turns

variable {σ : Type} (emit : Event → σ → Option σ)

/-- What a byte at `i` does: the phase, the open containers and the observer's
state before and after. -/
inductive Turn (i : Nat) :
    Phase → List Kind → σ → Phase → List Kind → σ → Prop
  /-- Whitespace, or a byte inside a token. -/
  | stay (phase : Phase) (stack : List Kind) (s : σ) :
      Turn i phase stack s phase stack s
  /-- A value that is no container starts. -/
  | scalar {phase : Phase} {stack : List Kind} {s s' : σ} {c : Byte} :
      phase = .value ∨ phase = .first .array → c ≠ 0x7b → c ≠ 0x5b →
      emit (.start stack.length i c) s = some s' →
      Turn i phase stack s .inScalar stack s'
  /-- A container opens. -/
  | opens {phase : Phase} {stack : List Kind} {s s' : σ} (kind : Kind) :
      phase = .value ∨ phase = .first .array →
      emit (.start stack.length i kind.opens) s = some s' →
      Turn i phase stack s (.first kind) (kind :: stack) s'
  /-- A key opens. -/
  | keyStart {phase : Phase} {stack : List Kind} {s s' : σ} :
      phase = .first .object ∨ phase = .key →
      emit (.keyStart stack.length i) s = some s' →
      Turn i phase stack s .inKey stack s'
  /-- A key closes. -/
  | keyEnd {stack : List Kind} {s s' : σ} :
      emit (.keyEnd stack.length i) s = some s' →
      Turn i .inKey stack s .colon stack s'
  /-- A colon. -/
  | colon {stack : List Kind} {s : σ} : Turn i .colon stack s .value stack s
  /-- A comma between elements. -/
  | element {stack : List Kind} {s : σ} :
      Turn i .next (.array :: stack) s .value (.array :: stack) s
  /-- A comma between members. -/
  | comma {stack : List Kind} {s s' : σ} :
      emit (.comma (stack.length + 1) i) s = some s' →
      Turn i .next (.object :: stack) s .key (.object :: stack) s'
  /-- A container closes. -/
  | close {phase : Phase} {kind : Kind} {stack : List Kind} {s s₁ s' : σ} :
      phase = .first kind ∨ phase = .next →
      emit (.close stack.length) s = some s₁ →
      emit (.finish stack.length (i + 1)) s₁ = some s' →
      Turn i phase (kind :: stack) s .next stack s'
  /-- The last byte of a scalar. -/
  | finish {stack : List Kind} {s s' : σ} :
      emit (.finish stack.length (i + 1)) s = some s' →
      Turn i .inScalar stack s .next stack s'

end Turns

section Steps

variable {σ : Type} {limit : Nat} {emit : Event → σ → Option σ}

/-- A place right behind an opening bracket is in that container. -/
def Machine.Nested (m : Machine) : Prop :=
  ∀ kind, m.place = .first kind → m.stack.head? = some kind

theorem valueDone_eq_some
    {stack : List Kind} {stop : Nat} {s s' : σ} {m : Machine}
    (done : valueDone emit stack stop s = some (m, s')) :
    m = ⟨.next, stack⟩ ∧ emit (.finish stack.length stop) s = some s' := by
  rw [valueDone, Option.map_eq_some_iff] at done
  obtain ⟨s₁, emitted, equal⟩ := done
  rw [Prod.mk.injEq] at equal
  exact ⟨equal.1.symm, equal.2 ▸ emitted⟩

theorem closeContainer_turn
    {phase : Phase} {kind : Kind} {stack : List Kind} {i : Nat} {s s' : σ}
    {m : Machine} (before : phase = .first kind ∨ phase = .next)
    (closed : closeContainer emit stack i s = some (m, s')) :
    m.Nested ∧ Turn emit i phase (kind :: stack) s m.place.phase m.stack s' := by
  rw [closeContainer, Option.bind_eq_some_iff] at closed
  obtain ⟨s₁, emitted, done⟩ := closed
  obtain ⟨rfl, finished⟩ := valueDone_eq_some done
  exact ⟨fun _ first => Place.noConfusion first, .close before emitted finished⟩

theorem beginValue_turn
    {phase : Phase} {stack : List Kind} {i : Nat} {c : Byte} {s s' : σ}
    {m : Machine} (before : phase = .value ∨ phase = .first .array)
    (begun : beginValue limit emit stack i c s = some (m, s')) :
    m.Nested ∧ Turn emit i phase stack s m.place.phase m.stack s' := by
  rw [beginValue_eq, Option.bind_eq_some_iff] at begun
  obtain ⟨s₁, emitted, rest⟩ := begun
  rw [Option.map_eq_some_iff] at rest
  obtain ⟨m₁, begunAt, equal⟩ := rest
  rw [Prod.mk.injEq] at equal
  obtain ⟨rfl, rfl⟩ := equal
  rw [valueBegun] at begunAt
  have scalar : ∀ {place : Place}, place.phase = .inScalar →
      (∀ kind, place ≠ .first kind) → c ≠ 0x7b → c ≠ 0x5b →
      some (⟨place, stack⟩ : Machine) = some m₁ →
      m₁.Nested ∧ Turn emit i phase stack s m₁.place.phase m₁.stack s₁ := by
    intro place isScalar notFirst notBrace notBracket equal
    rw [Option.some.injEq] at equal
    subst equal
    refine ⟨fun kind first => absurd first (notFirst kind), ?_⟩
    rw [isScalar]
    exact .scalar before notBrace notBracket emitted
  have ne : ∀ {d : Byte}, c = d → (d ≠ 0x7b ∧ d ≠ 0x5b) → c ≠ 0x7b ∧ c ≠ 0x5b := by
    rintro _ rfl differs
    exact differs
  by_cases quote : c = 0x22
  · rw [if_pos quote] at begunAt
    have differs := ne quote (by decide)
    exact scalar rfl (by simp) differs.1 differs.2 begunAt
  rw [if_neg quote] at begunAt
  by_cases brace : c = 0x7b
  · rw [if_pos brace] at begunAt
    split at begunAt
    · simp at begunAt
    · rw [Option.some.injEq] at begunAt
      subst begunAt brace
      exact ⟨fun kind first => by simpa using first, .opens .object before emitted⟩
  rw [if_neg brace] at begunAt
  by_cases bracket : c = 0x5b
  · rw [if_pos bracket] at begunAt
    split at begunAt
    · simp at begunAt
    · rw [Option.some.injEq] at begunAt
      subst begunAt bracket
      exact ⟨fun kind first => by simpa using first, .opens .array before emitted⟩
  rw [if_neg bracket] at begunAt
  repeat' split at begunAt
  all_goals first
    | exact scalar rfl (by simp) brace bracket begunAt
    | exact absurd begunAt (by simp)

theorem beginKey_turn
    {phase : Phase} {stack : List Kind} {i : Nat} {c : Byte} {s s' : σ}
    {m : Machine} (before : phase = .first .object ∨ phase = .key)
    (begun : beginKey emit stack i c s = some (m, s')) :
    m.Nested ∧ Turn emit i phase stack s m.place.phase m.stack s' := by
  rw [beginKey] at begun
  split at begun
  · rw [Option.map_eq_some_iff] at begun
    obtain ⟨s₁, emitted, equal⟩ := begun
    rw [Prod.mk.injEq] at equal
    obtain ⟨rfl, rfl⟩ := equal
    exact ⟨fun _ first => Place.noConfusion first, .keyStart before emitted⟩
  · simp at begun

theorem stepBetween_turn
    {m m' : Machine} {i : Nat} {c : Byte} {s s' : σ} (nested : m.Nested)
    (stepped : stepBetween limit emit m i c s = some (m', s')) :
    m'.Nested ∧ Turn emit i m.place.phase m.stack s m'.place.phase m'.stack s' := by
  rw [stepBetween] at stepped
  split at stepped
  · rw [Option.some.injEq, Prod.mk.injEq] at stepped
    obtain ⟨rfl, rfl⟩ := stepped
    exact ⟨nested, .stay ..⟩
  obtain ⟨place, stack⟩ := m
  cases place with
  | value => exact beginValue_turn (Or.inl rfl) stepped
  | first kind =>
      cases stack with
      | nil => exact absurd (nested kind rfl) (by simp)
      | cons inner outer =>
          obtain rfl : inner = kind := by simpa using nested kind rfl
          cases inner with
          | array =>
              dsimp only [stepMark] at stepped
              split at stepped
              · exact closeContainer_turn (Or.inl rfl) stepped
              · exact beginValue_turn (Or.inr rfl) stepped
          | object =>
              dsimp only [stepMark] at stepped
              split at stepped
              · exact closeContainer_turn (Or.inl rfl) stepped
              · exact beginKey_turn (Or.inl rfl) stepped
  | key => exact beginKey_turn (Or.inr rfl) stepped
  | colon =>
      dsimp only [stepMark] at stepped
      split at stepped
      · rw [Option.some.injEq, Prod.mk.injEq] at stepped
        obtain ⟨rfl, rfl⟩ := stepped
        exact ⟨fun _ first => Place.noConfusion first, .colon⟩
      · simp at stepped
  | next =>
      cases stack with
      | nil => exact absurd stepped (by simp [stepMark])
      | cons inner outer =>
          cases inner with
          | array =>
              dsimp only [stepMark] at stepped
              split at stepped
              · rw [Option.some.injEq, Prod.mk.injEq] at stepped
                obtain ⟨rfl, rfl⟩ := stepped
                exact ⟨fun _ first => Place.noConfusion first, .element⟩
              · split at stepped
                · exact closeContainer_turn (Or.inr rfl) stepped
                · simp at stepped
          | object =>
              dsimp only [stepMark] at stepped
              split at stepped
              · rw [Option.map_eq_some_iff] at stepped
                obtain ⟨s₁, emitted, equal⟩ := stepped
                rw [Prod.mk.injEq] at equal
                obtain ⟨rfl, rfl⟩ := equal
                exact ⟨fun _ first => Place.noConfusion first, .comma emitted⟩
              · split at stepped
                · exact closeContainer_turn (Or.inr rfl) stepped
                · simp at stepped
  | chars | escape | hex | sign | zero | int | dot | frac | e | eSign | exp
  | lit => exact absurd stepped (by simp [stepMark])

/-- A byte does one turn, or ends a number and does a turn behind it. -/
theorem stepByte_turn
    {m m' : Machine} {i : Nat} {c : Byte} {s s' : σ} (nested : m.Nested)
    (stepped : stepByte limit emit m i c s = some (m', s')) :
    m'.Nested ∧
      (Turn emit i m.place.phase m.stack s m'.place.phase m'.stack s' ∨
        m.place.phase = .inScalar ∧
          ∃ s₁, emit (.finish m.stack.length i) s = some s₁ ∧
            Turn emit i .next m.stack s₁ m'.place.phase m'.stack s') := by
  obtain ⟨place, stack⟩ := m
  -- A byte that only moves on inside a token.
  have moves : ∀ {place' : Place}, place'.phase = place.phase →
      (∀ kind, place' ≠ .first kind) →
      some ((⟨place', stack⟩ : Machine), s) = some (m', s') →
      m'.Nested ∧ (Turn emit i place.phase stack s m'.place.phase m'.stack s' ∨
        place.phase = .inScalar ∧
          ∃ s₁, emit (.finish stack.length i) s = some s₁ ∧
            Turn emit i .next stack s₁ m'.place.phase m'.stack s') := by
    intro place' same notFirst equal
    rw [Option.some.injEq, Prod.mk.injEq] at equal
    obtain ⟨rfl, rfl⟩ := equal
    refine ⟨fun kind first => absurd first (notFirst kind), Or.inl ?_⟩
    rw [same]
    exact .stay ..
  have ends : place.phase = .inScalar →
      endNumber limit emit stack i c s = some (m', s') →
      m'.Nested ∧ (Turn emit i place.phase stack s m'.place.phase m'.stack s' ∨
        place.phase = .inScalar ∧
          ∃ s₁, emit (.finish stack.length i) s = some s₁ ∧
            Turn emit i .next stack s₁ m'.place.phase m'.stack s') := by
    intro scalar ended
    rw [endNumber, Option.bind_eq_some_iff] at ended
    obtain ⟨⟨m₁, s₁⟩, done, after⟩ := ended
    obtain ⟨rfl, finished⟩ := valueDone_eq_some done
    obtain ⟨nested', turn⟩ := stepBetween_turn
      (fun _ first => Place.noConfusion first) after
    exact ⟨nested', Or.inr ⟨scalar, s₁, finished, turn⟩⟩
  have digit : ∀ {place' : Place}, place'.phase = place.phase →
      (∀ kind, place' ≠ .first kind) →
      stepDigit stack c s place' = some (m', s') →
      m'.Nested ∧ (Turn emit i place.phase stack s m'.place.phase m'.stack s' ∨
        place.phase = .inScalar ∧
          ∃ s₁, emit (.finish stack.length i) s = some s₁ ∧
            Turn emit i .next stack s₁ m'.place.phase m'.stack s') := by
    intro place' same notFirst taken
    rw [stepDigit] at taken
    split at taken
    · exact moves same notFirst taken
    · simp at taken
  have done : place.phase = .inScalar →
      valueDone emit stack (i + 1) s = some (m', s') →
      m'.Nested ∧ Turn emit i place.phase stack s m'.place.phase m'.stack s' := by
    intro scalar ended
    obtain ⟨rfl, finished⟩ := valueDone_eq_some ended
    rw [scalar]
    exact ⟨fun _ first => Place.noConfusion first, .finish finished⟩
  have between : stepBetween limit emit ⟨place, stack⟩ i c s = some (m', s') →
      m'.Nested ∧ (Turn emit i place.phase stack s m'.place.phase m'.stack s' ∨
        place.phase = .inScalar ∧
          ∃ s₁, emit (.finish stack.length i) s = some s₁ ∧
            Turn emit i .next stack s₁ m'.place.phase m'.stack s') := by
    intro stepped
    obtain ⟨nested', turn⟩ := stepBetween_turn nested stepped
    exact ⟨nested', Or.inl turn⟩
  cases place with
  | value | first | key | colon | next => exact between stepped
  | chars isKey =>
      dsimp only [stepByte] at stepped
      split at stepped
      · cases isKey with
        | false =>
            obtain ⟨nested', turn⟩ := done rfl stepped
            exact ⟨nested', Or.inl turn⟩
        | true =>
            simp only [if_true, Option.map_eq_some_iff] at stepped
            obtain ⟨s₁, emitted, equal⟩ := stepped
            rw [Prod.mk.injEq] at equal
            obtain ⟨rfl, rfl⟩ := equal
            exact ⟨fun _ first => Place.noConfusion first, Or.inl (.keyEnd emitted)⟩
      · repeat' split at stepped
        all_goals first
          | exact moves (by rfl) (by simp) stepped
          | exact absurd stepped (by simp)
  | escape isKey =>
      dsimp only [stepByte] at stepped
      repeat' split at stepped
      all_goals first
        | exact moves (by rfl) (by simp) stepped
        | exact absurd stepped (by simp)
  | hex isKey seen =>
      dsimp only [stepByte] at stepped
      repeat' split at stepped
      all_goals first
        | exact moves (by rfl) (by simp) stepped
        | exact absurd stepped (by simp)
  | lit l seen =>
      dsimp only [stepByte] at stepped
      repeat' split at stepped
      · obtain ⟨nested', turn⟩ := done rfl stepped
        exact ⟨nested', Or.inl turn⟩
      · exact moves (by rfl) (by simp) stepped
      · simp at stepped
  | sign =>
      dsimp only [stepByte] at stepped
      split at stepped <;> exact digit (by rfl) (by simp) stepped
  | dot | eSign => exact digit (by rfl) (by simp) stepped
  | zero | int | frac | exp =>
      dsimp only [stepByte] at stepped
      repeat' split at stepped
      all_goals first
        | exact moves (by rfl) (by simp) stepped
        | exact ends rfl stepped
        | exact absurd stepped (by simp)
  | e =>
      dsimp only [stepByte] at stepped
      split at stepped
      · exact moves (by rfl) (by simp) stepped
      · exact digit (by rfl) (by simp) stepped

end Steps

end Rfc8259
end Llmbridge
