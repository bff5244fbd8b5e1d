import Mathlib

/-!
# Leftmost matches

A scan looks for a match at every place in turn and goes on behind each match it
takes.  A matcher says where matches begin, where they end and what they state; what a
scan finds between two places follows from what the places between them are.
-/

namespace Llmbridge
namespace Scanning

variable {α : Type*}

/-- Where matches begin: `hit p` is the end of the match at `p` and what it states. -/
structure Matcher (α : Type*) where
  hit : Nat → Option (Nat × α)
  len : Nat
  forward : ∀ {p e x}, hit p = some (e, x) → p < e ∧ e ≤ len

namespace Matcher

variable (m : Matcher α)

/-- The scan over at most `fuel` places. -/
def scan : (fuel p : Nat) → List α
  | 0, _ => []
  | fuel + 1, p =>
      match m.hit p with
      | none => scan fuel (p + 1)
      | some (e, x) => x :: scan fuel e

/-- What the matches taken from `p` on state, in order. -/
def found (p : Nat) : List α :=
  m.scan (m.len - p) p

theorem hit_end {p : Nat} (atEnd : m.len ≤ p) : m.hit p = none := by
  cases hit : m.hit p with
  | none => rfl
  | some taken =>
      have bounds := m.forward hit
      omega

theorem scan_miss {fuel p : Nat} (miss : m.hit p = none) :
    m.scan (fuel + 1) p = m.scan fuel (p + 1) := by
  rw [scan, miss]

theorem scan_take {fuel p e : Nat} {x : α} (hit : m.hit p = some (e, x)) :
    m.scan (fuel + 1) p = x :: m.scan fuel e := by
  rw [scan, hit]

/-- More places than there are change nothing. -/
theorem scan_enough {fuel p : Nat} (enough : m.len - p ≤ fuel) :
    m.scan fuel p = m.found p := by
  have step : ∀ {fuel p : Nat}, m.len - p ≤ fuel →
      m.scan (fuel + 1) p = m.scan fuel p := by
    intro fuel
    induction fuel with
    | zero =>
        intro p enough
        have none : m.hit p = none := m.hit_end (by omega)
        simp only [scan, none]
    | succ fuel inductionHypothesis =>
        intro p enough
        cases hit : m.hit p with
        | none =>
            rw [m.scan_miss hit, m.scan_miss hit]
            exact inductionHypothesis (by omega)
        | some taken =>
            have bounds := m.forward hit
            rw [m.scan_take hit, m.scan_take hit]
            exact congrArg _ (inductionHypothesis (by omega))
  induction fuel with
  | zero => rw [found, Nat.le_zero.mp enough]
  | succ fuel inductionHypothesis =>
      by_cases exact : m.len - p = fuel + 1
      · rw [found, exact]
      · rw [step (by omega), inductionHypothesis (by omega)]

theorem found_end {p : Nat} (atEnd : m.len ≤ p) : m.found p = [] := by
  rw [found, Nat.sub_eq_zero_of_le atEnd, scan]

theorem found_miss {p : Nat} (miss : m.hit p = none) : m.found p = m.found (p + 1) := by
  rw [← m.scan_enough (Nat.le_succ_of_le (Nat.le_refl _)), m.scan_miss miss]
  exact m.scan_enough (by omega)

theorem found_take {p e : Nat} {x : α} (hit : m.hit p = some (e, x)) :
    m.found p = x :: m.found e := by
  have bounds := m.forward hit
  rw [← m.scan_enough (Nat.le_succ_of_le (Nat.le_refl _)), m.scan_take hit]
  exact congrArg _ (m.scan_enough (by omega))

/-- Places without a match are passed. -/
theorem found_skip {p q : Nat} (ordered : p ≤ q)
    (miss : ∀ r, p ≤ r → r < q → m.hit r = none) : m.found p = m.found q := by
  induction q, ordered using Nat.le_induction with
  | base => rfl
  | succ q ordered inductionHypothesis =>
      rw [inductionHypothesis fun r from_p before => miss r from_p (by omega),
        m.found_miss (miss q ordered (by omega))]

/-- Nothing is found where no match begins. -/
theorem found_none {p : Nat} (miss : ∀ r, p ≤ r → m.hit r = none) : m.found p = [] := by
  by_cases atEnd : m.len ≤ p
  · exact m.found_end atEnd
  · rw [m.found_skip (show p ≤ m.len by omega) fun r from_p _ => miss r from_p,
      m.found_end (Nat.le_refl _)]

/-- What is found is stated by a match. -/
theorem hit_of_mem_found {x : α} :
    ∀ {fuel p : Nat}, x ∈ m.scan fuel p → ∃ q e, p ≤ q ∧ m.hit q = some (e, x) := by
  intro fuel
  induction fuel with
  | zero =>
      intro p member
      cases member
  | succ fuel inductionHypothesis =>
      intro p member
      cases hit : m.hit p with
      | none =>
          rw [m.scan_miss hit] at member
          obtain ⟨q, e, ordered, hit'⟩ := inductionHypothesis member
          exact ⟨q, e, by omega, hit'⟩
      | some taken =>
          have bounds := m.forward hit
          rw [m.scan_take hit, List.mem_cons] at member
          rcases member with rfl | member
          · exact ⟨p, taken.1, Nat.le_refl p, hit⟩
          · obtain ⟨q, e, ordered, hit'⟩ := inductionHypothesis member
            exact ⟨q, e, by omega, hit'⟩

/-! ## Passing from one place to another -/

/-- Between `p` and `q` the scan finds `xs`. -/
def Passes (p : Nat) (xs : List α) (q : Nat) : Prop :=
  m.found p = xs ++ m.found q

variable {m}

theorem Passes.refl (p : Nat) : m.Passes p [] p := rfl

theorem Passes.trans {p q r : Nat} {xs ys : List α} (first : m.Passes p xs q)
    (second : m.Passes q ys r) : m.Passes p (xs ++ ys) r := by
  unfold Passes at *
  rw [first, second, List.append_assoc]

/-- Behind places without a match. -/
theorem Passes.after {p q r : Nat} {xs : List α} (first : m.Passes p [] q)
    (second : m.Passes q xs r) : m.Passes p xs r :=
  first.trans second

theorem Passes.before {p q r : Nat} {xs : List α} (first : m.Passes p xs q)
    (second : m.Passes q [] r) : m.Passes p xs r := by
  have both := first.trans second
  rwa [List.append_nil] at both

theorem Passes.skip {p q : Nat} (ordered : p ≤ q)
    (miss : ∀ r, p ≤ r → r < q → m.hit r = none) : m.Passes p [] q :=
  m.found_skip ordered miss

theorem Passes.take {p e : Nat} {x : α} (hit : m.hit p = some (e, x)) :
    m.Passes p [x] e :=
  m.found_take hit

/-! ## Some of the matches -/

/-- The matches whose statement is kept. -/
def restrict (m : Matcher α) (keep : α → Bool) : Matcher α where
  hit p := (m.hit p).filter fun taken => keep taken.2
  len := m.len
  forward hit := m.forward (Option.filter_eq_some_iff.mp hit).1

theorem restrict_kept {keep : α → Bool} {p e : Nat} {x : α} (hit : m.hit p = some (e, x))
    (kept : keep x = true) : (m.restrict keep).hit p = some (e, x) :=
  Option.filter_eq_some_iff.mpr ⟨hit, kept⟩

theorem restrict_dropped {keep : α → Bool} {p e : Nat} {x : α} (hit : m.hit p = some (e, x))
    (dropped : keep x = false) : (m.restrict keep).hit p = none := by
  simp [restrict, hit, dropped]

theorem restrict_miss {keep : α → Bool} {p : Nat} (miss : m.hit p = none) :
    (m.restrict keep).hit p = none := by
  simp [restrict, miss]

/-- What a dropped match hides, it hides from what is selected: then a scan of the kept
matches selects what the scan of all of them does. -/
theorem filterMap_restrict {β : Type*} {keep : α → Bool} {sel : α → Option β}
    (inner : ∀ {p e x q e' y}, m.hit p = some (e, x) → keep x = false → p < q → q < e →
      m.hit q = some (e', y) → keep y = true → sel y = none ∧ e' ≤ e) (p : Nat) :
    ((m.restrict keep).found p).filterMap sel = ((m.found p).filter keep).filterMap sel := by
  have hidden : ∀ {p e x}, m.hit p = some (e, x) → keep x = false → ∀ n q, n = e - q → p < q →
      q ≤ e → ((m.restrict keep).found q).filterMap sel =
        ((m.restrict keep).found e).filterMap sel := by
    intro p e x hit dropped n
    induction n using Nat.strong_induction_on with
    | _ n inductionHypothesis =>
        rintro q rfl after before
        rcases Nat.eq_or_lt_of_le before with rfl | inside
        · rfl
        · cases here : (m.restrict keep).hit q with
          | none =>
              rw [(m.restrict keep).found_miss here]
              exact inductionHypothesis _ (by omega) (q + 1) rfl (by omega) (by omega)
          | some taken =>
              have bounds := (m.restrict keep).forward here
              obtain ⟨whole, kept⟩ := Option.filter_eq_some_iff.mp here
              obtain ⟨unselected, ends⟩ := inner hit dropped after inside whole kept
              rw [(m.restrict keep).found_take here, List.filterMap_cons, unselected]
              exact inductionHypothesis _ (by omega) taken.1 rfl (by omega) ends
  generalize size : m.len - p = n
  induction n using Nat.strong_induction_on generalizing p with
  | _ n inductionHypothesis =>
      subst size
      cases hit : m.hit p with
      | none =>
          by_cases atEnd : m.len ≤ p
          · rw [m.found_end atEnd, (m.restrict keep).found_end atEnd]
            rfl
          · rw [m.found_miss hit, (m.restrict keep).found_miss (restrict_miss hit)]
            exact inductionHypothesis _ (by omega) (p + 1) rfl
      | some taken =>
          have bounds := m.forward hit
          have rest := inductionHypothesis _ (by omega) taken.1 rfl
          rw [m.found_take hit]
          cases kept : keep taken.2 with
          | true =>
              rw [(m.restrict keep).found_take (restrict_kept hit kept),
                List.filter_cons_of_pos kept, List.filterMap_cons, List.filterMap_cons, rest]
          | false =>
              rw [(m.restrict keep).found_miss (restrict_dropped hit kept),
                hidden hit kept _ (p + 1) rfl (by omega) (by omega),
                List.filter_cons_of_neg (by rw [kept]; exact Bool.false_ne_true), rest]

/-- Matches at places counted from `lo` on. -/
theorem found_shift {β : Type*} {m' : Matcher β} {lo : Nat} {place : β → α}
    (same : ∀ r, m.hit (lo + r) = (m'.hit r).map fun taken => (lo + taken.1, place taken.2))
    (r : Nat) : m.found (lo + r) = (m'.found r).map place := by
  generalize size : m.len - (lo + r) = n
  induction n using Nat.strong_induction_on generalizing r with
  | _ n inductionHypothesis =>
      subst size
      have here := same r
      cases hit : m'.hit r with
      | none =>
          rw [hit, Option.map_none] at here
          by_cases atEnd : m.len ≤ lo + r
          · have none : m'.found r = [] := by
              apply m'.found_none
              intro q after
              have beyond := same q
              rw [m.hit_end (by omega)] at beyond
              exact Option.map_eq_none_iff.mp beyond.symm
            rw [m.found_end atEnd, none]
            rfl
          · rw [m.found_miss here, m'.found_miss hit]
            exact inductionHypothesis _ (by omega) (r + 1) rfl
      | some taken =>
          rw [hit, Option.map_some] at here
          have bounds := m.forward here
          rw [m.found_take here, m'.found_take hit, List.map_cons]
          exact congrArg _ (inductionHypothesis _ (by omega) taken.1 rfl)

/-- What is found ends before the next begins. -/
theorem pairwise_found {start stop : α → Nat}
    (places : ∀ {p e x}, m.hit p = some (e, x) → start x = p ∧ stop x = e) (p : Nat) :
    (m.found p).Pairwise fun x y => stop x ≤ start y := by
  generalize size : m.len - p = n
  induction n using Nat.strong_induction_on generalizing p with
  | _ n inductionHypothesis =>
      subst size
      cases hit : m.hit p with
      | none =>
          by_cases atEnd : m.len ≤ p
          · rw [m.found_end atEnd]
            exact List.Pairwise.nil
          · rw [m.found_miss hit]
            exact inductionHypothesis _ (by omega) (p + 1) rfl
      | some taken =>
          have bounds := m.forward hit
          rw [m.found_take hit, List.pairwise_cons]
          refine ⟨?_, inductionHypothesis _ (by omega) taken.1 rfl⟩
          intro y member
          obtain ⟨q, e, after, found⟩ := m.hit_of_mem_found member
          rw [(places hit).2, (places found).1]
          exact after

/-- Two selections of an ordered list, the first in front of the second. -/
theorem filter_append_filter {start stop : α → Nat} {first second : α → Bool} {xs : List α}
    (ordered : xs.Pairwise fun x y => stop x ≤ start y)
    (front : ∀ x ∈ xs, ∀ y ∈ xs, stop x ≤ start y → second x = true → first y = false)
    (apart : ∀ x ∈ xs, first x = true → second x = false) :
    xs.filter first ++ xs.filter second = xs.filter fun x => first x || second x := by
  induction xs with
  | nil => rfl
  | cons x xs inductionHypothesis =>
      rw [List.pairwise_cons] at ordered
      rw [List.forall_mem_cons] at apart
      have rest := inductionHypothesis ordered.2
        (fun y member z member' =>
          front y (List.mem_cons_of_mem _ member) z (List.mem_cons_of_mem _ member'))
        apart.2
      cases one : first x with
      | true =>
          have other := apart.1 one
          rw [List.filter_cons_of_pos one,
            List.filter_cons_of_neg (by rw [other]; exact Bool.false_ne_true),
            List.filter_cons_of_pos (by rw [one, Bool.true_or]), List.cons_append, rest]
      | false =>
          rw [List.filter_cons_of_neg (by rw [one]; exact Bool.false_ne_true)]
          cases two : second x with
          | false =>
              rw [List.filter_cons_of_neg (by rw [two]; exact Bool.false_ne_true),
                List.filter_cons_of_neg (by rw [one, two]; exact Bool.false_ne_true), rest]
          | true =>
              have none : xs.filter first = [] := by
                rw [List.filter_eq_nil_iff]
                intro y member selected
                rw [front x List.mem_cons_self y (List.mem_cons_of_mem _ member)
                  (ordered.1 y member) two] at selected
                exact Bool.false_ne_true selected
              rw [List.filter_cons_of_pos two,
                List.filter_cons_of_pos (by rw [two, Bool.or_true]), ← rest, none]
              rfl

end Matcher

end Scanning
end Llmbridge
