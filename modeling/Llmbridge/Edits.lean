import Mathlib

/-!
# Edits of a list

An edit drops a span of a list and writes other elements in its place; an empty
span makes it an insertion.  Edits in ascending order are applied in one pass,
to the whole list or to a range of it.  Passes over consecutive ranges make up
the pass over all of them as long as no edit straddles a border.
-/

namespace Llmbridge

variable {α : Type*}

/-- The elements from `i` up to `j`. -/
def slice (body : List α) (i j : Nat) : List α :=
  (body.drop i).take (j - i)

section Slices

variable {body : List α} {i j k : Nat}

theorem slice_length (inside : j ≤ body.length) :
    (slice body i j).length = j - i := by
  simp only [slice, List.length_take, List.length_drop]
  omega

theorem slice_append (body : List α) (first : i ≤ j) (second : j ≤ k) :
    slice body i j ++ slice body j k = slice body i k := by
  have split : k - i = (j - i) + (k - j) := by omega
  rw [slice, slice, slice, split, List.take_add, List.drop_drop,
    Nat.add_sub_cancel' first]

@[simp] theorem slice_self (body : List α) (i : Nat) : slice body i i = [] := by
  simp [slice]

theorem slice_take (le : j ≤ k) : slice (body.take k) i j = slice body i j := by
  rw [slice, slice, List.drop_take, List.take_take, Nat.min_eq_left (by omega)]

theorem slice_left (front back : List α) :
    slice (front ++ back) 0 front.length = front := by
  rw [slice, List.drop_zero, Nat.sub_zero, List.take_left]

theorem slice_right (front back : List α) :
    slice (front ++ back) front.length (front ++ back).length = back := by
  rw [slice, List.drop_left, List.length_append, Nat.add_sub_cancel_left,
    List.take_length]

end Slices

/-- The span from `«at»` up to `stop` is dropped and `text` written. -/
structure Edit (α : Type*) where
  «at» : Nat
  stop : Nat
  text : List α

namespace Edit

/-- One pass over the elements from `i` up to `j`: the edits that start in what
is left of the range are applied. -/
def rewrite (body : List α) : List (Edit α) → Nat → Nat → List α
  | [], i, j => slice body i j
  | e :: edits, i, j =>
      if e.at < i ∨ j ≤ e.at then rewrite body edits i j
      else slice body i e.at ++ (e.text ++ rewrite body edits e.stop j)

/-- Edits in ascending order that do not overlap. -/
structure Ordered (edits : List (Edit α)) : Prop where
  spans : ∀ e ∈ edits, e.at ≤ e.stop
  apart : edits.Pairwise fun e f => e.stop ≤ f.at

/-- No edit straddles this place. -/
def Clear (edits : List (Edit α)) (place : Nat) : Prop :=
  ∀ e ∈ edits, e.at < place → e.stop ≤ place

section Passes

variable {body : List α} {edits : List (Edit α)} {e : Edit α} {i j k : Nat}

theorem Ordered.nil : Ordered ([] : List (Edit α)) :=
  ⟨by simp, List.Pairwise.nil⟩

theorem Ordered.tail (ordered : Ordered (e :: edits)) : Ordered edits :=
  ⟨fun f member => ordered.spans f (List.mem_cons_of_mem e member),
    (List.pairwise_cons.mp ordered.apart).2⟩

theorem Ordered.head_le (ordered : Ordered (e :: edits)) :
    e.at ≤ e.stop ∧ ∀ f ∈ edits, e.stop ≤ f.at :=
  ⟨ordered.spans e List.mem_cons_self, (List.pairwise_cons.mp ordered.apart).1⟩

theorem Ordered.append
    {front back : List (Edit α)} (first : Ordered front) (second : Ordered back)
    (place : Nat) (before : ∀ e ∈ front, e.stop ≤ place)
    (behind : ∀ e ∈ back, place ≤ e.at) : Ordered (front ++ back) := by
  refine ⟨fun e member => ?_, List.pairwise_append.mpr ⟨first.apart, second.apart, ?_⟩⟩
  · rcases List.mem_append.mp member with member | member
    · exact first.spans e member
    · exact second.spans e member
  · intro e inFront f inBack
    exact Nat.le_trans (before e inFront) (behind f inBack)

theorem Clear.tail (clear : Clear (e :: edits) j) : Clear edits j :=
  fun f member => clear f (List.mem_cons_of_mem e member)

/-- Edits outside the range change nothing. -/
theorem rewrite_outside
    (outside : ∀ e ∈ edits, e.at < i ∨ j ≤ e.at) :
    rewrite body edits i j = slice body i j := by
  induction edits with
  | nil => rfl
  | cons e edits inductionHypothesis =>
      rw [rewrite, if_pos (outside e List.mem_cons_self)]
      exact inductionHypothesis fun f member =>
        outside f (List.mem_cons_of_mem e member)

variable (body) in
/-- What stands before the edits goes as it is. -/
theorem rewrite_front
    (behind : ∀ e ∈ edits, j ≤ e.at) (first : i ≤ j) (second : j ≤ k) :
    rewrite body edits i k = slice body i j ++ rewrite body edits j k := by
  induction edits with
  | nil => exact (slice_append body first second).symm
  | cons e edits inductionHypothesis =>
      have after := behind e List.mem_cons_self
      rw [rewrite, rewrite]
      by_cases outside : k ≤ e.at
      · rw [if_pos (Or.inr outside), if_pos (Or.inr outside)]
        exact inductionHypothesis fun f member =>
          behind f (List.mem_cons_of_mem e member)
      · rw [if_neg (by omega), if_neg (by omega), ← slice_append body first after,
          List.append_assoc]

/-- Two lists are the same elements around pairs of spans, in this order. -/
inductive Swapped : List α → List α → List (List α × List α) → Prop
  | nil (kept : List α) : Swapped kept kept []
  | cons (kept old new : List α) {before after : List α} {swaps : List (List α × List α)} :
      Swapped before after swaps →
        Swapped (kept ++ (old ++ before)) (kept ++ (new ++ after)) ((old, new) :: swaps)

/-- A pass swaps the span of each edit for its text. -/
theorem rewrite_swapped
    (ordered : Ordered edits) (start : ∀ e ∈ edits, i ≤ e.at)
    (inside : ∀ e ∈ edits, e.at < j ∧ e.stop ≤ j) (range : i ≤ j) :
    Swapped (slice body i j) (rewrite body edits i j)
      (edits.map fun e => (slice body e.at e.stop, e.text)) := by
  induction edits generalizing i with
  | nil => exact .nil _
  | cons e edits inductionHypothesis =>
      have after := start e List.mem_cons_self
      obtain ⟨before, ends⟩ := inside e List.mem_cons_self
      obtain ⟨span, behind⟩ := ordered.head_le
      have rest := inductionHypothesis ordered.tail behind
        (fun f member => inside f (List.mem_cons_of_mem e member)) ends
      have split : slice body i j =
          slice body i e.at ++ (slice body e.at e.stop ++ slice body e.stop j) := by
        rw [slice_append body span ends, slice_append body after (by omega)]
      rw [rewrite, if_neg (by omega), List.map_cons, split]
      exact .cons _ _ _ rest

/-- Edits behind the range may be left out. -/
theorem rewrite_filter (edits : List (Edit α)) :
    rewrite body (edits.filter fun e => e.at < j) i j = rewrite body edits i j := by
  induction edits generalizing i with
  | nil => rfl
  | cons e edits inductionHypothesis =>
      by_cases inside : e.at < j
      · rw [List.filter_cons_of_pos (by simpa using inside), rewrite, rewrite,
          inductionHypothesis, inductionHypothesis]
      · rw [List.filter_cons_of_neg (by simpa using inside), rewrite,
          if_pos (Or.inr (by omega)), inductionHypothesis]

/-- A pass over a range looks at nothing behind it. -/
theorem rewrite_take
    (edits : List (Edit α)) (le : j ≤ k) :
    rewrite (body.take k) edits i j = rewrite body edits i j := by
  induction edits generalizing i with
  | nil => exact slice_take le
  | cons e edits inductionHypothesis =>
      rw [rewrite, rewrite, inductionHypothesis, inductionHypothesis]
      split
      · rfl
      · rw [slice_take (by omega)]

/-- Two passes meet at a place that no edit straddles. -/
theorem rewrite_append
    (ordered : Ordered edits) (clear : Clear edits j) (first : i ≤ j)
    (second : j ≤ k) :
    rewrite body edits i j ++ rewrite body edits j k = rewrite body edits i k := by
  induction edits generalizing i with
  | nil => exact slice_append body first second
  | cons e edits inductionHypothesis =>
      obtain ⟨spans, behind⟩ := ordered.head_le
      simp only [rewrite]
      by_cases before : e.at < i
      · rw [if_pos (Or.inl before), if_pos (Or.inl (by omega)), if_pos (Or.inl before)]
        exact inductionHypothesis ordered.tail clear.tail first
      · by_cases inFirst : e.at < j
        · have stop := clear e List.mem_cons_self inFirst
          rw [if_neg (by omega), if_pos (Or.inl inFirst), if_neg (by omega),
            List.append_assoc, List.append_assoc,
            inductionHypothesis ordered.tail clear.tail stop]
        · rw [if_pos (Or.inr (by omega)), rewrite_outside fun f member =>
            Or.inr (Nat.le_trans (by omega) (behind f member))]
          by_cases inSecond : e.at < k
          · rw [if_neg (by omega), if_neg (by omega), ← List.append_assoc,
              slice_append body first (by omega)]
          · have outside : ∀ f ∈ edits, k ≤ f.at := fun f member =>
              Nat.le_trans (by omega) (behind f member)
            rw [if_pos (Or.inr (by omega)), if_pos (Or.inr (by omega)),
              rewrite_outside fun f member => Or.inr (outside f member),
              rewrite_outside fun f member => Or.inr (outside f member),
              slice_append body first second]

/-- What the edits add and drop. -/
theorem rewrite_length
    (ordered : Ordered edits) (start : ∀ e ∈ edits, i ≤ e.at)
    (ends : ∀ e ∈ edits, e.at < j ∧ e.stop ≤ j) (le : i ≤ j) (inside : j ≤ body.length) :
    (rewrite body edits i j).length +
        (edits.map fun e => e.stop - e.at).sum =
      (j - i) + (edits.map fun e => e.text.length).sum := by
  induction edits generalizing i with
  | nil => simp [rewrite, slice_length inside]
  | cons e edits inductionHypothesis =>
      obtain ⟨spans, behind⟩ := ordered.head_le
      have after := start e List.mem_cons_self
      obtain ⟨before, stop⟩ := ends e List.mem_cons_self
      have rest := inductionHypothesis ordered.tail behind
        (fun f member => ends f (List.mem_cons_of_mem e member)) stop
      rw [rewrite, if_neg (by omega), List.map_cons, List.map_cons, List.sum_cons,
        List.sum_cons, List.length_append, List.length_append,
        slice_length (by omega)]
      omega

end Passes

end Edit

/-! ## Putting things in order -/

/-- Things with different keys are put in one order only. -/
theorem sort_eq
    (key : α → Nat) {things sorted : List α} (same : things.Perm sorted)
    (ascending : sorted.Pairwise fun x y => key x < key y) :
    things.insertionSort (fun x y => key x ≤ key y) = sorted := by
  have : Std.Total fun x y : α => key x ≤ key y := ⟨fun x y => Nat.le_total ..⟩
  have : IsTrans α fun x y => key x ≤ key y := ⟨fun _ _ _ => Nat.le_trans⟩
  refine List.Perm.eq_of_pairwise ?_ (List.pairwise_insertionSort _ things)
    (ascending.imp Nat.le_of_lt) ((List.perm_insertionSort _ things).trans same)
  intro x y inSort inSorted le ge
  have member : x ∈ sorted :=
    same.subset ((List.perm_insertionSort _ things).subset inSort)
  have distinct : (sorted.map key).Nodup :=
    List.pairwise_map.mpr (ascending.imp Nat.ne_of_lt)
  exact List.inj_on_of_nodup_map distinct member inSorted (Nat.le_antisymm le ge)

/-! ## Things that have a name -/

section Names

variable {β γ κ : Type*}

/-- Where a name stands once, what is done with all of that name is done with the
first. -/
theorem flatMap_once
    [DecidableEq κ] (name : α → κ) (f : α → β) {key : κ} {things : List α}
    (once : things.Pairwise fun x y => name y = key → name x ≠ key) :
    (things.flatMap fun x => if name x = key then [f x] else []) =
      ((things.find? fun x => name x = key).map f).toList := by
  induction things with
  | nil => rfl
  | cons x things inductionHypothesis =>
      obtain ⟨behind, once⟩ := List.pairwise_cons.mp once
      rw [List.flatMap_cons]
      by_cases named : name x = key
      · have others : (things.flatMap fun x => if name x = key then [f x] else []) = [] := by
          rw [List.flatMap_eq_nil_iff]
          intro y member
          exact if_neg fun again => behind y member again named
        rw [others, List.find?_cons_of_pos (by simpa using named)]
        simp [named]
      · rw [List.find?_cons_of_neg (by simpa using named), ← inductionHypothesis once]
        simp [named]

/-- Picking things out and doing something with them. -/
theorem map_filter_eq_flatMap
    (P : α → Prop) [DecidablePred P] (f : α → β) (things : List α) :
    (things.filter fun x => P x).map f =
      things.flatMap fun x => if P x then [f x] else [] := by
  induction things with
  | nil => rfl
  | cons x things inductionHypothesis =>
      rw [List.flatMap_cons, ← inductionHypothesis]
      by_cases picked : P x <;> simp [picked]

/-- Where a name stands once, the first of that name is the only one. -/
theorem eq_of_once
    [DecidableEq κ] {name : α → κ} {key : κ} {things : List α}
    (once : things.Pairwise fun x y => name y = key → name x ≠ key) {x y : α}
    (found : things.find? (fun x => name x = key) = some x) (member : y ∈ things)
    (named : name y = key) : y = x := by
  have single := flatMap_once name id once
  have inside : y ∈ things.flatMap fun x => if name x = key then [id x] else [] :=
    List.mem_flatMap.mpr ⟨y, member, by simp [named]⟩
  rw [single, found] at inside
  simpa using inside

/-- The things whose name stands, one by one. -/
theorem map_filter_named
    [DecidableEq κ] (name : α → κ) (key : β → κ) (f : β → γ) {things : List α}
    {ys : List β}
    (once : ∀ y ∈ ys, things.Pairwise fun a b => name b = key y → name a ≠ key y) :
    ((ys.filter fun y => things.any fun x => name x = key y).map f) =
      ys.flatMap fun y => things.flatMap fun x => if name x = key y then [f y] else [] := by
  induction ys with
  | nil => rfl
  | cons y ys inductionHypothesis =>
      have others := inductionHypothesis fun z member =>
        once z (List.mem_cons_of_mem y member)
      rw [List.flatMap_cons, flatMap_once name (fun _ => f y) (once y List.mem_cons_self),
        ← others]
      cases found : things.find? fun x => name x = key y with
      | none =>
          have absent := List.find?_eq_none.mp found
          rw [List.filter_cons_of_neg (by simpa using absent)]
          rfl
      | some x =>
          have member := List.mem_of_find?_eq_some found
          have named : name x = key y := by simpa using List.find?_some found
          rw [List.filter_cons_of_pos (by simpa using ⟨x, member, named⟩)]
          rfl

/-- Two nested passes may be nested the other way round. -/
theorem perm_flatMap_comm (xs : List α) (ys : List β) (f : α → β → List γ) :
    (xs.flatMap fun x => ys.flatMap (f x)).Perm
      (ys.flatMap fun y => xs.flatMap fun x => f x y) := by
  induction xs with
  | nil => simp
  | cons x xs inductionHypothesis =>
      simp only [List.flatMap_cons]
      exact (inductionHypothesis.append_left _).trans (List.flatMap_append_perm ys _ _)

end Names

end Llmbridge
