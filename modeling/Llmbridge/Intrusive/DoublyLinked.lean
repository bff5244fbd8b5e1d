import Llmbridge.Transition.Runs

/-!
# Intrusive doubly linked lists

The links are in the nodes themselves: each node names the one before it, which is newer,
and the one behind it, which is older, and the ends of a list are kept apart.  A node goes
in at the newest end and comes out from anywhere.  Several lists share one set of links as
long as they share no node.
-/

namespace Llmbridge
namespace Intrusive

variable {α : Type}

/-- Each node's neighbours. -/
structure Links (α : Type) where
  newer : α → Option α
  older : α → Option α

namespace Links

variable [DecidableEq α]

/-- Write the link of `u` to a newer node. -/
def setNewer (l : Links α) (u : α) (v : Option α) : Links α :=
  { l with newer := fun w => if w = u then v else l.newer w }

/-- Write the link of `u` to an older node. -/
def setOlder (l : Links α) (u : α) (v : Option α) : Links α :=
  { l with older := fun w => if w = u then v else l.older w }

@[simp] theorem setNewer_older (l : Links α) (u : α) (v : Option α) :
    (l.setNewer u v).older = l.older := rfl

@[simp] theorem setOlder_newer (l : Links α) (u : α) (v : Option α) :
    (l.setOlder u v).newer = l.newer := rfl

@[simp] theorem setNewer_newer (l : Links α) (u : α) (v : Option α) (w : α) :
    (l.setNewer u v).newer w = if w = u then v else l.newer w := rfl

@[simp] theorem setOlder_older (l : Links α) (u : α) (v : Option α) (w : α) :
    (l.setOlder u v).older w = if w = u then v else l.older w := rfl

end Links

/-- The two ends of a list. -/
structure Ends (α : Type) where
  newest : Option α := none
  oldest : Option α := none
  deriving DecidableEq, Repr

/-- A node goes in at the newest end. -/
def push [DecidableEq α] (l : Links α) (e : Ends α) (u : α) : Links α × Ends α :=
  let linked := (l.setOlder u e.newest).setNewer u none
  match e.newest with
  | some v => (linked.setNewer v (some u), { e with newest := some u })
  | none => (linked, { newest := some u, oldest := some u })

/-- What points at a node points past it, and the node points nowhere. -/
def unlink [DecidableEq α] (l : Links α) (e : Ends α) (u : α) : Links α × Ends α :=
  let before :=
    match l.newer u with
    | some v => (l.setOlder v (l.older u), e)
    | none => (l, { e with newest := l.older u })
  let behind :=
    match before.1.older u with
    | some v => (before.1.setNewer v (before.1.newer u), before.2)
    | none => (before.1, { before.2 with oldest := before.1.newer u })
  ((behind.1.setNewer u none).setOlder u none, behind.2)

/-! ## The nodes of a list -/

/-- Links lead through the nodes one after another: from `first`, which has `before` as its
newer neighbour, to `last`, which has `next` as its older one. -/
def Segment (l : Links α) : (before first : Option α) → List α → (last next : Option α) → Prop
  | before, first, [], last, next => last = before ∧ next = first
  | before, first, u :: rest, last, next =>
      first = some u ∧ l.newer u = before ∧ Segment l (some u) (l.older u) rest last next

/-- The list between two ends is these nodes, newest first. -/
def Listed (l : Links α) (e : Ends α) (nodes : List α) : Prop :=
  Segment l none e.newest nodes e.oldest none

namespace Segment

variable {l l' : Links α} {before first last next : Option α} {u : α}

/-- A segment splits where its nodes do. -/
theorem append {nodes more : List α} : ∀ {before first : Option α},
    Segment l before first (nodes ++ more) last next ↔
      ∃ middle rest, Segment l before first nodes middle rest ∧
        Segment l middle rest more last next := by
  induction nodes with
  | nil =>
      intro before first
      constructor
      · intro segment
        exact ⟨before, first, ⟨rfl, rfl⟩, segment⟩
      · rintro ⟨middle, rest, ⟨rfl, rfl⟩, segment⟩
        exact segment
  | cons u nodes inductionHypothesis =>
      intro before first
      constructor
      · rintro ⟨starts, newer, segment⟩
        obtain ⟨middle, rest, left, right⟩ := inductionHypothesis.mp segment
        exact ⟨middle, rest, ⟨starts, newer, left⟩, right⟩
      · rintro ⟨middle, rest, ⟨starts, newer, left⟩, right⟩
        exact ⟨starts, newer, inductionHypothesis.mpr ⟨middle, rest, left, right⟩⟩

/-- A segment rests on the links of its own nodes only. -/
theorem frame {nodes : List α} : ∀ {before first : Option α},
    Segment l before first nodes last next →
    (∀ w ∈ nodes, l'.newer w = l.newer w ∧ l'.older w = l.older w) →
    Segment l' before first nodes last next := by
  induction nodes with
  | nil => exact fun segment _ => segment
  | cons u nodes inductionHypothesis =>
      rintro before first ⟨starts, newer, segment⟩ same
      obtain ⟨sameNewer, sameOlder⟩ := same u List.mem_cons_self
      refine ⟨starts, sameNewer.trans newer, ?_⟩
      rw [sameOlder]
      exact inductionHypothesis segment fun w held => same w (List.mem_cons_of_mem u held)

/-- The last node is one of the nodes, or what stood before them. -/
theorem last_mem {nodes : List α} : ∀ {before first : Option α},
    Segment l before first nodes last next → last = before ∨ ∃ v ∈ nodes, last = some v := by
  induction nodes with
  | nil => exact fun segment => Or.inl segment.1
  | cons u nodes inductionHypothesis =>
      rintro before first ⟨-, -, segment⟩
      rcases inductionHypothesis segment with same | ⟨v, held, same⟩
      · exact Or.inr ⟨u, List.mem_cons_self, same⟩
      · exact Or.inr ⟨v, List.mem_cons_of_mem u held, same⟩

/-- The first node is one of the nodes, or what comes behind them. -/
theorem first_mem {nodes : List α} (segment : Segment l before first nodes last next) :
    first = next ∨ ∃ v ∈ nodes, first = some v := by
  cases nodes with
  | nil => exact Or.inl segment.2.symm
  | cons u nodes => exact Or.inr ⟨u, List.mem_cons_self, segment.1⟩

theorem first_eq {nodes : List α} (segment : Segment l before first nodes last none) :
    first = nodes.head? := by
  cases nodes with
  | nil => exact segment.2.symm
  | cons u nodes => exact segment.1

theorem last_eq {nodes : List α} : ∀ {before first : Option α},
    Segment l before first nodes last next → last = nodes.getLast?.or before := by
  induction nodes with
  | nil => exact fun segment => segment.1
  | cons u nodes inductionHypothesis =>
      rintro before first ⟨-, -, segment⟩
      rw [inductionHypothesis segment, List.getLast?_cons]
      cases nodes.getLast? <;> rfl

/-- The last node of a segment is linked to another node. -/
theorem redirect {nodes : List α} {v : α} {next' : Option α} : ∀ {before first : Option α},
    Segment l before first nodes (some v) next → v ∈ nodes → nodes.Nodup →
    (∀ w ∈ nodes, l'.newer w = l.newer w) →
    (∀ w ∈ nodes, w ≠ v → l'.older w = l.older w) → l'.older v = next' →
    Segment l' before first nodes (some v) next' := by
  induction nodes with
  | nil => exact fun _ held => absurd held List.not_mem_nil
  | cons u nodes inductionHypothesis =>
      rintro before first ⟨starts, newer, segment⟩ held distinct sameNewer sameOlder linked
      obtain ⟨apart, distinct⟩ := List.nodup_cons.mp distinct
      refine ⟨starts, (sameNewer u List.mem_cons_self).trans newer, ?_⟩
      rcases List.mem_cons.mp held with rfl | held
      · have ends : nodes = [] := by
          rcases segment.last_mem with _ | ⟨w, inside, same⟩
          · cases nodes with
            | nil => rfl
            | cons w rest =>
                have tail := segment.last_eq
                rw [List.getLast?_cons] at tail
                have inside : v ∈ w :: rest := by
                  have last : v = rest.getLast?.getD w := Option.some.inj tail
                  rw [last]
                  cases found : rest.getLast? with
                  | none => exact List.mem_cons_self
                  | some t =>
                      exact List.mem_cons_of_mem w (List.mem_of_getLast? found)
                exact absurd inside apart
          · exact absurd (Option.some.inj same ▸ inside) apart
        subst ends
        exact ⟨rfl, linked.symm⟩
      · have other : u ≠ v := fun same => apart (same ▸ held)
        rw [sameOlder u List.mem_cons_self other]
        exact inductionHypothesis segment held distinct
          (fun w inside => sameNewer w (List.mem_cons_of_mem u inside))
          (fun w inside => sameOlder w (List.mem_cons_of_mem u inside)) linked

/-- The first node of a segment gets another newer neighbour. -/
theorem rebase {nodes : List α} {before' : Option α} {u : α}
    (segment : Segment l before first (u :: nodes) last next)
    (linked : l'.newer u = before') (sameOlder : ∀ w ∈ u :: nodes, l'.older w = l.older w)
    (sameNewer : ∀ w ∈ nodes, l'.newer w = l.newer w) :
    Segment l' before' first (u :: nodes) last next := by
  obtain ⟨starts, -, rest⟩ := segment
  refine ⟨starts, linked, ?_⟩
  rw [sameOlder u List.mem_cons_self]
  exact rest.frame fun w held =>
    ⟨sameNewer w held, sameOlder w (List.mem_cons_of_mem u held)⟩

end Segment

namespace Listed

variable {l : Links α} {e : Ends α} {nodes : List α} {u : α}

theorem nil (l : Links α) : Listed l {} [] := ⟨rfl, rfl⟩

theorem newest_eq (listed : Listed l e nodes) : e.newest = nodes.head? :=
  Segment.first_eq listed

theorem oldest_eq (listed : Listed l e nodes) : e.oldest = nodes.getLast? := by
  rw [Segment.last_eq listed, Option.or_none]

/-- A list rests on the links of its own nodes only. -/
theorem frame {l' : Links α} (listed : Listed l e nodes)
    (same : ∀ w ∈ nodes, l'.newer w = l.newer w ∧ l'.older w = l.older w) :
    Listed l' e nodes :=
  Segment.frame listed same

/-- What stands around a node of a list. -/
theorem split (listed : Listed l e nodes) (held : u ∈ nodes) :
    ∃ newer older, nodes = newer ++ u :: older ∧
      Segment l none e.newest newer (l.newer u) (some u) ∧
      Segment l (some u) (l.older u) older e.oldest none := by
  obtain ⟨newer, older, rfl⟩ := List.append_of_mem held
  obtain ⟨middle, rest, left, starts, linked, right⟩ := Segment.append.mp listed
  refine ⟨newer, older, rfl, ?_, right⟩
  rw [linked, ← starts]
  exact left

/-- The neighbours of a node are nodes of its list. -/
theorem neighbours (listed : Listed l e nodes) (held : u ∈ nodes) {v : α}
    (beside : l.newer u = some v ∨ l.older u = some v) : v ∈ nodes := by
  obtain ⟨newer, older, rfl, left, right⟩ := listed.split held
  rcases beside with linked | linked
  · rw [linked] at left
    rcases left.last_mem with none | ⟨w, inside, same⟩
    · exact absurd none (by simp)
    · rw [Option.some.inj same]
      exact List.mem_append_left _ inside
  · rw [linked] at right
    rcases right.first_mem with none | ⟨w, inside, same⟩
    · exact absurd none (by simp)
    · rw [Option.some.inj same]
      exact List.mem_append_right newer (List.mem_cons_of_mem u inside)

/-- A node is not its own neighbour. -/
theorem apart (listed : Listed l e nodes) (distinct : nodes.Nodup) (held : u ∈ nodes) :
    l.newer u ≠ some u ∧ l.older u ≠ some u := by
  obtain ⟨newer, older, rfl, left, right⟩ := listed.split held
  have off : u ∉ newer ++ older := List.nodup_middle.mp distinct |> List.nodup_cons.mp |>.1
  constructor
  · intro self
    rw [self] at left
    rcases left.last_mem with none | ⟨w, inside, same⟩
    · exact absurd none (by simp)
    · exact off (List.mem_append_left older (Option.some.inj same ▸ inside))
  · intro self
    rw [self] at right
    rcases right.first_mem with none | ⟨w, inside, same⟩
    · exact absurd none (by simp)
    · exact off (List.mem_append_right newer (Option.some.inj same ▸ inside))

end Listed

section Operations

variable [DecidableEq α] {l : Links α} {e : Ends α} {nodes : List α} {u : α}

/-! ## Going in -/

/-- Going in, a node changes its own links and those of the newest node. -/
theorem push_frame (listed : Listed l e nodes) {w : α} (outside : w ∉ u :: nodes) :
    (push l e u).1.newer w = l.newer w ∧ (push l e u).1.older w = l.older w := by
  have other : w ≠ u := fun same => outside (same ▸ List.mem_cons_self)
  replace outside : w ∉ nodes := fun held => outside (List.mem_cons_of_mem u held)
  have newest := listed.newest_eq
  unfold push
  cases nodes with
  | nil =>
      rw [List.head?_nil] at newest
      rw [newest]
      simp [other]
  | cons v rest =>
      rw [List.head?_cons] at newest
      have apart : w ≠ v := fun same => outside (same ▸ List.mem_cons_self)
      rw [newest]
      simp [other, apart]

/-- A node goes in before all others. -/
theorem push_listed (listed : Listed l e nodes) (distinct : nodes.Nodup) (outside : u ∉ nodes) :
    Listed (push l e u).1 (push l e u).2 (u :: nodes) := by
  have newest := listed.newest_eq
  cases nodes with
  | nil =>
      rw [List.head?_nil] at newest
      unfold push
      rw [newest]
      refine ⟨rfl, ?_, rfl, ?_⟩ <;> simp
  | cons v rest =>
      rw [List.head?_cons] at newest
      have other : u ≠ v := fun same => outside (same ▸ List.mem_cons_self)
      obtain ⟨apart, _⟩ := List.nodup_cons.mp distinct
      have away : ∀ w ∈ v :: rest, w ≠ u := fun w held same => outside (same ▸ held)
      unfold push
      rw [newest]
      refine ⟨rfl, ?_, ?_⟩
      · simp [other]
      · unfold Listed at listed
        rw [newest] at listed
        simp only [Links.setNewer_older, Links.setOlder_older, if_pos]
        apply listed.rebase
        · simp
        · intro w held
          simp [away w held]
        · intro w held
          have past : w ≠ v := fun same => apart (same ▸ held)
          simp [away w (List.mem_cons_of_mem v held), past]

/-! ## Coming out -/

theorem unlink_newer (apart : l.newer u ≠ some u) (w : α) :
    (unlink l e u).1.newer w =
      if w = u then none else if l.older u = some w then l.newer u else l.newer w := by
  unfold unlink
  cases newer : l.newer u with
  | none =>
      cases older : l.older u with
      | none => simp [older]
      | some v => simp [older, newer, eq_comm]
  | some t =>
      rw [newer] at apart
      have other : u ≠ t := fun same => apart (congrArg some same.symm)
      cases older : l.older u with
      | none => simp [older, other]
      | some v => simp [older, newer, other, eq_comm]

theorem unlink_older (apart : l.newer u ≠ some u) (w : α) :
    (unlink l e u).1.older w =
      if w = u then none else if l.newer u = some w then l.older u else l.older w := by
  unfold unlink
  cases newer : l.newer u with
  | none =>
      cases older : l.older u with
      | none => simp [older]
      | some v => simp [older]
  | some t =>
      rw [newer] at apart
      have other : u ≠ t := fun same => apart (congrArg some same.symm)
      cases older : l.older u with
      | none => simp [older, other, eq_comm]
      | some v => simp [older, other, eq_comm]

theorem unlink_newest (apart : l.newer u ≠ some u) :
    (unlink l e u).2.newest = if l.newer u = none then l.older u else e.newest := by
  unfold unlink
  cases newer : l.newer u with
  | none => cases older : l.older u <;> simp [older]
  | some t =>
      rw [newer] at apart
      have other : u ≠ t := fun same => apart (congrArg some same.symm)
      cases older : l.older u <;> simp [older, other]

theorem unlink_oldest (apart : l.newer u ≠ some u) :
    (unlink l e u).2.oldest = if l.older u = none then l.newer u else e.oldest := by
  unfold unlink
  cases newer : l.newer u with
  | none => cases older : l.older u <;> simp [older, newer]
  | some t =>
      rw [newer] at apart
      have other : u ≠ t := fun same => apart (congrArg some same.symm)
      cases older : l.older u <;> simp [older, newer, other]

/-- Coming out, a node changes its own links and its neighbours', which are in its list. -/
theorem unlink_frame (listed : Listed l e nodes) (distinct : nodes.Nodup) (held : u ∈ nodes)
    {w : α} (outside : w ∉ nodes) :
    (unlink l e u).1.newer w = l.newer w ∧ (unlink l e u).1.older w = l.older w := by
  have self := (listed.apart distinct held).1
  have other : w ≠ u := fun same => outside (same ▸ held)
  have newer : l.newer u ≠ some w := fun beside =>
    outside (listed.neighbours held (Or.inl beside))
  have older : l.older u ≠ some w := fun beside =>
    outside (listed.neighbours held (Or.inr beside))
  rw [unlink_newer self, unlink_older self, if_neg other, if_neg other, if_neg older,
    if_neg newer]
  exact ⟨rfl, rfl⟩

/-- A node comes out of its list and leaves the others in their order. -/
theorem unlink_listed (listed : Listed l e nodes) (distinct : nodes.Nodup) (held : u ∈ nodes) :
    Listed (unlink l e u).1 (unlink l e u).2 (nodes.erase u) := by
  have self := (listed.apart distinct held).1
  obtain ⟨newer, older, rfl, left, right⟩ := listed.split held
  obtain ⟨off, distinct⟩ := List.nodup_cons.mp (List.nodup_middle.mp distinct)
  have offNewer : u ∉ newer := fun inside => off (List.mem_append_left older inside)
  have awayNewer : ∀ w ∈ newer, w ≠ u := fun w inside same => offNewer (same ▸ inside)
  have awayOlder : ∀ w ∈ older, w ≠ u := fun w inside same =>
    off (List.mem_append_right newer (same ▸ inside))
  obtain ⟨distinctNewer, distinctOlder, disjoint⟩ := List.nodup_append.mp distinct
  have erased : (newer ++ u :: older).erase u = newer ++ older := by
    rw [List.erase_append_right _ offNewer, List.erase_cons_head]
  rw [erased]
  unfold Listed
  rw [unlink_newest self, unlink_oldest self]
  apply Segment.append.mpr
  refine ⟨l.newer u, l.older u, ?_, ?_⟩
  · cases linked : l.newer u with
    | none =>
        rw [linked] at left
        have none := left.last_eq
        rw [Option.or_none] at none
        have empty : newer = [] := List.getLast?_eq_none_iff.mp none.symm
        subst empty
        exact ⟨rfl, rfl⟩
    | some v =>
        rw [if_neg (by simp)]
        rw [linked] at left
        have inside : v ∈ newer := by
          rcases left.last_mem with none | ⟨w, inside, same⟩
          · exact absurd none (by simp)
          · exact Option.some.inj same ▸ inside
        apply left.redirect inside distinctNewer
        · intro w within
          rw [unlink_newer self, if_neg (awayNewer w within)]
          rcases right.first_mem with none | ⟨t, behind, same⟩
          · rw [none, if_neg (by simp)]
          · rw [same, if_neg]
            exact fun equal => disjoint w within t behind (Option.some.inj equal).symm
        · intro w within other
          rw [unlink_older self, if_neg (awayNewer w within), linked,
            if_neg (fun equal => other (Option.some.inj equal).symm)]
        · rw [unlink_older self, if_neg (awayNewer v inside), linked,
            if_pos rfl]
  · cases older with
    | nil =>
        obtain ⟨-, none⟩ := right
        rw [← none, if_pos rfl]
        exact ⟨rfl, rfl⟩
    | cons v rest =>
        have linked : l.older u = some v := right.1
        obtain ⟨first, -⟩ := List.nodup_cons.mp distinctOlder
        rw [linked, if_neg (by simp)]
        rw [linked] at right
        apply right.rebase
        · rw [unlink_newer self, if_neg (awayOlder v List.mem_cons_self),
            linked, if_pos rfl]
        · intro w within
          rw [unlink_older self, if_neg (awayOlder w within), if_neg]
          intro equal
          rcases left.last_mem with none | ⟨t, before, same⟩
          · exact absurd (equal.symm.trans none) (by simp)
          · have one : w = t := Option.some.inj (equal.symm.trans same)
            exact disjoint t before w within one.symm
        · intro w within
          rw [unlink_newer self,
            if_neg (awayOlder w (List.mem_cons_of_mem v within)), linked,
            if_neg fun equal => ?_]
          have same : v = w := Option.some.inj equal
          exact first (same ▸ within)

end Operations
end Intrusive
end Llmbridge
