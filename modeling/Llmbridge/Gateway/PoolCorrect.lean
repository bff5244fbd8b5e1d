import Llmbridge.Gateway.Pool

/-!
# The pool's lists, over a run

`gateway/src/core/pool.cpp`: whatever is released, acquired, removed and reaped, each list
links the connections of its venue from the one released last to the one released first,
and the expired ones are those at its end.
-/

namespace Llmbridge
namespace Gateway
namespace PoolHeap

/-- `u.pooled`. -/
def isPooled (h : PoolHeap) (u : Nat) : Prop :=
  (h.conn u).links.pooled = true

/-- `u.venue`. -/
def venueOf (h : PoolHeap) (u : Nat) : Int :=
  (h.conn u).links.venue

/-- `u.ts_pooled`. -/
def stampOf (h : PoolHeap) (u : Nat) : Int :=
  (h.conn u).tsPooled

/-- The number of venues. -/
def venues (h : PoolHeap) : Nat :=
  h.pool.lists.length

/-- The lists hold these nodes, newest first: distinct connections of their venue, each one
that is flagged as pooled, counted together. -/
structure Shelved (h : PoolHeap) (nodes : Nat → List Nat) : Prop where
  listed : ∀ v < h.venues, Intrusive.Listed h.links (h.listOf v) (nodes v)
  distinct : ∀ v < h.venues, (nodes v).Nodup
  held : ∀ v < h.venues, ∀ u ∈ nodes v, h.isPooled u ∧ h.venueOf u = v
  shelf : ∀ u, h.isPooled u → ∃ v < h.venues, h.venueOf u = v ∧ u ∈ nodes v
  counted : h.pool.count = ∑ v ∈ Finset.range h.venues, (nodes v).length

/-! ## What is not the pool's -/

/-- Two heaps that differ in what the pool does not keep. -/
structure Same (h h' : PoolHeap) : Prop where
  pool : h'.pool = h.pool
  links : h'.links = h.links
  pooled : ∀ u, h'.isPooled u ↔ h.isPooled u
  venue : ∀ u, h.isPooled u → h'.venueOf u = h.venueOf u
  stamp : ∀ u, h.isPooled u → h'.stampOf u = h.stampOf u

namespace Same

variable {h h' h'' : PoolHeap} {nodes : Nat → List Nat}

/-- A heap is as it was. -/
theorem refl (h : PoolHeap) : Same h h :=
  ⟨rfl, rfl, fun _ => Iff.rfl, fun _ _ => rfl, fun _ _ => rfl⟩

/-- As it was, twice. -/
theorem trans (first : Same h h') (second : Same h' h'') : Same h h'' where
  pool := second.pool.trans first.pool
  links := second.links.trans first.links
  pooled u := (second.pooled u).trans (first.pooled u)
  venue u pooled := (second.venue u ((first.pooled u).mpr pooled)).trans (first.venue u pooled)
  stamp u pooled := (second.stamp u ((first.pooled u).mpr pooled)).trans (first.stamp u pooled)

/-- The shelves of a heap that is as it was. -/
theorem shelved (same : Same h h') (shelved : Shelved h nodes) : Shelved h' nodes := by
  have count : h'.venues = h.venues := by
    unfold venues
    rw [same.pool]
  constructor
  · intro v inside
    rw [same.links]
    unfold listOf
    rw [same.pool]
    exact shelved.listed v (count ▸ inside)
  · intro v inside
    exact shelved.distinct v (count ▸ inside)
  · intro v inside u within
    obtain ⟨pooled, venue⟩ := shelved.held v (count ▸ inside) u within
    exact ⟨(same.pooled u).mpr pooled, (same.venue u pooled).trans venue⟩
  · intro u pooled
    have before := (same.pooled u).mp pooled
    obtain ⟨v, inside, venue, within⟩ := shelved.shelf u before
    exact ⟨v, count.symm ▸ inside, (same.venue u before).trans venue, within⟩
  · rw [same.pool, count]
    exact shelved.counted

/-- A connection is written with its flag as it was, and its venue and stamp too if it is
pooled. -/
theorem setConn (h : PoolHeap) (u : Nat) (c : UpstreamConn)
    (pooled : c.links.pooled = (h.conn u).links.pooled)
    (kept : h.isPooled u → c.links.venue = h.venueOf u ∧ c.tsPooled = h.stampOf u) :
    Same h (h.setConn u c) := by
  constructor
  · rfl
  · rfl
  · intro w
    unfold isPooled
    rw [setConn_conn]
    by_cases same : w = u
    · rw [if_pos same, pooled, same]
    · rw [if_neg same]
  · intro w within
    unfold venueOf
    rw [setConn_conn]
    by_cases same : w = u
    · subst same
      rw [if_pos rfl]
      exact (kept within).1
    · rw [if_neg same]
  · intro w within
    unfold stampOf
    rw [setConn_conn]
    by_cases same : w = u
    · subst same
      rw [if_pos rfl]
      exact (kept within).2
    · rw [if_neg same]

/-- Taking a connection from its client leaves the pool as it was. -/
theorem unpair (h : PoolHeap) (u : Nat) : Same h (h.unpair u) := by
  have only : Same h { h with up := fun client =>
      if (h.conn u).links.client = some client then none else h.up client } :=
    ⟨rfl, rfl, fun _ => Iff.rfl, fun _ _ => rfl, fun _ _ => rfl⟩
  exact only.trans (setConn _ u _ rfl fun _ => ⟨rfl, rfl⟩)

/-- A connection that is out of the pool is closed, which takes it out again. -/
theorem close (h : PoolHeap) (u : Nat) (out : ¬ h.isPooled u) : Same h (h.close u) := by
  unfold PoolHeap.close
  by_cases doomed : (h.conn u).links.doomed
  · rw [if_pos doomed]
    exact refl h
  · rw [if_neg doomed]
    have unpaired := unpair h u
    have still : ¬ (h.unpair u).isPooled u := fun pooled => out ((unpaired.pooled u).mp pooled)
    have removed : (h.unpair u).remove u = h.unpair u := by
      unfold remove
      exact if_neg still
    simp only [removed]
    exact unpaired.trans (setConn _ u _ rfl fun _ => ⟨rfl, rfl⟩)

end Same

/-! ## Coming out -/

section Removal

variable {h : PoolHeap} {nodes : Nat → List Nat} {u : Nat}

/-- Removing a pooled connection takes it out of its list. -/
theorem remove_pooled (pooled : h.isPooled u) :
    h.remove u =
      { h with
        pool :=
          { h.pool with
            lists := h.pool.lists.set (h.venueOf u).toNat
              (Intrusive.unlink h.links (h.listOf (h.venueOf u)) u).2
            count := h.pool.count - 1 }
        links := (Intrusive.unlink h.links (h.listOf (h.venueOf u)) u).1 }.setConn u
          { h.conn u with links := { (h.conn u).links with pooled := false } } := by
  unfold remove
  exact if_pos pooled

/-- Removing another does nothing. -/
theorem remove_unpooled (out : ¬ h.isPooled u) : h.remove u = h := by
  unfold remove
  exact if_neg out

@[simp] theorem remove_venues (h : PoolHeap) (u : Nat) : (h.remove u).venues = h.venues := by
  by_cases pooled : h.isPooled u
  · rw [remove_pooled pooled]
    exact List.length_set
  · rw [remove_unpooled pooled]

@[simp] theorem remove_conn (h : PoolHeap) (u w : Nat) :
    (h.remove u).conn w =
      if w = u then { h.conn u with links := { (h.conn u).links with pooled := false } }
      else h.conn w := by
  by_cases pooled : h.isPooled u
  · rw [remove_pooled pooled, setConn_conn]
  · rw [remove_unpooled pooled]
    by_cases same : w = u
    · subst same
      rw [if_pos rfl]
      have flag : (h.conn w).links.pooled = false := Bool.eq_false_iff.mpr pooled
      rw [← flag]
    · rw [if_neg same]

@[simp] theorem remove_cap (h : PoolHeap) (u : Nat) : (h.remove u).pool.cap = h.pool.cap := by
  by_cases pooled : h.isPooled u
  · rw [remove_pooled pooled]
    rfl
  · rw [remove_unpooled pooled]

/-- The others stay pooled. -/
theorem remove_isPooled (h : PoolHeap) (u w : Nat) :
    (h.remove u).isPooled w ↔ h.isPooled w ∧ w ≠ u := by
  unfold isPooled
  rw [remove_conn]
  by_cases same : w = u
  · simp [same]
  · simp [same]

@[simp] theorem remove_venueOf (h : PoolHeap) (u w : Nat) :
    (h.remove u).venueOf w = h.venueOf w := by
  unfold venueOf
  rw [remove_conn]
  by_cases same : w = u
  · rw [if_pos same, same]
  · rw [if_neg same]

@[simp] theorem remove_stampOf (h : PoolHeap) (u w : Nat) :
    (h.remove u).stampOf w = h.stampOf w := by
  unfold stampOf
  rw [remove_conn]
  by_cases same : w = u
  · rw [if_pos same, same]
  · rw [if_neg same]

/-- The list of another venue is not written. -/
theorem listOf_set {pool : UpstreamPool} {ends : Intrusive.Ends Nat} {v : Nat} (w : Nat)
    (inside : w < pool.lists.length) :
    (pool.lists.set v ends).getD w {} = if w = v then ends else pool.lists.getD w {} := by
  rw [List.getD_eq_getElem?_getD, List.getD_eq_getElem?_getD, List.getElem?_set]
  by_cases same : w = v
  · subst same
    simp [inside]
  · rw [if_neg (Ne.symm same), if_neg same]

/-- The sum of the lengths when one list changes. -/
theorem count_update {n v : Nat} (inside : v < n) (nodes : Nat → List Nat) (list : List Nat) :
    ∑ w ∈ Finset.range n, (Function.update nodes v list w).length + (nodes v).length =
      ∑ w ∈ Finset.range n, (nodes w).length + list.length := by
  have within : v ∈ Finset.range n := Finset.mem_range.mpr inside
  have rest : ∑ w ∈ (Finset.range n).erase v, (Function.update nodes v list w).length =
      ∑ w ∈ (Finset.range n).erase v, (nodes w).length := by
    apply Finset.sum_congr rfl
    intro w other
    rw [Function.update_of_ne (Finset.ne_of_mem_erase other)]
  rw [← Finset.add_sum_erase _ _ within, ← Finset.add_sum_erase _ (fun w => (nodes w).length)
    within, rest, Function.update_self]
  omega

/-- A pooled connection comes out of its venue's list. -/
theorem Shelved.remove (shelved : Shelved h nodes) (pooled : h.isPooled u) {v : Nat}
    (venue : h.venueOf u = v) :
    Shelved (h.remove u) (Function.update nodes v ((nodes v).erase u)) := by
  obtain ⟨v', inside, same, there⟩ := shelved.shelf u pooled
  obtain rfl : v' = v := Int.ofNat_inj.mp (same.symm.trans venue)
  have listed := shelved.listed v' inside
  have distinct := shelved.distinct v' inside
  have lists : ∀ w < h.venues, (h.remove u).listOf w =
      if w = v' then (Intrusive.unlink h.links (h.listOf v') u).2 else h.listOf w := by
    intro w within
    rw [remove_pooled pooled, venue]
    exact listOf_set w within
  have links : (h.remove u).links = (Intrusive.unlink h.links (h.listOf v') u).1 := by
    rw [remove_pooled pooled, venue]
    rfl
  constructor
  · intro w within
    rw [remove_venues] at within
    rw [lists w within, links]
    by_cases one : w = v'
    · subst one
      rw [if_pos rfl, Function.update_self]
      exact Intrusive.unlink_listed listed distinct there
    · rw [if_neg one, Function.update_of_ne one]
      apply (shelved.listed w within).frame
      intro x held
      apply Intrusive.unlink_frame listed distinct there
      intro both
      have first := (shelved.held w within x held).2
      have second := (shelved.held v' inside x both).2
      exact one (Int.ofNat_inj.mp (first.symm.trans second))
  · intro w within
    rw [remove_venues] at within
    by_cases one : w = v'
    · subst one
      rw [Function.update_self]
      exact distinct.erase u
    · rw [Function.update_of_ne one]
      exact shelved.distinct w within
  · intro w within x held
    rw [remove_venues] at within
    rw [remove_isPooled, remove_venueOf]
    by_cases one : w = v'
    · subst one
      rw [Function.update_self, distinct.mem_erase_iff] at held
      obtain ⟨stays, of⟩ := shelved.held w within x held.2
      exact ⟨⟨stays, held.1⟩, of⟩
    · rw [Function.update_of_ne one] at held
      obtain ⟨stays, of⟩ := shelved.held w within x held
      refine ⟨⟨stays, ?_⟩, of⟩
      intro same
      subst same
      exact one (Int.ofNat_inj.mp (of.symm.trans venue))
  · intro x stays
    obtain ⟨stays, other⟩ := (remove_isPooled h u x).mp stays
    obtain ⟨w, below, of, held⟩ := shelved.shelf x stays
    refine ⟨w, by rw [remove_venues]; exact below, by rw [remove_venueOf]; exact of, ?_⟩
    by_cases one : w = v'
    · subst one
      rw [Function.update_self, distinct.mem_erase_iff]
      exact ⟨other, held⟩
    · rw [Function.update_of_ne one]
      exact held
  · rw [remove_venues]
    have count : (h.remove u).pool.count = h.pool.count - 1 := by
      rw [remove_pooled pooled]
      rfl
    have sum := count_update inside nodes ((nodes v').erase u)
    rw [List.length_erase_of_mem there, ← shelved.counted] at sum
    have some : 0 < (nodes v').length := List.length_pos_of_mem there
    rw [count]
    omega

end Removal

/-! ## Going in -/

section Pooling

variable {h : PoolHeap} {nodes : Nat → List Nat} {u : Nat} {now : Int}

@[simp] theorem pooled_venues (h : PoolHeap) (u : Nat) (now : Int) :
    (h.pooled u now).venues = h.venues :=
  List.length_set

@[simp] theorem pooled_count (h : PoolHeap) (u : Nat) (now : Int) :
    (h.pooled u now).pool.count = h.pool.count + 1 := rfl

@[simp] theorem pooled_cap (h : PoolHeap) (u : Nat) (now : Int) :
    (h.pooled u now).pool.cap = h.pool.cap := rfl

/-- With one more pooled the others stay so. -/
theorem pooled_isPooled (h : PoolHeap) (u w : Nat) (now : Int) :
    (h.pooled u now).isPooled w ↔ w = u ∨ h.isPooled w := by
  unfold pooled isPooled
  rw [setConn_conn]
  by_cases same : w = u
  · simp [same]
  · simp [same]

@[simp] theorem pooled_venueOf (h : PoolHeap) (u w : Nat) (now : Int) :
    (h.pooled u now).venueOf w = h.venueOf w := by
  unfold pooled venueOf
  rw [setConn_conn]
  by_cases same : w = u
  · rw [if_pos same, same]
  · rw [if_neg same]

/-- It has the time at which it was pooled. -/
theorem pooled_stampOf (h : PoolHeap) (u w : Nat) (now : Int) :
    (h.pooled u now).stampOf w = if w = u then now else h.stampOf w := by
  unfold pooled stampOf
  rw [setConn_conn]
  by_cases same : w = u
  · rw [if_pos same, if_pos same]
  · rw [if_neg same, if_neg same]

/-- A connection goes in as the newest of its venue's list. -/
theorem Shelved.pooled (shelved : Shelved h nodes) (out : ¬ h.isPooled u) {v : Nat}
    (venue : h.venueOf u = v) (inside : v < h.venues) :
    Shelved (h.pooled u now) (Function.update nodes v (u :: nodes v)) := by
  have apart : ∀ w < h.venues, u ∉ nodes w := fun w within held =>
    out (shelved.held w within u held).1
  have listed := shelved.listed v inside
  have distinct := shelved.distinct v inside
  have lists : ∀ w < h.venues, (h.pooled u now).listOf w =
      if w = v then (Intrusive.push h.links (h.listOf v) u).2 else h.listOf w := by
    intro w within
    change (h.pool.lists.set (h.venueOf u).toNat
      (Intrusive.push h.links (h.listOf (h.venueOf u)) u).2).getD w {} = _
    rw [listOf_set w within, venue]
    rfl
  have links : (h.pooled u now).links = (Intrusive.push h.links (h.listOf v) u).1 := by
    rw [← venue]
    rfl
  constructor
  · intro w within
    rw [pooled_venues] at within
    rw [lists w within, links]
    by_cases one : w = v
    · subst one
      rw [if_pos rfl, Function.update_self]
      exact Intrusive.push_listed listed distinct (apart w within)
    · rw [if_neg one, Function.update_of_ne one]
      apply (shelved.listed w within).frame
      intro x held
      apply Intrusive.push_frame listed
      intro both
      rcases List.mem_cons.mp both with same | both
      · exact apart w within (same ▸ held)
      · have first := (shelved.held w within x held).2
        have second := (shelved.held v inside x both).2
        exact one (Int.ofNat_inj.mp (first.symm.trans second))
  · intro w within
    rw [pooled_venues] at within
    by_cases one : w = v
    · subst one
      rw [Function.update_self]
      exact List.nodup_cons.mpr ⟨apart w within, distinct⟩
    · rw [Function.update_of_ne one]
      exact shelved.distinct w within
  · intro w within x held
    rw [pooled_venues] at within
    rw [pooled_isPooled, pooled_venueOf]
    by_cases one : w = v
    · subst one
      rw [Function.update_self] at held
      rcases List.mem_cons.mp held with rfl | held
      · exact ⟨Or.inl rfl, venue⟩
      · obtain ⟨stays, of⟩ := shelved.held w within x held
        exact ⟨Or.inr stays, of⟩
    · rw [Function.update_of_ne one] at held
      obtain ⟨stays, of⟩ := shelved.held w within x held
      exact ⟨Or.inr stays, of⟩
  · intro x stays
    rw [pooled_venues, pooled_venueOf]
    rcases (pooled_isPooled h u x now).mp stays with rfl | stays
    · refine ⟨v, inside, venue, ?_⟩
      rw [Function.update_self]
      exact List.mem_cons_self
    · obtain ⟨w, below, of, held⟩ := shelved.shelf x stays
      refine ⟨w, below, of, ?_⟩
      by_cases one : w = v
      · subst one
        rw [Function.update_self]
        exact List.mem_cons_of_mem u held
      · rw [Function.update_of_ne one]
        exact held
  · rw [pooled_venues, pooled_count, shelved.counted]
    have sum := count_update inside nodes (u :: nodes v)
    rw [List.length_cons] at sum
    omega

/-- A release takes the connection's client from it and refuses, or it has found the
connection out of the pool and the pool not full. -/
theorem release_cases (h : PoolHeap) (u : Nat) (keepAlive bodyEnded requestSent : Bool)
    (now : Int) :
    ((h.release u keepAlive bodyEnded requestSent now).1 ≠ .none ∧
        (h.release u keepAlive bodyEnded requestSent now).2 = h.unpair u) ∨
      (h.release u keepAlive bodyEnded requestSent now =
          (.none, (h.unpair u).pooled u now) ∧
        ¬ (h.unpair u).isPooled u ∧ (h.unpair u).pool.count < (h.unpair u).pool.cap ∧
        ∃ v < (h.unpair u).venues, (h.unpair u).venueOf u = (v : Nat)) := by
  unfold release
  generalize h.unpair u = h
  dsimp only
  split_ifs with shut keep ended eof left unsent full unknown
  · exact Or.inl ⟨by simp, rfl⟩
  · exact Or.inl ⟨by simp, rfl⟩
  · exact Or.inl ⟨by simp, rfl⟩
  · exact Or.inl ⟨by simp, rfl⟩
  · exact Or.inl ⟨by simp, rfl⟩
  · exact Or.inl ⟨by simp, rfl⟩
  · exact Or.inl ⟨by simp, rfl⟩
  · exact Or.inl ⟨by simp, rfl⟩
  · right
    refine ⟨rfl, fun pooled => shut (Or.inr (Or.inr pooled)), by omega,
      (h.venueOf u).toNat, ?_, ?_⟩
    · exact Nat.not_le.mp fun beyond => unknown (Or.inr beyond)
    · have known : 0 ≤ h.venueOf u := Int.not_lt.mp fun negative => unknown (Or.inl negative)
      omega

end Pooling

/-! ## Reaping -/

section Reaping

variable {h : PoolHeap} {nodes : Nat → List Nat} {cutoff : Int}

/-- The connections closed are the expired ones among some, each once, and they are all
that the pool loses. -/
structure Reaped (h : PoolHeap) (cutoff : Int) (those : Nat → Prop) (closed : List Nat)
    (h' : PoolHeap) : Prop where
  once : closed.Nodup
  expired : ∀ u, u ∈ closed ↔ h.isPooled u ∧ those u ∧ h.stampOf u < cutoff
  pooled : ∀ u, h'.isPooled u ↔ h.isPooled u ∧ u ∉ closed
  venue : ∀ u, h'.isPooled u → h'.venueOf u = h.venueOf u
  stamp : ∀ u, h'.isPooled u → h'.stampOf u = h.stampOf u
  venues : h'.venues = h.venues
  cap : h'.pool.cap = h.pool.cap

namespace Reaped

variable {those others : Nat → Prop} {closed more : List Nat} {h' h'' : PoolHeap}

/-- Only what is said of the pooled ones counts. -/
theorem congr (reaped : Reaped h cutoff those closed h')
    (same : ∀ u, h.isPooled u → (others u ↔ those u)) :
    Reaped h cutoff others closed h' :=
  { reaped with
    expired := by
      intro u
      rw [reaped.expired]
      constructor
      · exact fun found => ⟨found.1, (same u found.1).mpr found.2.1, found.2.2⟩
      · exact fun found => ⟨found.1, (same u found.1).mp found.2.1, found.2.2⟩ }

/-- Reaping some connections and then others. -/
theorem trans (first : Reaped h cutoff those closed h')
    (second : Reaped h' cutoff others more h'') :
    Reaped h cutoff (fun u => those u ∨ others u) (closed ++ more) h'' where
  once := by
    apply List.nodup_append.mpr
    refine ⟨first.once, second.once, ?_⟩
    intro u before w after same
    subst same
    have stays := ((second.expired u).mp after).1
    exact ((first.pooled u).mp stays).2 before
  expired := by
    intro u
    rw [List.mem_append]
    constructor
    · rintro (before | after)
      · obtain ⟨pooled, one, old⟩ := (first.expired u).mp before
        exact ⟨pooled, Or.inl one, old⟩
      · obtain ⟨pooled, one, old⟩ := (second.expired u).mp after
        rw [first.stamp u pooled] at old
        exact ⟨((first.pooled u).mp pooled).1, Or.inr one, old⟩
    · rintro ⟨pooled, one, old⟩
      by_cases before : u ∈ closed
      · exact Or.inl before
      · right
        have stays := (first.pooled u).mpr ⟨pooled, before⟩
        rcases one with one | one
        · exact absurd ((first.expired u).mpr ⟨pooled, one, old⟩) before
        · apply (second.expired u).mpr
          rw [first.stamp u stays]
          exact ⟨stays, one, old⟩
  pooled := by
    intro u
    rw [second.pooled, first.pooled, List.mem_append, not_or, and_assoc]
  venue := by
    intro u stays
    have before := ((second.pooled u).mp stays).1
    rw [second.venue u stays, first.venue u before]
  stamp := by
    intro u stays
    have before := ((second.pooled u).mp stays).1
    rw [second.stamp u stays, first.stamp u before]
  venues := second.venues.trans first.venues
  cap := second.cap.trans first.cap

/-- Nothing is closed where all are fresh. -/
theorem none (fresh : ∀ u, h.isPooled u → those u → cutoff ≤ h.stampOf u) :
    Reaped h cutoff those [] h where
  once := List.nodup_nil
  expired := by
    intro u
    constructor
    · exact fun held => absurd held List.not_mem_nil
    · rintro ⟨pooled, one, old⟩
      exact absurd old (Int.not_lt.mpr (fresh u pooled one))
  pooled := fun u => by simp
  venue := fun _ _ => rfl
  stamp := fun _ _ => rfl
  venues := rfl
  cap := rfl

end Reaped

variable {u : Nat}

/-- Removed and then closed, a connection is as if only removed. -/
theorem Same.removed (h : PoolHeap) (u : Nat) : Same (h.remove u) ((h.remove u).close u) := by
  apply Same.close
  intro pooled
  exact ((remove_isPooled h u u).mp pooled).2 rfl

/-- The venues of a heap that is as it was. -/
theorem Same.venues {h h' : PoolHeap} (same : Same h h') : h'.venues = h.venues := by
  unfold PoolHeap.venues
  rw [same.pool]

/-- One expired connection is taken out and closed. -/
theorem Reaped.one (pooled : h.isPooled u) (old : h.stampOf u < cutoff) :
    Reaped h cutoff (· = u) [u] ((h.remove u).close u) := by
  have same := Same.removed h u
  constructor
  · exact List.nodup_singleton u
  · intro w
    rw [List.mem_singleton]
    constructor
    · rintro rfl
      exact ⟨pooled, rfl, old⟩
    · exact fun found => found.2.1
  · intro w
    rw [same.pooled, remove_isPooled, List.mem_singleton]
  · intro w stays
    rw [same.venue w ((same.pooled w).mp stays), remove_venueOf]
  · intro w stays
    rw [same.stamp w ((same.pooled w).mp stays), remove_stampOf]
  · rw [same.venues, remove_venues]
  · rw [same.pool, remove_cap]

/-- The connections of a list were stamped in its order, the newest last. -/
def Stamped (h : PoolHeap) (list : List Nat) : Prop :=
  list.Pairwise fun newer older => h.stampOf older ≤ h.stampOf newer

/-- The last connection of a list has its earliest stamp. -/
theorem Stamped.last {list : List Nat} (stamped : Stamped h list)
    (last : list.getLast? = some u) {w : Nat} (held : w ∈ list) :
    h.stampOf u ≤ h.stampOf w := by
  obtain ⟨front, rfl⟩ := List.getLast?_eq_some_iff.mp last
  rcases List.mem_append.mp held with before | ends
  · exact (List.pairwise_append.mp stamped).2.2 w before u (List.mem_singleton.mpr rfl)
  · rw [List.mem_singleton.mp ends]

/-- Fewer connections in the same order are still in the order of their times. -/
theorem Stamped.kept {list list' : List Nat} {h' : PoolHeap} (stamped : Stamped h list)
    (less : list'.Sublist list) (same : ∀ w ∈ list', h'.stampOf w = h.stampOf w) :
    Stamped h' list' := by
  apply (stamped.sublist less).imp_of_mem
  intro newer older heldNewer heldOlder le
  rw [same newer heldNewer, same older heldOlder]
  exact le

/-- The rounds at one list close its expired connections. -/
theorem reapList_reaped (cutoff : Int) {v : Nat} :
    ∀ {rounds : Nat} {h : PoolHeap} {nodes : Nat → List Nat}, Shelved h nodes →
      v < h.venues → (nodes v).length ≤ rounds → Stamped h (nodes v) →
    ∃ nodes', Shelved (reapList cutoff v rounds h).2 nodes' ∧
      (∀ w, (nodes' w).Sublist (nodes w)) ∧
      Reaped h cutoff (fun u => h.venueOf u = v) (reapList cutoff v rounds h).1
        (reapList cutoff v rounds h).2 := by
  intro rounds
  induction rounds with
  | zero =>
      intro h nodes shelved inside short stamped
      refine ⟨nodes, shelved, fun w => List.Sublist.refl _, Reaped.none ?_⟩
      intro u pooled venue
      obtain ⟨w, below, of, held⟩ := shelved.shelf u pooled
      obtain rfl : w = v := Int.ofNat_inj.mp (of.symm.trans venue)
      rw [List.eq_nil_of_length_eq_zero (Nat.le_zero.mp short)] at held
      exact absurd held List.not_mem_nil
  | succ rounds inductionHypothesis =>
      intro h nodes shelved inside short stamped
      have oldest := (shelved.listed v inside).oldest_eq
      unfold reapList
      cases last : (nodes v).getLast? with
      | none =>
          rw [oldest, last]
          refine ⟨nodes, shelved, fun w => List.Sublist.refl _, Reaped.none ?_⟩
          intro u pooled venue
          obtain ⟨w, below, of, held⟩ := shelved.shelf u pooled
          obtain rfl : w = v := Int.ofNat_inj.mp (of.symm.trans venue)
          rw [List.getLast?_eq_none_iff.mp last] at held
          exact absurd held List.not_mem_nil
      | some u =>
          rw [oldest, last]
          dsimp only
          have there : u ∈ nodes v := List.mem_of_getLast? last
          obtain ⟨pooled, venue⟩ := shelved.held v inside u there
          by_cases old : (h.conn u).tsPooled < cutoff
          · simp only [if_pos old]
            have first : Reaped h cutoff (· = u) [u] _ := Reaped.one pooled old
            have after := (Same.removed h u).shelved (shelved.remove pooled venue)
            have listed : Function.update nodes v ((nodes v).erase u) v = (nodes v).erase u :=
              Function.update_self ..
            have less : ∀ w, (Function.update nodes v ((nodes v).erase u) w).Sublist
                (nodes w) := by
              intro w
              by_cases one : w = v
              · subst one
                rw [listed]
                exact List.erase_sublist
              · rw [Function.update_of_ne one]
            obtain ⟨nodes', rest, sublist, second⟩ := inductionHypothesis after
              (by rw [first.venues]; exact inside)
              (by rw [listed, List.length_erase_of_mem there]; omega)
              (by
                apply stamped.kept (less v)
                intro w held
                exact first.stamp w (after.held v (by rw [first.venues]; exact inside) w held).1)
            refine ⟨nodes', rest, fun w => (sublist w).trans (less w), ?_⟩
            apply (first.trans second).congr
            intro w within
            constructor
            · intro of
              by_cases same : w = u
              · exact Or.inl same
              · right
                rw [first.venue w ((first.pooled w).mpr ⟨within, by simpa using same⟩)]
                exact of
            · rintro (same | of)
              · rw [same]
                exact venue
              · by_cases same : w = u
                · rw [same]
                  exact venue
                · rw [first.venue w ((first.pooled w).mpr ⟨within, by simpa using same⟩)] at of
                  exact of
          · simp only [if_neg old]
            refine ⟨nodes, shelved, fun w => List.Sublist.refl _, Reaped.none ?_⟩
            intro x within of
            obtain ⟨w, below, of', held⟩ := shelved.shelf x within
            obtain rfl : w = v := Int.ofNat_inj.mp (of'.symm.trans of)
            have earliest := stamped.last last held
            have recent : cutoff ≤ h.stampOf u := Int.not_lt.mp old
            omega

/-- A list is no longer than all of them together. -/
theorem Shelved.short (shelved : Shelved h nodes) {v : Nat} (inside : v < h.venues) :
    (nodes v).length ≤ h.pool.count := by
  rw [shelved.counted]
  exact Finset.single_le_sum (fun w _ => Nat.zero_le (nodes w).length)
    (Finset.mem_range.mpr inside)

/-- The lists are reaped one after another. -/
theorem reapLists_reaped (cutoff : Int) {vs : List Nat} : ∀ {h : PoolHeap} {nodes : Nat → List Nat},
    Shelved h nodes → (∀ v ∈ vs, v < h.venues) → (∀ v < h.venues, Stamped h (nodes v)) →
    ∃ nodes', Shelved (reapLists cutoff vs h).2 nodes' ∧
      (∀ w, (nodes' w).Sublist (nodes w)) ∧
      Reaped h cutoff (fun u => ∃ v ∈ vs, h.venueOf u = (v : Nat)) (reapLists cutoff vs h).1
        (reapLists cutoff vs h).2 := by
  induction vs with
  | nil =>
      intro h nodes shelved inside stamped
      refine ⟨nodes, shelved, fun w => List.Sublist.refl _, Reaped.none ?_⟩
      rintro u pooled ⟨v, none, -⟩
      exact absurd none List.not_mem_nil
  | cons v vs inductionHypothesis =>
      intro h nodes shelved inside stamped
      have below := inside v List.mem_cons_self
      obtain ⟨between, after, less, first⟩ :=
        reapList_reaped cutoff shelved below (shelved.short below)
          (stamped v below)
      obtain ⟨nodes', rest, sublist, second⟩ := inductionHypothesis after
        (by
          intro w held
          rw [first.venues]
          exact inside w (List.mem_cons_of_mem v held))
        (by
          intro w within
          have within' := within
          rw [first.venues] at within'
          apply (stamped w within').kept (less w)
          intro x held
          exact first.stamp x (after.held w within x held).1)
      refine ⟨nodes', rest, fun w => (sublist w).trans (less w), ?_⟩
      apply (first.trans second).congr
      intro u within
      have kept : h.venueOf u = v ∨
          (reapList cutoff v h.pool.count h).2.venueOf u = h.venueOf u := by
        by_cases closed : u ∈ (reapList cutoff v h.pool.count h).1
        · exact Or.inl ((first.expired u).mp closed).2.1
        · exact Or.inr (first.venue u ((first.pooled u).mpr ⟨within, closed⟩))
      constructor
      · rintro ⟨w, held, of⟩
        rcases List.mem_cons.mp held with rfl | held
        · exact Or.inl of
        · exact kept.imp_right fun same => ⟨w, held, same.trans of⟩
      · rintro (of | ⟨w, held, of⟩)
        · exact ⟨v, List.mem_cons_self, of⟩
        · rcases kept with of' | same
          · exact ⟨v, List.mem_cons_self, of'⟩
          · exact ⟨w, List.mem_cons_of_mem v held, same.symm.trans of⟩

/-- Reaping closes every expired connection. -/
theorem reap_reaped (cutoff : Int) (shelved : Shelved h nodes)
    (stamped : ∀ v < h.venues, Stamped h (nodes v)) :
    ∃ nodes', Shelved (h.reap cutoff).2 nodes' ∧ (∀ w, (nodes' w).Sublist (nodes w)) ∧
      Reaped h cutoff (fun _ => True) (h.reap cutoff).1 (h.reap cutoff).2 := by
  obtain ⟨nodes', after, less, reaped⟩ := reapLists_reaped cutoff shelved
    (fun v (held : v ∈ List.range h.venues) => List.mem_range.mp held) stamped
  refine ⟨nodes', after, less, reaped.congr ?_⟩
  intro u pooled
  obtain ⟨v, below, of, -⟩ := shelved.shelf u pooled
  exact ⟨fun _ => ⟨v, List.mem_range.mpr below, of⟩, fun _ => trivial⟩

end Reaping

/-! ## Runs of calls -/

/-- What happens to a pool.  `change` is anything that is done to a connection otherwise. -/
inductive Call
  | release (u : Nat) (keepAlive bodyEnded requestSent : Bool) (now : Int)
  | acquire (venue : Int)
  | remove (u : Nat)
  | reap (cutoff : Int)
  | change (u : Nat) (c : UpstreamConn)

/-- The time of a release. -/
def Call.releasedAt : Call → Option Int
  | .release _ _ _ _ now => some now
  | _ => none

/-- A heap, the number of connections pooled so far, and the number under which each
connection was pooled last. -/
structure History where
  heap : PoolHeap
  turn : Nat := 0
  last : Nat → Nat := fun _ => 0

/-- One more call. -/
def History.step (r : History) : Call → History
  | .release u keepAlive bodyEnded requestSent now =>
      let result := r.heap.release u keepAlive bodyEnded requestSent now
      if result.1 = .none then
        { heap := result.2, turn := r.turn + 1, last := Function.update r.last u r.turn }
      else { r with heap := result.2 }
  | .acquire venue => { r with heap := (r.heap.acquire venue).2 }
  | .remove u => { r with heap := r.heap.remove u }
  | .reap cutoff => { r with heap := (r.heap.reap cutoff).2 }
  | .change u c => { r with heap := r.heap.setConn u c }

/-- The history of a run. -/
def History.after (r : History) (calls : List Call) : History :=
  calls.foldl History.step r

/-- Only the pool writes `pooled`, and `ts_pooled`, and nothing writes the venue of a pooled
connection. -/
def Call.Allowed (h : PoolHeap) : Call → Prop
  | .change u c =>
      c.links.pooled = (h.conn u).links.pooled ∧
        (h.isPooled u → c.links.venue = h.venueOf u ∧ c.tsPooled = h.stampOf u)
  | _ => True

/-- Each call of a run may be made where it is. -/
def Legal (r : History) : List Call → Prop
  | [] => True
  | c :: calls => c.Allowed r.heap ∧ Legal (r.step c) calls

/-- The lists hold these nodes, each list from the connection pooled last to the one pooled
first. -/
structure Kept (r : History) (nodes : Nat → List Nat) : Prop where
  shelved : Shelved r.heap nodes
  recent : ∀ u, r.heap.isPooled u → r.last u < r.turn
  ordered : ∀ v < r.heap.venues, (nodes v).Pairwise fun newer older =>
    r.last older < r.last newer
  stamped : ∀ v < r.heap.venues, Stamped r.heap (nodes v)

namespace Kept

variable {r : History} {nodes : Nat → List Nat}

/-- A heap that differs in nothing of the pool's. -/
theorem same {h' : PoolHeap} (kept : Kept r nodes) (same : Same r.heap h') :
    Kept { r with heap := h' } nodes := by
  have shelved := same.shelved kept.shelved
  refine ⟨shelved, ?_, ?_, ?_⟩
  · exact fun u pooled => kept.recent u ((same.pooled u).mp pooled)
  · exact fun v inside => kept.ordered v (same.venues ▸ inside)
  · intro v inside
    apply (kept.stamped v (same.venues ▸ inside)).kept (List.Sublist.refl _)
    intro w held
    exact same.stamp w ((same.pooled w).mp (shelved.held v inside w held).1)

/-- A heap whose lists lost some connections. -/
theorem less {h' : PoolHeap} {nodes' : Nat → List Nat} (kept : Kept r nodes)
    (shelved : Shelved h' nodes') (venues : h'.venues = r.heap.venues)
    (less : ∀ v, (nodes' v).Sublist (nodes v))
    (pooled : ∀ u, h'.isPooled u → r.heap.isPooled u)
    (stamp : ∀ u, h'.isPooled u → h'.stampOf u = r.heap.stampOf u) :
    Kept { r with heap := h' } nodes' := by
  refine ⟨shelved, ?_, ?_, ?_⟩
  · exact fun u within => kept.recent u (pooled u within)
  · exact fun v inside => (kept.ordered v (venues ▸ inside)).sublist (less v)
  · intro v inside
    apply (kept.stamped v (venues ▸ inside)).kept (less v)
    intro w held
    exact stamp w (shelved.held v inside w held).1

/-- A connection pooled after all others is the newest of its list. -/
theorem pooled {u v : Nat} {now : Int} (kept : Kept r nodes) (out : ¬ r.heap.isPooled u)
    (venue : r.heap.venueOf u = v) (inside : v < r.heap.venues)
    (late : ∀ w, r.heap.isPooled w → r.heap.stampOf w ≤ now) :
    Kept
      { heap := r.heap.pooled u now
        turn := r.turn + 1
        last := Function.update r.last u r.turn } (Function.update nodes v (u :: nodes v)) := by
  have others : ∀ w < r.heap.venues, ∀ x ∈ nodes w, x ≠ u := by
    intro w below x held same
    exact out (same ▸ (kept.shelved.held w below x held).1)
  refine ⟨kept.shelved.pooled out venue inside, ?_, ?_, ?_⟩
  · intro x within
    change Function.update r.last u r.turn x < r.turn + 1
    rcases (pooled_isPooled r.heap u x now).mp within with rfl | within
    · rw [Function.update_self]
      exact Nat.lt_succ_self _
    · have other : x ≠ u := fun same => out (same ▸ within)
      rw [Function.update_of_ne other]
      exact Nat.lt_succ_of_lt (kept.recent x within)
  · intro w below
    change w < (r.heap.pooled u now).venues at below
    rw [pooled_venues] at below
    have rest : (nodes w).Pairwise fun newer older =>
        Function.update r.last u r.turn older < Function.update r.last u r.turn newer := by
      apply (kept.ordered w below).imp_of_mem
      intro newer older heldNewer heldOlder earlier
      rw [Function.update_of_ne (others w below newer heldNewer),
        Function.update_of_ne (others w below older heldOlder)]
      exact earlier
    by_cases one : w = v
    · subst one
      rw [Function.update_self]
      refine List.pairwise_cons.mpr ⟨?_, rest⟩
      intro x held
      change Function.update r.last u r.turn x < Function.update r.last u r.turn u
      rw [Function.update_self, Function.update_of_ne (others w below x held)]
      exact kept.recent x (kept.shelved.held w below x held).1
    · rw [Function.update_of_ne one]
      exact rest
  · intro w below
    change w < (r.heap.pooled u now).venues at below
    rw [pooled_venues] at below
    have rest : Stamped (r.heap.pooled u now) (nodes w) := by
      apply (kept.stamped w below).kept (List.Sublist.refl _)
      intro x held
      rw [pooled_stampOf, if_neg (others w below x held)]
    by_cases one : w = v
    · subst one
      rw [Function.update_self]
      refine List.pairwise_cons.mpr ⟨?_, rest⟩
      intro x held
      rw [pooled_stampOf, pooled_stampOf, if_pos rfl, if_neg (others w below x held)]
      exact late x (kept.shelved.held w below x held).1
    · rw [Function.update_of_ne one]
      exact rest

/-- Acquiring gives a pooled connection of the venue where there is one. -/
theorem acquired (kept : Kept r nodes) (venue : Int) :
    ((r.heap.acquire venue).1 = none ∧ (r.heap.acquire venue).2 = r.heap ∧
        ∀ w, r.heap.isPooled w → r.heap.venueOf w ≠ venue) ∨
      ∃ u v, (r.heap.acquire venue).1 = some u ∧
        (r.heap.acquire venue).2 = r.heap.remove u ∧ venue = (v : Nat) ∧ v < r.heap.venues ∧
        ∃ rest, nodes v = u :: rest := by
  unfold acquire
  by_cases outside : venue < 0 ∨ r.heap.pool.lists.length ≤ venue.toNat
  · rw [if_pos outside]
    refine Or.inl ⟨rfl, rfl, ?_⟩
    intro w pooled of
    obtain ⟨v, inside, of', -⟩ := kept.shelved.shelf w pooled
    have below : v < r.heap.pool.lists.length := inside
    omega
  · rw [if_neg outside]
    obtain ⟨v, rfl⟩ : ∃ v : Nat, venue = v := ⟨venue.toNat, by omega⟩
    have inside : v < r.heap.venues := by
      change v < r.heap.pool.lists.length
      omega
    have newest := (kept.shelved.listed v inside).newest_eq
    cases list : nodes v with
    | nil =>
        rw [list, List.head?_nil] at newest
        rw [newest]
        refine Or.inl ⟨rfl, rfl, ?_⟩
        intro w pooled of
        obtain ⟨v', _, of', held⟩ := kept.shelved.shelf w pooled
        obtain rfl : v' = v := Int.ofNat_inj.mp (of'.symm.trans of)
        rw [list] at held
        exact absurd held List.not_mem_nil
    | cons u rest =>
        rw [list, List.head?_cons] at newest
        rw [newest]
        exact Or.inr ⟨u, v, rfl, rfl, rfl, inside, rest, list⟩

/-- A connection taken out of its list. -/
theorem removed (kept : Kept r nodes) (u : Nat) :
    ∃ nodes', Kept { r with heap := r.heap.remove u } nodes' := by
  by_cases pooled : r.heap.isPooled u
  · obtain ⟨v, _, venue, _⟩ := kept.shelved.shelf u pooled
    refine ⟨_, kept.less (kept.shelved.remove pooled venue) (remove_venues r.heap u) ?_ ?_ ?_⟩
    · intro w
      by_cases one : w = v
      · subst one
        rw [Function.update_self]
        exact List.erase_sublist
      · rw [Function.update_of_ne one]
    · exact fun w within => ((remove_isPooled r.heap u w).mp within).1
    · exact fun w _ => remove_stampOf r.heap u w
  · rw [remove_unpooled pooled]
    exact ⟨nodes, kept⟩

/-- What a call does to the pool: the lists stay in order, and a connection that is in the
pool after it was there with the same stamp or was stamped by it. -/
structure Steps (r : History) (c : Call) (r' : History) : Prop where
  kept : ∃ nodes', Kept r' nodes'
  venues : r'.heap.venues = r.heap.venues
  cap : r'.heap.pool.cap = r.heap.pool.cap
  stamp : ∀ w, r'.heap.isPooled w →
    (r.heap.isPooled w ∧ r'.heap.stampOf w = r.heap.stampOf w) ∨
      c.releasedAt = some (r'.heap.stampOf w)

/-- One call, its release no earlier than those before it. -/
theorem step (kept : Kept r nodes) (c : Call) (allowed : c.Allowed r.heap)
    (late : ∀ now, c.releasedAt = some now →
      ∀ w, r.heap.isPooled w → r.heap.stampOf w ≤ now) :
    Steps r c (r.step c) := by
  have outcome : ∀ {h' : PoolHeap}, Same r.heap h' → Steps r c { r with heap := h' } :=
    fun {h'} same =>
      { kept := ⟨nodes, kept.same same⟩
        venues := same.venues
        cap := congrArg UpstreamPool.cap same.pool
        stamp := fun w within => Or.inl
          ⟨(same.pooled w).mp within, same.stamp w ((same.pooled w).mp within)⟩ }
  have taken : ∀ u, Steps r c { r with heap := r.heap.remove u } := fun u =>
    { kept := kept.removed u
      venues := remove_venues r.heap u
      cap := remove_cap r.heap u
      stamp := fun w within => Or.inl
        ⟨((remove_isPooled r.heap u w).mp within).1, remove_stampOf r.heap u w⟩ }
  cases c with
  | release u keepAlive bodyEnded requestSent now =>
      have unpaired := Same.unpair r.heap u
      unfold History.step
      rcases release_cases r.heap u keepAlive bodyEnded requestSent now with
        ⟨refuses, rest⟩ | ⟨pools, out, -, v, inside, venue⟩
      · simp only [if_neg refuses, rest]
        exact outcome unpaired
      · simp only [pools, if_true]
        have before := kept.same unpaired
        have earlier : ∀ w, (r.heap.unpair u).isPooled w →
            (r.heap.unpair u).stampOf w ≤ now := by
          intro w within
          have pooled := (unpaired.pooled w).mp within
          rw [unpaired.stamp w pooled]
          exact late now rfl w pooled
        refine ⟨⟨_, before.pooled out venue inside earlier⟩, ?_, ?_, ?_⟩
        · exact (pooled_venues _ u now).trans unpaired.venues
        · exact (pooled_cap _ u now).trans (congrArg UpstreamPool.cap unpaired.pool)
        · intro w within
          change ((r.heap.unpair u).pooled u now).isPooled w at within
          change _ ∨ some now = some (((r.heap.unpair u).pooled u now).stampOf w)
          change (_ ∧ ((r.heap.unpair u).pooled u now).stampOf w = _) ∨ _
          rw [pooled_stampOf]
          by_cases one : w = u
          · rw [if_pos one]
            exact Or.inr rfl
          · rw [if_neg one]
            left
            have there := ((pooled_isPooled _ u w now).mp within).resolve_left one
            have pooled := (unpaired.pooled w).mp there
            exact ⟨pooled, unpaired.stamp w pooled⟩
  | acquire venue =>
      unfold History.step
      rcases kept.acquired venue with ⟨-, rest, -⟩ | ⟨u, v, -, rest, -⟩
      · simp only [rest]
        exact outcome (Same.refl r.heap)
      · simp only [rest]
        exact taken u
  | remove u => exact taken u
  | reap cutoff =>
      obtain ⟨nodes', after, less, reaped⟩ :=
        reap_reaped cutoff kept.shelved kept.stamped
      have before : ∀ w, (r.heap.reap cutoff).2.isPooled w → r.heap.isPooled w := fun w within =>
        ((reaped.pooled w).mp within).1
      exact
        { kept := ⟨nodes', kept.less after reaped.venues less before reaped.stamp⟩
          venues := reaped.venues
          cap := reaped.cap
          stamp := fun w within => Or.inl ⟨before w within, reaped.stamp w within⟩ }
  | change u c => exact outcome (Same.setConn r.heap u c allowed.1 allowed.2)

/-- Every run, its release times in order and none before the stamps it starts with. -/
theorem after {calls : List Call} : ∀ {r : History} {nodes : Nat → List Nat}, Kept r nodes →
    Legal r calls → (calls.filterMap Call.releasedAt).Pairwise (· ≤ ·) →
    (∀ now ∈ calls.filterMap Call.releasedAt, ∀ w, r.heap.isPooled w →
      r.heap.stampOf w ≤ now) →
    (∃ nodes', Kept (r.after calls) nodes') ∧ (r.after calls).heap.venues = r.heap.venues ∧
      (r.after calls).heap.pool.cap = r.heap.pool.cap := by
  induction calls with
  | nil => exact fun {r nodes} kept _ _ _ => ⟨⟨nodes, kept⟩, rfl, rfl⟩
  | cons c calls inductionHypothesis =>
      intro r nodes kept legal times late
      obtain ⟨allowed, rest⟩ := legal
      have now : ∀ t, c.releasedAt = some t →
          t ∈ (c :: calls).filterMap Call.releasedAt := by
        intro t released
        exact List.mem_filterMap.mpr ⟨c, List.mem_cons_self, released⟩
      have stepped := kept.step c allowed fun t released => late t (now t released)
      obtain ⟨nodes', kept'⟩ := stepped.kept
      have later : ∀ t ∈ calls.filterMap Call.releasedAt,
          t ∈ (c :: calls).filterMap Call.releasedAt := by
        intro t held
        obtain ⟨d, inside, released⟩ := List.mem_filterMap.mp held
        exact List.mem_filterMap.mpr ⟨d, List.mem_cons_of_mem c inside, released⟩
      have sorted : (calls.filterMap Call.releasedAt).Pairwise (· ≤ ·) ∧
          ∀ t, c.releasedAt = some t →
            ∀ t' ∈ calls.filterMap Call.releasedAt, t ≤ t' := by
        cases released : c.releasedAt with
        | none =>
            rw [List.filterMap_cons_none released] at times
            exact ⟨times, fun t none => absurd none (by simp)⟩
        | some t =>
            rw [List.filterMap_cons_some released] at times
            obtain ⟨first, tail⟩ := List.pairwise_cons.mp times
            exact ⟨tail, fun t' same => Option.some.inj same ▸ first⟩
      obtain ⟨final, venues, cap⟩ := inductionHypothesis kept' rest sorted.1 (by
        intro t held w within
        rcases stepped.stamp w within with ⟨before, same⟩ | released
        · rw [same]
          exact late t (later t held) w before
        · exact sorted.2 _ released t held)
      exact ⟨final, venues.trans stepped.venues, cap.trans stepped.cap⟩

end Kept

/-- Before `init`: no connection is pooled. -/
def Fresh (h : PoolHeap) : Prop :=
  h.pool = {} ∧ ∀ u, ¬ h.isPooled u

/-- The lists that `init` makes are empty. -/
theorem Fresh.kept {h : PoolHeap} (fresh : h.Fresh) (venues cap : Nat) :
    Kept { heap := h.init venues cap } (fun _ => []) := by
  obtain ⟨empty, out⟩ := fresh
  have outside : ∀ u, ¬ (h.init venues cap).isPooled u := out
  refine ⟨⟨?_, ?_, ?_, ?_, ?_⟩, ?_, ?_, ?_⟩
  · intro v inside
    have ends : (h.init venues cap).listOf v = {} := by
      change (List.replicate venues ({} : Intrusive.Ends Nat)).getD v {} = {}
      change v < (List.replicate venues ({} : Intrusive.Ends Nat)).length at inside
      rw [List.length_replicate] at inside
      rw [List.getD_replicate _ inside]
    rw [ends]
    exact Intrusive.Listed.nil _
  · exact fun v _ => List.nodup_nil
  · exact fun v _ u held => absurd held List.not_mem_nil
  · exact fun u pooled => absurd pooled (outside u)
  · change h.pool.count = _
    rw [empty]
    simp
  · exact fun u pooled => absurd pooled (outside u)
  · exact fun v _ => List.Pairwise.nil
  · exact fun v _ => List.Pairwise.nil

/-- After every run, each list links the pooled connections of its venue, newest first; a
release that pools stays within the cap; what is acquired was released last among those
still pooled; and reaping closes the expired connections, each once. -/
theorem lists_well_formed (h : PoolHeap) (fresh : h.Fresh) (venues cap : Nat)
    (calls : List Call) (legal : Legal { heap := h.init venues cap } calls)
    (times : (calls.filterMap Call.releasedAt).Pairwise (· ≤ ·)) :
    let r := History.after { heap := h.init venues cap } calls
    (∃ nodes : Nat → List Nat,
      (∀ v < venues, Intrusive.Listed r.heap.links (r.heap.listOf v) (nodes v) ∧
        (nodes v).Nodup ∧ (∀ u ∈ nodes v, r.heap.venueOf u = v) ∧
        (nodes v).Pairwise fun newer older => r.last older < r.last newer) ∧
      (∀ u, r.heap.isPooled u ↔ ∃ v < venues, r.heap.venueOf u = v ∧ u ∈ nodes v) ∧
      r.heap.pool.count = ∑ v ∈ Finset.range venues, (nodes v).length) ∧
    (∀ u keepAlive bodyEnded requestSent now,
      (r.heap.release u keepAlive bodyEnded requestSent now).1 = .none →
      (r.heap.release u keepAlive bodyEnded requestSent now).2.pool.count ≤ cap) ∧
    (∀ venue,
      ((r.heap.acquire venue).1 = none ↔
        ∀ w, r.heap.isPooled w → r.heap.venueOf w ≠ venue) ∧
      ∀ u, (r.heap.acquire venue).1 = some u →
        r.heap.isPooled u ∧ r.heap.venueOf u = venue ∧
        ∀ w, r.heap.isPooled w → r.heap.venueOf w = venue → w ≠ u → r.last w < r.last u) ∧
    ∀ cutoff,
      (r.heap.reap cutoff).1.Nodup ∧
      (∀ u, u ∈ (r.heap.reap cutoff).1 ↔ r.heap.isPooled u ∧ r.heap.stampOf u < cutoff) ∧
      ∀ u, (r.heap.reap cutoff).2.isPooled u ↔
        r.heap.isPooled u ∧ cutoff ≤ r.heap.stampOf u := by
  intro r
  obtain ⟨⟨nodes, kept⟩, count, limit⟩ := (fresh.kept venues cap).after legal times
    (fun _ _ u pooled => absurd pooled (fresh.2 u))
  change Kept r nodes at kept
  have number : r.heap.venues = venues := count.trans List.length_replicate
  have bound : r.heap.pool.cap = cap := limit
  have shelved := kept.shelved
  refine ⟨⟨nodes, ?_, ?_, ?_⟩, ?_, ?_, ?_⟩
  · intro v inside
    rw [← number] at inside
    exact ⟨shelved.listed v inside, shelved.distinct v inside,
      fun u held => (shelved.held v inside u held).2, kept.ordered v inside⟩
  · intro u
    rw [← number]
    constructor
    · exact shelved.shelf u
    · rintro ⟨v, inside, -, held⟩
      exact (shelved.held v inside u held).1
  · rw [← number]
    exact shelved.counted
  · intro u keepAlive bodyEnded requestSent now pools
    rcases release_cases r.heap u keepAlive bodyEnded requestSent now with
      ⟨refuses, -⟩ | ⟨result, -, below, -⟩
    · exact absurd pools refuses
    · rw [result, ← bound]
      change (r.heap.unpair u).pool.count + 1 ≤ _
      have same : (r.heap.unpair u).pool.cap = r.heap.pool.cap := rfl
      omega
  · intro venue
    rcases kept.acquired venue with ⟨nothing, -, other⟩ | ⟨u, v, found, -, rfl, inside, rest, list⟩
    · rw [nothing]
      exact ⟨⟨fun _ => other, fun _ => rfl⟩, fun u some => absurd some (by simp)⟩
    · have there : u ∈ nodes v := list ▸ List.mem_cons_self
      obtain ⟨pooled, of⟩ := shelved.held v inside u there
      rw [found]
      refine ⟨⟨fun none => absurd none (by simp), fun empty => absurd of (empty u pooled)⟩, ?_⟩
      intro u' same
      obtain rfl : u = u' := Option.some.inj same
      refine ⟨pooled, of, ?_⟩
      intro w within of' other
      obtain ⟨v', _, of'', held⟩ := shelved.shelf w within
      obtain rfl : v' = v := Int.ofNat_inj.mp (of''.symm.trans of')
      have order := kept.ordered v' inside
      rw [list] at order held
      exact (List.pairwise_cons.mp order).1 w ((List.mem_cons.mp held).resolve_left other)
  · intro cutoff
    obtain ⟨_, _, _, reaped⟩ := reap_reaped cutoff shelved kept.stamped
    have expired : ∀ u, u ∈ (r.heap.reap cutoff).1 ↔
        r.heap.isPooled u ∧ r.heap.stampOf u < cutoff := by
      intro u
      rw [reaped.expired, true_and]
    refine ⟨reaped.once, expired, ?_⟩
    intro u
    rw [reaped.pooled, expired]
    constructor
    · rintro ⟨pooled, recent⟩
      exact ⟨pooled, Int.not_lt.mp fun old => recent ⟨pooled, old⟩⟩
    · rintro ⟨pooled, recent⟩
      exact ⟨pooled, fun old => absurd old.2 (Int.not_lt.mpr recent)⟩

/-- Open connections, all to the first venue. -/
def idleHeap : PoolHeap :=
  { conn := fun _ => { links := { venue := 0 }, fdOpen := true } }

/-- Of two connections released one after the other, the second is acquired. -/
theorem lists_well_formed_two :
    ((History.after { heap := idleHeap.init 1 2 }
        [.release 1 true true true 10, .release 2 true true true 20]).heap.acquire 0).1 =
      some 2 ∧
    ((History.after { heap := idleHeap.init 1 2 }
        [.release 1 true true true 10, .release 2 true true true 20]).heap.reap 15).1.Nodup :=
  ⟨by decide,
    ((lists_well_formed idleHeap ⟨rfl, fun _ => Bool.false_ne_true⟩ 1 2
      [.release 1 true true true 10, .release 2 true true true 20]
      ⟨trivial, trivial, trivial⟩ (by decide)).2.2.2 15).1⟩

end PoolHeap
end Gateway
end Llmbridge
