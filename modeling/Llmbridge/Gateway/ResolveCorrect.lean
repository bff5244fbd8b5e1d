import Llmbridge.Gateway.Resolve

/-!
# The resolver hand-off

A lookup is in one place at a time: queued, running, done, or in the batch being
applied.  A venue has at most one, and its flag says whether it has.
-/

namespace Llmbridge
namespace Resolve

open Transition
open Relation (ReflTransGen)

variable {n : Nat}

/-! ## Places -/

/-- A lookup: its venue and its number. -/
def Job.key (j : Job n) : Fin n × Nat :=
  (j.slot, j.ask)

/-- The lookup an answer is of. -/
def Done.key (d : Done n) : Fin n × Nat :=
  (d.slot, d.ask)

namespace Engine

/-- The batch's entries that are not applied yet. -/
def remaining (s : Engine n) : List (Done n) :=
  match s.loop with
  | .applying _ k => s.batch.items.drop k
  | _ => []

/-- The lookups pending, running, done and in the batch being applied. -/
def lookups (s : Engine n) : Multiset (Fin n × Nat) :=
  ↑(s.pending.map Job.key) + ↑(s.running.toList.map Job.key) +
    ↑(s.done.items.map Done.key) + ↑(s.remaining.map Done.key)

/-- The answers found and not applied yet. -/
def answers (s : Engine n) : Multiset (Done n) :=
  ↑s.done.items + ↑s.remaining

/-- The venue has had an answer with an address. -/
def Addressed (s : Engine n) (i : Fin n) : Prop :=
  ∃ d ∈ s.applied, d.slot = i ∧ d.ips ≠ []

/-- What holds between any two steps. -/
structure Inv (s : Engine n) : Prop where
  flag : ∀ i, (s.inflight i = true ∨ s.loop = .queued i) ↔ i ∈ s.lookups.map Prod.fst
  unmarked : ∀ i, s.loop = .queued i → s.inflight i = false
  once : (s.lookups.map Prod.fst).Nodup
  numbers : (s.lookups.map Prod.snd + ↑(s.applied.map Done.ask)).Nodup
  asked : ∀ m ∈ s.lookups.map Prod.snd + ↑(s.applied.map Done.ask), m < s.asks
  finished : (↑s.finished : Multiset (Done n)) = s.answers + ↑s.applied
  ready : s.done.items ≠ [] → s.ready = true
  empty : (∀ now k, s.loop ≠ .applying now k) → s.batch.items = []
  capacity : s.done.capacity = n ∧ s.batch.capacity = n
  address : ∀ i, s.Addressed i → (s.upstreams i).ip ∈ (s.upstreams i).ips

/-! ## Addresses -/

/-- Rotating keeps the address among the known ones. -/
theorem rotate_mem {up : Upstream} (held : up.ip ∈ up.ips) : up.rotate.ip ∈ up.rotate.ips := by
  unfold Upstream.rotate
  split
  · next many =>
      dsimp only
      rw [Upstream.readdress_ip, Upstream.readdress_ips, List.getD_eq_getElem?_getD]
      have inside : ((if up.ips.idxOf up.ip = up.ips.length then 0 else up.ips.idxOf up.ip) + 1) %
          up.ips.length < up.ips.length := Nat.mod_lt _ (by omega)
      rw [List.getElem?_eq_getElem inside]
      exact List.getElem_mem inside
  · exact held

/-- An answer's address is among those it brought. -/
theorem answer_mem {up : Upstream} {ips : List String} (some : ips ≠ []) :
    (up.answer ips).ip ∈ (up.answer ips).ips := by
  unfold Upstream.answer
  dsimp only
  split
  · assumption
  · rw [Upstream.readdress_ip, Upstream.readdress_ips]
    dsimp only
    cases ips with
    | nil => exact absurd rfl some
    | cons first rest => exact List.mem_cons_self

/-! ## Steps -/

/-- The invariant holds at the start. -/
theorem inv_start {s : Engine n} (starts : s.Starts) : s.Inv := by
  obtain ⟨upstreams, rfl⟩ := starts
  constructor
  · intro i
    simp [lookups, remaining]
  · intro i queued
    cases queued
  · simp [lookups, remaining]
  · simp [lookups, remaining]
  · simp [lookups, remaining]
  · simp [answers, remaining]
  · simp
  · simp
  · simp
  · simp [Addressed]

/-- Nothing remains where no batch is applied. -/
theorem remaining_of_not_applying {s : Engine n} (loop : ∀ now k, s.loop ≠ .applying now k) :
    s.remaining = [] := by
  unfold remaining
  split
  · next now k applying => exact absurd applying (loop now k)
  · rfl

/-- What remains of the batch that is applied. -/
theorem remaining_applying {s : Engine n} {now : Int} {k : Nat}
    (loop : s.loop = .applying now k) : s.remaining = s.batch.items.drop k := by
  unfold remaining
  rw [loop]

/-- A step that only moves lookups from place to place. -/
theorem Inv.moved
    {s t : Engine n} (inv : s.Inv) (lookups : t.lookups = s.lookups)
    (inflight : t.inflight = s.inflight)
    (queued : ∀ i, t.loop = .queued i ↔ s.loop = .queued i) (applied : t.applied = s.applied)
    (asks : t.asks = s.asks)
    (finished : (↑t.finished : Multiset (Done n)) = t.answers + ↑t.applied)
    (ready : t.done.items ≠ [] → t.ready = true)
    (empty : (∀ now k, t.loop ≠ .applying now k) → t.batch.items = [])
    (capacity : t.done.capacity = n ∧ t.batch.capacity = n)
    (address : ∀ i, (s.upstreams i).ip ∈ (s.upstreams i).ips →
      (t.upstreams i).ip ∈ (t.upstreams i).ips) : t.Inv where
  flag := by
    intro i
    rw [inflight, queued, lookups]
    exact inv.flag i
  unmarked := by
    intro i is
    rw [inflight]
    exact inv.unmarked i ((queued i).mp is)
  once := lookups ▸ inv.once
  numbers := by
    rw [lookups, applied]
    exact inv.numbers
  asked := by
    rw [lookups, applied, asks]
    exact inv.asked
  finished := finished
  ready := ready
  empty := empty
  capacity := capacity
  address := by
    intro i addressed
    unfold Addressed at addressed
    rw [applied] at addressed
    exact address i (inv.address i addressed)

/-- An idle loop applies no batch. -/
theorem not_applying_of_idle {s : Engine n} (idle : s.loop = .idle) :
    ∀ now k, s.loop ≠ .applying now k := by
  intro now k applying
  rw [idle] at applying
  cases applying

/-- A request that was not queued keeps the invariant. -/
theorem Inv.unqueued {s : Engine n} (inv : s.Inv) (i : Fin n) (now : Int) :
    (s.requestUnqueued i now).Inv :=
  inv.moved rfl rfl (fun _ => Iff.rfl) rfl rfl inv.finished inv.ready inv.empty inv.capacity
    fun _ held => held

/-- So does a look at the ready flag. -/
theorem Inv.check {s : Engine n} (inv : s.Inv) (idle : s.loop = .idle) : s.checkReady.Inv := by
  unfold checkReady
  split
  · have before := remaining_of_not_applying (not_applying_of_idle idle)
    have after : remaining { s with loop := .ready } = [] := rfl
    have batch := inv.empty (not_applying_of_idle idle)
    refine inv.moved ?_ rfl ?_ rfl rfl ?_ inv.ready (fun _ => batch) inv.capacity
      fun _ held => held
    · unfold lookups
      rw [before, after]
    · intro i
      rw [idle]
      exact ⟨fun is => (by cases is), fun is => (by cases is)⟩
    · rw [inv.finished]
      unfold answers
      rw [before, after]
  · exact inv

/-- So does taking what was found. -/
theorem Inv.swap {s : Engine n} (inv : s.Inv) (now : Int) (loop : s.loop = .ready) :
    (s.swapDone now).Inv := by
  have outside : ∀ now k, s.loop ≠ .applying now k := by
    intro now k applying
    rw [loop] at applying
    cases applying
  have before := remaining_of_not_applying outside
  have after : (s.swapDone now).remaining = s.done.items := rfl
  have batch := inv.empty outside
  have done : (s.swapDone now).done.items = [] := batch
  refine inv.moved ?_ rfl ?_ rfl rfl ?_ ?_ ?_ inv.capacity.symm fun _ held => held
  · unfold lookups
    rw [before, after, done]
    simp only [List.map_nil, Multiset.coe_nil, add_zero]
    rfl
  · intro i
    rw [loop]
    exact ⟨fun is => (by cases is), fun is => (by cases is)⟩
  · refine inv.finished.trans ?_
    unfold answers
    rw [before, after, done]
    simp only [Multiset.coe_nil, add_zero, zero_add]
    rfl
  · exact fun some => absurd done some
  · exact fun never => absurd rfl (never now 0)

/-- So does the end of a batch. -/
theorem Inv.clear {s : Engine n} (inv : s.Inv) {now : Int} {k : Nat}
    (loop : s.loop = .applying now k) (ends : s.batch.items.length ≤ k) : s.clearBatch.Inv := by
  have before : s.remaining = [] := by
    rw [remaining_applying loop]
    exact List.drop_eq_nil_of_le ends
  have after : s.clearBatch.remaining = [] := rfl
  refine inv.moved ?_ rfl ?_ rfl rfl ?_ inv.ready (fun _ => rfl) inv.capacity fun _ held => held
  · unfold lookups
    rw [before, after]
    rfl
  · intro i
    rw [loop]
    exact ⟨fun is => (by cases is), fun is => (by cases is)⟩
  · refine inv.finished.trans ?_
    unfold answers
    rw [before, after]
    rfl

/-- So does the thread taking a job. -/
theorem Inv.take {s : Engine n} (inv : s.Inv) {job : Job n} {rest : List (Job n)}
    (free : s.running = none) (waits : s.pending = job :: rest) : (s.takeJob job rest).Inv := by
  refine inv.moved ?_ rfl (fun _ => Iff.rfl) rfl rfl inv.finished inv.ready inv.empty
    inv.capacity fun _ held => held
  unfold lookups
  have same : (s.takeJob job rest).remaining = s.remaining := rfl
  rw [same, free, waits]
  simp only [takeJob, Option.toList_none, Option.toList_some, List.map_cons, List.map_nil,
    Multiset.coe_nil, add_zero, Multiset.coe_singleton]
  rw [← Multiset.cons_coe, add_comm (↑(rest.map Job.key) : Multiset (Fin n × Nat)),
    Multiset.singleton_add]

/-- What was found is no more than the lookups of the venues. -/
theorem lookups_length (s : Engine n) :
    s.done.items.length ≤ (s.lookups.map Prod.fst).card := by
  unfold lookups
  simp only [Multiset.card_map, Multiset.card_add, Multiset.coe_card, List.length_map]
  omega

/-- The answers waiting are of different venues. -/
theorem Inv.done_le {s : Engine n} (inv : s.Inv) (more : Nat)
    (counted : s.done.items.length + more ≤ (s.lookups.map Prod.fst).card) :
    s.done.items.length + more ≤ n := by
  have most := (Multiset.toFinset_card_of_nodup inv.once).symm.trans_le (Finset.card_le_univ _)
  rw [Fintype.card_fin] at most
  omega

/-- So does the thread finishing its job. -/
theorem Inv.finish {s : Engine n} (inv : s.Inv) {job : Job n} (ips : List String) (err : String)
    (runs : s.running = some job) : (s.finishJob job ips err).Inv := by
  have same : (s.finishJob job ips err).remaining = s.remaining := rfl
  have fits : s.done.items.length + 1 ≤ n := by
    apply inv.done_le
    unfold lookups
    rw [runs]
    simp only [Multiset.card_map, Multiset.card_add, Multiset.coe_card, List.length_map,
      Option.toList_some, List.length_singleton]
    omega
  refine inv.moved ?_ rfl (fun _ => Iff.rfl) rfl rfl ?_ (fun _ => rfl) inv.empty ?_
    fun _ held => held
  · unfold lookups
    rw [same, runs]
    simp only [finishJob, Vec.push, Option.toList_none, Option.toList_some, List.map_append,
      List.map_cons, List.map_nil, Multiset.coe_nil, add_zero, ← Multiset.coe_add]
    have key : Done.key ⟨job.slot, ips, err, job.ask⟩ = Job.key job := rfl
    rw [key]
    abel
  · unfold answers
    rw [same]
    simp only [finishJob, Vec.push, ← Multiset.coe_add]
    rw [inv.finished]
    unfold answers
    simp only [add_assoc, add_comm, add_left_comm]
  · have capacity := inv.capacity
    refine ⟨?_, capacity.2⟩
    simp only [finishJob, Vec.push]
    omega

/-! ## Asking -/

/-- The request of a slot that has none: its lookup is queued. -/
theorem Inv.queue {s : Engine n} (inv : s.Inv) (idle : s.loop = .idle) {i : Fin n}
    (fresh : s.inflight i = false) (host : String) :
    Inv { s with
      thread := true
      pending := s.pending ++ [⟨i, host, s.asks⟩]
      asks := s.asks + 1
      loop := .queued i } := by
  have before := remaining_of_not_applying (not_applying_of_idle idle)
  generalize next : ({ s with
    thread := true
    pending := s.pending ++ [⟨i, host, s.asks⟩]
    asks := s.asks + 1
    loop := .queued i } : Engine n) = t
  have loop : t.loop = .queued i := by rw [← next]
  have after : t.remaining = [] := by rw [← next]; rfl
  have grown : t.lookups = (i, s.asks) ::ₘ s.lookups := by
    unfold lookups
    rw [before, after, ← next, ← Multiset.singleton_add]
    simp only [List.map_append, List.map_cons, List.map_nil, ← Multiset.coe_add,
      Multiset.coe_nil, add_zero, Multiset.coe_singleton]
    have key : Job.key (⟨i, host, s.asks⟩ : Job n) = (i, s.asks) := rfl
    rw [key]
    abel
  have absent : i ∉ s.lookups.map Prod.fst := by
    rw [← inv.flag i, fresh, idle]
    rintro (marked | queued)
    · cases marked
    · cases queued
  have number : ∀ m ∈ s.lookups.map Prod.snd + ↑(s.applied.map Done.ask), m ≠ s.asks :=
    fun m member => Nat.ne_of_lt (inv.asked m member)
  have inflight : t.inflight = s.inflight := by rw [← next]
  have applied : t.applied = s.applied := by rw [← next]
  have asks : t.asks = s.asks + 1 := by rw [← next]
  constructor
  · intro j
    rw [inflight, loop, grown, Multiset.map_cons, Multiset.mem_cons, ← inv.flag j, idle]
    constructor
    · rintro (marked | queued)
      · exact Or.inr (Or.inl marked)
      · cases queued
        exact Or.inl rfl
    · rintro (rfl | marked | queued)
      · exact Or.inr rfl
      · exact Or.inl marked
      · cases queued
  · intro j queued
    rw [loop] at queued
    cases queued
    rw [inflight]
    exact fresh
  · rw [grown, Multiset.map_cons, Multiset.nodup_cons]
    exact ⟨absent, inv.once⟩
  · rw [grown, applied, Multiset.map_cons, Multiset.cons_add, Multiset.nodup_cons]
    exact ⟨fun member => number _ member rfl, inv.numbers⟩
  · intro m member
    rw [grown, applied, Multiset.map_cons, Multiset.cons_add, Multiset.mem_cons] at member
    rw [asks]
    rcases member with rfl | member
    · exact Nat.lt_succ_self _
    · exact Nat.lt_succ_of_lt (inv.asked m member)
  · have answers : t.answers = s.answers := by
      unfold answers
      rw [before, after, ← next]
    rw [answers, applied, ← inv.finished, ← next]
  · rw [← next]
    exact inv.ready
  · intro _
    rw [← next]
    exact inv.empty (not_applying_of_idle idle)
  · rw [← next]
    exact inv.capacity
  · rw [← next]
    exact inv.address

/-- So does the loop asking for a lookup. -/
theorem Inv.request {s : Engine n} (inv : s.Inv) (idle : s.loop = .idle) (slot now : Int) :
    (s.requestReresolve slot now).Inv := by
  unfold requestReresolve
  split
  · next inRange =>
      dsimp only
      split
      · exact inv
      · next asks =>
          split
          · exact inv
          · exact inv.queue idle (Bool.eq_false_of_not_eq_true (not_or.mp asks).1) _
  · exact inv

/-- So does the next address of a venue. -/
theorem Inv.rotated {s : Engine n} (inv : s.Inv) (i : Fin n) :
    Inv { s with upstreams := Function.update s.upstreams i (s.upstreams i).rotate } := by
  refine inv.moved rfl rfl (fun _ => Iff.rfl) rfl rfl inv.finished inv.ready inv.empty
    inv.capacity ?_
  intro j held
  dsimp only
  by_cases same : j = i
  · subst same
    rw [Function.update_self]
    exact rotate_mem held
  · rw [Function.update_of_ne same]
    exact held

/-- So does a connection that failed. -/
theorem Inv.connectFailed {s : Engine n} (inv : s.Inv) (idle : s.loop = .idle)
    (slot now : Int) : (s.noteConnectFailure slot now).Inv := by
  unfold noteConnectFailure
  split
  · exact (inv.rotated _).request idle slot now
  · exact inv

/-- So does the mark of a venue whose job was queued. -/
theorem Inv.mark {s : Engine n} (inv : s.Inv) {i : Fin n} (queued : s.loop = .queued i) :
    (s.markInflight i).Inv := by
  have outside : ∀ now k, s.loop ≠ .applying now k := by
    intro now k applying
    rw [queued] at applying
    cases applying
  have before := remaining_of_not_applying outside
  have after : (s.markInflight i).remaining = [] := rfl
  have same : (s.markInflight i).lookups = s.lookups := by
    unfold lookups
    rw [before, after]
    rfl
  constructor
  · intro j
    rw [same, ← inv.flag j, queued]
    unfold markInflight
    dsimp only
    by_cases own : j = i
    · subst own
      rw [Function.update_self]
      exact ⟨fun _ => Or.inr rfl, fun _ => Or.inl rfl⟩
    · rw [Function.update_of_ne own]
      constructor
      · rintro (marked | idle)
        · exact Or.inl marked
        · cases idle
      · rintro (marked | other)
        · exact Or.inl marked
        · cases other
          exact absurd rfl own
  · intro j other
    cases other
  · exact same ▸ inv.once
  · rw [same]
    exact inv.numbers
  · rw [same]
    exact inv.asked
  · have answers : (s.markInflight i).answers = s.answers := by
      unfold answers
      rw [before, after]
      rfl
    rw [answers]
    exact inv.finished
  · exact inv.ready
  · exact fun _ => inv.empty outside
  · exact inv.capacity
  · exact inv.address

/-! ## Applying -/

/-- The result that is applied next is the first that remains. -/
theorem remaining_cons {s : Engine n} {now : Int} {k : Nat} {d : Done n}
    (loop : s.loop = .applying now k) (entry : s.batch.items[k]? = some d) :
    s.remaining = d :: s.batch.items.drop (k + 1) := by
  rw [remaining_applying loop]
  obtain ⟨inside, same⟩ := List.getElem?_eq_some_iff.mp entry
  rw [List.drop_eq_getElem_cons inside, same]

/-- What applying an answer leaves as it was. -/
structure Applies (s t : Engine n) (now : Int) (k : Nat) (d : Done n) : Prop where
  inflight : t.inflight = Function.update s.inflight d.slot false
  loop : t.loop = .applying now (k + 1)
  applied : t.applied = s.applied ++ [d]
  batch : t.batch = s.batch
  pending : t.pending = s.pending
  running : t.running = s.running
  done : t.done = s.done
  ready : t.ready = s.ready
  asks : t.asks = s.asks
  finished : t.finished = s.finished
  others : ∀ i, i ≠ d.slot → t.upstreams i = s.upstreams i
  kept : d.ips = [] → t.upstreams = s.upstreams
  moved : d.ips ≠ [] → t.upstreams d.slot = (s.upstreams d.slot).answer d.ips

/-- Applying a result is one step of the batch. -/
theorem applyDone_applies (s : Engine n) (now : Int) (k : Nat) (d : Done n) :
    Applies s (s.applyDone now k d) now k d := by
  unfold applyDone
  dsimp only
  split
  · next none => exact ⟨rfl, rfl, rfl, rfl, rfl, rfl, rfl, rfl, rfl, rfl, fun _ _ => rfl,
      fun _ => rfl, fun some => absurd none some⟩
  · next some => exact ⟨rfl, rfl, rfl, rfl, rfl, rfl, rfl, rfl, rfl, rfl,
      fun i other => Function.update_of_ne other _ _, fun none => absurd none some,
      fun _ => Function.update_self _ _ _⟩

/-- So does applying a result. -/
theorem Inv.apply {s : Engine n} (inv : s.Inv) {now : Int} {k : Nat} {d : Done n}
    (loop : s.loop = .applying now k) (entry : s.batch.items[k]? = some d) :
    (s.applyDone now k d).Inv := by
  have applies := applyDone_applies s now k d
  generalize s.applyDone now k d = t at applies
  have before := remaining_cons loop entry
  have after : t.remaining = s.batch.items.drop (k + 1) := by
    rw [remaining_applying applies.loop, applies.batch]
  have shrunk : s.lookups = d.key ::ₘ t.lookups := by
    unfold lookups
    rw [before, after, applies.pending, applies.running, applies.done, List.map_cons,
      ← Multiset.cons_coe, Multiset.add_cons]
  have once := inv.once
  rw [shrunk, Multiset.map_cons, Multiset.nodup_cons] at once
  have numbers : s.lookups.map Prod.snd + ↑(s.applied.map Done.ask) =
      t.lookups.map Prod.snd + ↑(t.applied.map Done.ask) := by
    rw [shrunk, applies.applied, Multiset.map_cons, List.map_append, List.map_singleton,
      ← Multiset.coe_add, Multiset.coe_singleton, ← Multiset.singleton_add]
    have key : d.key.2 = d.ask := rfl
    rw [key]
    abel
  constructor
  · intro i
    have flag := inv.flag i
    rw [shrunk, Multiset.map_cons, Multiset.mem_cons, loop] at flag
    rw [applies.inflight, applies.loop]
    by_cases own : i = d.slot
    · subst own
      rw [Function.update_self]
      constructor
      · rintro (marked | queued)
        · cases marked
        · cases queued
      · exact fun member => absurd member once.1
    · rw [Function.update_of_ne own]
      constructor
      · rintro (marked | queued)
        · rcases flag.mp (Or.inl marked) with same | member
          · exact absurd same own
          · exact member
        · cases queued
      · intro member
        rcases flag.mpr (Or.inr member) with marked | queued
        · exact Or.inl marked
        · cases queued
  · intro i queued
    rw [applies.loop] at queued
    cases queued
  · exact once.2
  · exact numbers ▸ inv.numbers
  · rw [applies.asks, ← numbers]
    exact inv.asked
  · have answers : s.answers = d ::ₘ t.answers := by
      unfold answers
      rw [before, after, applies.done, ← Multiset.cons_coe, Multiset.add_cons]
    rw [applies.finished, inv.finished, answers, applies.applied, ← Multiset.coe_add,
      Multiset.coe_singleton, ← Multiset.singleton_add]
    abel
  · rw [applies.done, applies.ready]
    exact inv.ready
  · exact fun outside => absurd applies.loop (outside now (k + 1))
  · rw [applies.done, applies.batch]
    exact inv.capacity
  · intro i addressed
    by_cases own : i = d.slot
    · subst own
      by_cases none : d.ips = []
      · rw [applies.kept none]
        apply inv.address
        obtain ⟨d', member, slot, some⟩ := addressed
        rw [applies.applied, List.mem_append, List.mem_singleton] at member
        rcases member with earlier | rfl
        · exact ⟨d', earlier, slot, some⟩
        · exact absurd none some
      · rw [applies.moved none]
        exact answer_mem none
    · rw [applies.others i own]
      apply inv.address
      obtain ⟨d', member, slot, some⟩ := addressed
      rw [applies.applied, List.mem_append, List.mem_singleton] at member
      rcases member with earlier | rfl
      · exact ⟨d', earlier, slot, some⟩
      · exact absurd slot.symm own

/-- Every step of the loop or the thread keeps the invariant. -/
theorem Inv.step {s t : Engine n} (inv : s.Inv) (step : Step s t) : t.Inv := by
  cases step with
  | request slot now idle => exact inv.request idle slot now
  | unqueued i now idle => exact inv.unqueued i now
  | mark i queued => exact inv.mark queued
  | connectFailed slot now idle => exact inv.connectFailed idle slot now
  | check idle => exact inv.check idle
  | swap now ready => exact inv.swap now ready
  | apply now k d applying entry => exact inv.apply applying entry
  | clear now k applying ends => exact inv.clear applying ends
  | take job rest started free waits => exact inv.take free waits
  | finish job ips err runs => exact inv.finish ips err runs

/-! ## Every interleaving -/

/-- What holds of every state that is reached. -/
structure Kept (s : Engine n) : Prop where
  /-- A venue has at most one lookup. -/
  once : (s.lookups.map Prod.fst).Nodup
  /-- The flag of a venue says whether it has one, once its request returned. -/
  flag : (∀ i, s.loop ≠ .queued i) → ∀ i, s.inflight i = true ↔ i ∈ s.lookups.map Prod.fst
  ready : s.done.items ≠ [] → s.ready = true
  capacity : s.done.capacity = n ∧ s.done.items.length ≤ s.done.capacity
  /-- What is applied was found, and is applied once. -/
  applied : s.applied.Nodup ∧ ∀ d ∈ s.applied, d ∈ s.finished
  address : ∀ i, s.Addressed i → (s.upstreams i).ip ∈ (s.upstreams i).ips

/-- No result is applied twice. -/
theorem Inv.applied_nodup {s : Engine n} (inv : s.Inv) : s.applied.Nodup := by
  have numbers := (Multiset.nodup_add.mp inv.numbers).2.1
  exact List.Nodup.of_map _ (Multiset.coe_nodup.mp numbers)

/-- What the invariant says of a state. -/
theorem Inv.kept {s : Engine n} (inv : s.Inv) : s.Kept where
  once := inv.once
  flag := by
    intro returned i
    rw [← inv.flag i]
    exact ⟨fun marked => Or.inl marked, fun either => either.resolve_right (returned i)⟩
  ready := inv.ready
  capacity := by
    refine ⟨inv.capacity.1, ?_⟩
    rw [inv.capacity.1]
    exact inv.done_le 0 (lookups_length s)
  applied := by
    refine ⟨inv.applied_nodup, ?_⟩
    intro d member
    have found : d ∈ (↑s.finished : Multiset (Done n)) := by
      rw [inv.finished]
      exact Multiset.mem_add.mpr (Or.inr (Multiset.mem_coe.mpr member))
    exact Multiset.mem_coe.mp found
  address := inv.address

/-- The answers of `found` are applied, or the running `apply_reresolved` has them
before it. -/
def Due (found : List (Done n)) (s : Engine n) : Prop :=
  ∀ d ∈ found, d ∈ s.applied ∨ (s.loop = .ready ∧ d ∈ s.done.items) ∨ d ∈ s.remaining

/-- Behind a whole batch all that was found is applied. -/
theorem Due.of_idle {found : List (Done n)} {s : Engine n} (due : s.Due found)
    (idle : s.loop = .idle) : ∀ d ∈ found, d ∈ s.applied := by
  intro d member
  have none := remaining_of_not_applying (not_applying_of_idle idle)
  rcases due d member with applied | ⟨ready, -⟩ | rest
  · exact applied
  · rw [idle] at ready
    cases ready
  · rw [none] at rest
    cases rest

/-- What is applied is due. -/
theorem due_of_applied {found : List (Done n)} {s : Engine n}
    (applied : ∀ d ∈ found, d ∈ s.applied) : s.Due found :=
  fun d member => Or.inl (applied d member)

/-- Asking for a lookup applies nothing. -/
theorem requestReresolve_applied (s : Engine n) (slot now : Int) :
    (s.requestReresolve slot now).applied = s.applied := by
  unfold requestReresolve
  split
  · dsimp only
    split
    · rfl
    · split <;> rfl
  · rfl

/-- Nor does a connection that failed. -/
theorem noteConnectFailure_applied (s : Engine n) (slot now : Int) :
    (s.noteConnectFailure slot now).applied = s.applied := by
  unfold noteConnectFailure
  split
  · exact requestReresolve_applied _ slot now
  · rfl

/-- What is found before `apply_reresolved` starts is due from then on. -/
theorem due_check {s : Engine n} (inv : s.Inv) (idle : s.loop = .idle) :
    s.checkReady.Due s.finished := by
  have none := remaining_of_not_applying (not_applying_of_idle idle)
  intro d member
  have found : d ∈ (↑s.finished : Multiset (Done n)) := Multiset.mem_coe.mpr member
  rw [inv.finished, Multiset.mem_add] at found
  unfold answers at found
  rw [none, Multiset.coe_nil, add_zero, Multiset.mem_coe, Multiset.mem_coe] at found
  unfold checkReady
  by_cases ready : s.ready = true
  · rw [if_pos ready]
    exact found.elim (fun waits => Or.inr (Or.inl ⟨rfl, waits⟩)) Or.inl
  · rw [if_neg ready]
    left
    apply found.resolve_left
    intro waits
    exact ready (inv.ready (List.ne_nil_of_mem waits))

/-- A step leaves what was found due. -/
theorem Due.step {found : List (Done n)} {s t : Engine n} (due : s.Due found)
    (step : Step s t) : t.Due found := by
  cases step with
  | request slot now idle =>
      apply due_of_applied
      rw [requestReresolve_applied]
      exact due.of_idle idle
  | unqueued i now idle => exact due_of_applied (due.of_idle idle)
  | mark i queued =>
      intro d member
      rcases due d member with applied | ⟨ready, -⟩ | rest
      · exact Or.inl applied
      · rw [queued] at ready
        cases ready
      · rw [remaining_of_not_applying (by rw [queued]; exact fun _ _ is => (by cases is))] at rest
        cases rest
  | connectFailed slot now idle =>
      apply due_of_applied
      rw [noteConnectFailure_applied]
      exact due.of_idle idle
  | check idle =>
      apply due_of_applied
      have applied := due.of_idle idle
      unfold checkReady
      split <;> exact applied
  | swap now ready =>
      intro d member
      rcases due d member with applied | ⟨-, waits⟩ | rest
      · exact Or.inl applied
      · exact Or.inr (Or.inr waits)
      · rw [remaining_of_not_applying (by rw [ready]; exact fun _ _ is => (by cases is))] at rest
        cases rest
  | apply now k d applying entry =>
      have applies := applyDone_applies s now k d
      have before := remaining_cons applying entry
      intro d' member
      rcases due d' member with applied | ⟨ready, -⟩ | rest
      · left
        rw [applies.applied]
        exact List.mem_append_left _ applied
      · rw [applying] at ready
        cases ready
      · rw [before, List.mem_cons] at rest
        rcases rest with rfl | later
        · left
          rw [applies.applied]
          exact List.mem_append_right _ List.mem_cons_self
        · right
          right
          rwa [remaining_applying applies.loop, applies.batch]
  | clear now k applying ends =>
      intro d member
      rcases due d member with applied | ⟨ready, -⟩ | rest
      · exact Or.inl applied
      · rw [applying] at ready
        cases ready
      · rw [remaining_applying applying, List.drop_eq_nil_of_le ends] at rest
        cases rest
  | take job rest started free waits => exact due
  | finish job ips err runs =>
      intro d member
      rcases due d member with applied | ⟨ready, waits⟩ | rest
      · exact Or.inl applied
      · exact Or.inr (Or.inl ⟨ready, List.mem_append_left _ waits⟩)
      · exact Or.inr (Or.inr rest)

/-- The resolver hand-off, under every interleaving: a lookup is in one place, a venue
has at most one, and what is found is applied once. -/
theorem resolver_handoff {n : Nat} {s : Engine n} (reachable : Reachable Starts Step s) :
    s.Kept ∧
      ∀ t, s.loop = .idle → ReflTransGen Step s.checkReady t → t.loop = .idle →
        ∀ d ∈ s.finished, t.applied.count d = 1 := by
  have inv : s.Inv := by
    refine Reachable.invariant ?_ ?_ reachable
    · exact fun _ starts => inv_start starts
    · exact fun _ _ inv step => inv.step step
  refine ⟨inv.kept, ?_⟩
  intro t idle runs returned d member
  have later : t.Inv := kept_of_run (fun _ _ inv => inv.step) runs (inv.check idle)
  have due : t.Due s.finished :=
    kept_of_run (fun _ _ due => due.step) runs (due_check inv idle)
  exact List.count_eq_one_of_mem later.applied_nodup (due.of_idle returned d member)

/-- A venue asked for and answered. -/
theorem resolver_handoff_answered :
    let s : Engine 1 := { upstreams := fun _ => { host := "api", port := 443 } }
    let asked := (s.requestReresolve 0 0).markInflight 0
    let job : Job 1 := ⟨0, "api", 0⟩
    let found := (asked.takeJob job []).finishJob job ["10.0.0.1"] ""
    found.Kept ∧
      ∀ t, found.loop = .idle → ReflTransGen Step found.checkReady t → t.loop = .idle →
        ∀ d ∈ found.finished, t.applied.count d = 1 := by
  intro s asked job found
  apply resolver_handoff
  have first : Step s (s.requestReresolve 0 0) := Step.request 0 0 rfl
  have second : Step (s.requestReresolve 0 0) asked := Step.mark 0 rfl
  have third : Step asked (asked.takeJob job []) := Step.take job [] rfl rfl rfl
  have fourth : Step (asked.takeJob job []) found := Step.finish job ["10.0.0.1"] "" rfl
  exact (Reachable.start ⟨_, rfl⟩).run
    (((ReflTransGen.single first).tail second).tail third |>.tail fourth)

end Engine
end Resolve
end Llmbridge
