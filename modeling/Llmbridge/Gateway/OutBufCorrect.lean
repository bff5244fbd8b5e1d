import Llmbridge.Gateway.Connections

/-!
# Bytes owed to a socket, over a run

`gateway/src/core/outbuf.hpp`: whatever is staged, pinned, sent and cleared, the bytes
that leave are the bytes staged, in the order they were, and a pinned front is never
written.
-/

namespace Llmbridge
namespace Gateway
namespace OutBuf

open Rfc8259 (Byte Bytes)

/-! ## Calls and their runs -/

/-- A call on a buffer. -/
inductive Call
  | append (s : Bytes)
  | pin
  | sent (n : Nat)
  | clear
  deriving DecidableEq, Repr

/-- What a call leaves. -/
def call (b : OutBuf) : Call → OutBuf
  | .append s => b.append s
  | .pin => b.pin
  | .sent n => b.sent n
  | .clear => b.clear

/-- No more is sent than is on the wire, and only an unpinned buffer is cleared. -/
def Allowed (b : OutBuf) : Call → Prop
  | .sent n => n ≤ b.wire.length
  | .clear => b.pinned = false
  | _ => True

/-- Each call of a run may be made where it is. -/
def Legal (b : OutBuf) : List Call → Prop
  | [] => True
  | c :: calls => b.Allowed c ∧ Legal (b.call c) calls

instance allowedDecidable (b : OutBuf) : (c : Call) → Decidable (b.Allowed c)
  | .append _ => isTrue trivial
  | .pin => isTrue trivial
  | .sent n => inferInstanceAs (Decidable (n ≤ b.wire.length))
  | .clear => inferInstanceAs (Decidable (b.pinned = false))

instance legalDecidable : (b : OutBuf) → (calls : List Call) → Decidable (b.Legal calls)
  | _, [] => isTrue trivial
  | b, c :: calls =>
      @instDecidableAnd _ _ (allowedDecidable b c) (legalDecidable (b.call c) calls)

/-- Whether sending `n` more bytes leaves nothing of a front that had some. -/
def drains (b : OutBuf) (n : Nat) : Bool :=
  !b.front.isEmpty && b.off + n = b.front.length

/-- A buffer and what has gone through it since it was last cleared: the bytes appended,
the bytes taken off the wire, whether a send has drained the front, and whether an append
came while it was pinned or after such a send. -/
structure History where
  buf : OutBuf := {}
  appended : Bytes := []
  left : Bytes := []
  drained : Bool := false
  displaced : Bool := false

namespace History

/-- One more call. -/
def step (h : History) (c : Call) : History :=
  match c with
  | .append s =>
      { h with
        buf := h.buf.call c
        appended := h.appended ++ s
        displaced := h.displaced || h.buf.pinned || h.drained }
  | .pin => { h with buf := h.buf.call c }
  | .sent n =>
      { h with
        buf := h.buf.call c
        left := h.left ++ h.buf.wire.take n
        drained := h.drained || h.buf.drains n }
  | .clear => { buf := h.buf.call c }

/-- The history of a run. -/
def after (h : History) (calls : List Call) : History :=
  calls.foldl step h

@[simp] theorem after_nil (h : History) : h.after [] = h := rfl

@[simp] theorem after_cons (h : History) (c : Call) (calls : List Call) :
    h.after (c :: calls) = (h.step c).after calls := rfl

theorem after_append (h : History) (first second : List Call) :
    h.after (first ++ second) = (h.after first).after second := by
  unfold after
  rw [List.foldl_append]

@[simp] theorem step_buf (h : History) (c : Call) : (h.step c).buf = h.buf.call c := by
  cases c <;> rfl

end History

/-- A run's first calls may be made, and then its last ones. -/
theorem Legal.split {first : List Call} : ∀ {h : History} {second : List Call},
    h.buf.Legal (first ++ second) → h.buf.Legal first ∧ (h.after first).buf.Legal second := by
  induction first with
  | nil =>
      intro h second legal
      exact ⟨trivial, legal⟩
  | cons c calls inductionHypothesis =>
      intro h second legal
      obtain ⟨allowed, rest⟩ := legal
      rw [← h.step_buf c] at rest
      obtain ⟨earlier, later⟩ := inductionHypothesis rest
      rw [h.step_buf c] at earlier
      exact ⟨⟨allowed, earlier⟩, later⟩

/-! ## What a call keeps -/

theorem reset_spent {b : OutBuf} (loose : b.pinned = false) (started : b.off ≠ 0)
    (spent : b.off = b.front.length) : b.reset = { b with front := [], off := 0 } := by
  unfold reset
  exact if_pos ⟨loose, started, spent⟩

/-- The front and what is staged behind it are the last bytes appended, and the bytes sent
are all those before what is left on the wire.  As long as nothing was displaced, the front
is everything. -/
structure Kept (h : History) : Prop where
  offset : h.buf.off ≤ h.buf.front.length
  loose : h.buf.pinned = false → h.buf.back = []
  held : ∃ gone, gone ++ (h.buf.front ++ h.buf.back) = h.appended ∧
    gone ++ h.buf.front.take h.buf.off = h.left
  undrained : h.drained = false → h.buf.off ≠ 0 → h.buf.off ≠ h.buf.front.length
  whole : h.displaced = false → h.buf.front = h.appended ∧ h.buf.back = []

namespace Kept

variable {h : History}

theorem fresh : Kept {} where
  offset := Nat.le_refl 0
  loose := fun _ => rfl
  held := ⟨[], rfl, rfl⟩
  undrained := fun _ started => absurd rfl started
  whole := fun _ => ⟨rfl, rfl⟩

/-- A pinned buffer takes what is appended behind its front. -/
theorem append_pinned (kept : Kept h) (s : Bytes) (pinned : h.buf.pinned = true) :
    Kept (h.step (.append s)) := by
  have same : (h.step (.append s)).buf = { h.buf with back := h.buf.back ++ s } := by
    simp [call, append, reset, pinned]
  obtain ⟨gone, all, sent⟩ := kept.held
  constructor
  · rw [same]
    exact kept.offset
  · rw [same]
    intro unpinned
    exact absurd (pinned.symm.trans unpinned) (by decide)
  · refine ⟨gone, ?_, ?_⟩
    · rw [same]
      change gone ++ (h.buf.front ++ (h.buf.back ++ s)) = h.appended ++ s
      rw [← all]
      simp only [List.append_assoc]
    · rw [same]
      exact sent
  · rw [same]
    exact kept.undrained
  · intro undisplaced
    change (h.displaced || h.buf.pinned || h.drained) = false at undisplaced
    rw [pinned] at undisplaced
    simp at undisplaced

/-- What is appended to an unpinned buffer goes behind its front, which is dropped first
when it has all been sent. -/
theorem append_loose (kept : Kept h) (s : Bytes) (loose : h.buf.pinned = false) :
    Kept (h.step (.append s)) := by
  have empty : h.buf.back = [] := kept.loose loose
  obtain ⟨gone, all, sent⟩ := kept.held
  rw [empty, List.append_nil] at all
  by_cases spent : h.buf.off ≠ 0 ∧ h.buf.off = h.buf.front.length
  · have same : (h.step (.append s)).buf = { h.buf with front := s, off := 0 } := by
      change h.buf.append s = _
      unfold append
      rw [reset_spent loose spent.1 spent.2]
      simp [loose]
    constructor
    · rw [same]
      exact Nat.zero_le _
    · rw [same]
      exact fun _ => empty
    · refine ⟨gone ++ h.buf.front, ?_, ?_⟩
      · rw [same]
        change gone ++ h.buf.front ++ (s ++ h.buf.back) = h.appended ++ s
        rw [empty, List.append_nil, all]
      · rw [same]
        change gone ++ h.buf.front ++ [] = h.left
        rw [← sent, spent.2, List.take_length, List.append_nil]
    · rw [same]
      exact fun _ started => absurd rfl started
    · intro undisplaced
      change (h.displaced || h.buf.pinned || h.drained) = false at undisplaced
      simp only [Bool.or_eq_false_iff] at undisplaced
      exact absurd spent.2 (kept.undrained undisplaced.2 spent.1)
  · have same : (h.step (.append s)).buf = { h.buf with front := h.buf.front ++ s } := by
      simp [call, append, reset, loose, spent]
    have inside : h.buf.off ≤ (h.buf.front ++ s).length := by
      rw [List.length_append]
      exact Nat.le_add_right_of_le kept.offset
    constructor
    · rw [same]
      exact inside
    · rw [same]
      exact kept.loose
    · refine ⟨gone, ?_, ?_⟩
      · rw [same]
        change gone ++ (h.buf.front ++ s ++ h.buf.back) = h.appended ++ s
        rw [empty, List.append_nil, ← List.append_assoc, all]
      · rw [same]
        change gone ++ (h.buf.front ++ s).take h.buf.off = h.left
        rw [List.take_append_of_le_length kept.offset, sent]
    · rw [same]
      change h.drained = false → h.buf.off ≠ 0 → h.buf.off ≠ (h.buf.front ++ s).length
      intro undrained started
      have more := kept.undrained undrained started
      have most := kept.offset
      rw [List.length_append]
      omega
    · intro undisplaced
      change (h.displaced || h.buf.pinned || h.drained) = false at undisplaced
      simp only [Bool.or_eq_false_iff] at undisplaced
      rw [same]
      change h.buf.front ++ s = h.appended ++ s ∧ h.buf.back = []
      rw [(kept.whole undisplaced.1.1).1]
      exact ⟨rfl, empty⟩

theorem pin (kept : Kept h) : Kept (h.step .pin) where
  offset := kept.offset
  loose := fun unpinned => absurd unpinned (by simp [call, OutBuf.pin])
  held := kept.held
  undrained := kept.undrained
  whole := kept.whole

/-- The bytes on the wire that a send takes are the next ones of the front. -/
theorem taken (b : OutBuf) (n : Nat) :
    b.front.take b.off ++ b.wire.take n = b.front.take (b.off + n) := by
  unfold wire
  rw [List.take_add]

/-- What is sent leaves the front, and what is staged behind it joins it. -/
theorem sent (kept : Kept h) (n : Nat) (allowed : n ≤ h.buf.wire.length) :
    Kept (h.step (.sent n)) := by
  have most := kept.offset
  have reach : h.buf.off + n ≤ h.buf.front.length := by
    unfold wire at allowed
    rw [List.length_drop] at allowed
    omega
  obtain ⟨gone, all, sent⟩ := kept.held
  have left : gone ++ h.buf.front.take (h.buf.off + n) = h.left ++ h.buf.wire.take n := by
    rw [← taken, ← List.append_assoc, sent]
  have drained : (h.step (.sent n)).drained = (h.drained || h.buf.drains n) := rfl
  have moved : h.displaced = false → h.buf.back = [] := fun undisplaced =>
    (kept.whole undisplaced).2
  by_cases empty : h.buf.back = []
  · have same : (h.step (.sent n)).buf =
        { h.buf with off := h.buf.off + n, pinned := false } := by
      simp [call, OutBuf.sent, empty]
    constructor
    · rw [same]
      exact reach
    · rw [same]
      exact fun _ => empty
    · rw [same]
      exact ⟨gone, all, left⟩
    · rw [same, drained]
      intro undrained started spent
      simp only [Bool.or_eq_false_iff] at undrained
      have nonempty : h.buf.front ≠ [] := by
        intro nothing
        rw [nothing] at reach
        exact started (Nat.le_zero.mp reach)
      simp [drains, nonempty] at undrained
      exact undrained.2 spent
    · rw [same]
      exact kept.whole
  · by_cases spent : h.buf.off + n = h.buf.front.length
    · have same : (h.step (.sent n)).buf =
          { front := h.buf.back, back := [], off := 0, pinned := false } := by
        simp [call, OutBuf.sent, empty, spent]
      constructor
      · rw [same]
        exact Nat.zero_le _
      · rw [same]
        exact fun _ => rfl
      · rw [same]
        refine ⟨gone ++ h.buf.front, ?_, ?_⟩
        · change gone ++ h.buf.front ++ (h.buf.back ++ []) = h.appended
          rw [List.append_nil, List.append_assoc, all]
        · change gone ++ h.buf.front ++ [] = h.left ++ h.buf.wire.take n
          rw [← left, spent, List.take_length, List.append_nil]
      · rw [same]
        exact fun _ started => absurd rfl started
      · intro undisplaced
        exact absurd (moved undisplaced) empty
    · have same : (h.step (.sent n)).buf =
          { front := h.buf.front ++ h.buf.back, back := [], off := h.buf.off + n,
            pinned := false } := by
        simp [call, OutBuf.sent, empty, spent]
      constructor
      · rw [same]
        change h.buf.off + n ≤ (h.buf.front ++ h.buf.back).length
        rw [List.length_append]
        omega
      · rw [same]
        exact fun _ => rfl
      · rw [same]
        refine ⟨gone, ?_, ?_⟩
        · change gone ++ (h.buf.front ++ h.buf.back ++ []) = h.appended
          rw [List.append_nil, all]
        · change gone ++ (h.buf.front ++ h.buf.back).take (h.buf.off + n) = _
          rw [List.take_append_of_le_length reach]
          exact left
      · rw [same]
        change _ → h.buf.off + n ≠ 0 → h.buf.off + n ≠ (h.buf.front ++ h.buf.back).length
        intro _ _
        have some : 0 < h.buf.back.length := List.length_pos_iff.mpr empty
        rw [List.length_append]
        omega
      · intro undisplaced
        exact absurd (moved undisplaced) empty

theorem clear (h : History) : Kept (h.step .clear) where
  offset := Nat.le_refl 0
  loose := fun _ => rfl
  held := ⟨[], rfl, rfl⟩
  undrained := fun _ started => absurd rfl started
  whole := fun _ => ⟨rfl, rfl⟩

/-- Each call keeps it. -/
theorem step (kept : Kept h) (c : Call) (allowed : h.buf.Allowed c) : Kept (h.step c) := by
  cases c with
  | append s =>
      cases pinned : h.buf.pinned with
      | true => exact kept.append_pinned s pinned
      | false => exact kept.append_loose s pinned
  | pin => exact kept.pin
  | sent n => exact kept.sent n allowed
  | clear => exact Kept.clear h

/-- So does every run. -/
theorem after {calls : List Call} : ∀ {h : History}, Kept h → h.buf.Legal calls →
    Kept (h.after calls) := by
  induction calls with
  | nil => exact fun kept _ => kept
  | cons c calls inductionHypothesis =>
      intro h kept legal
      obtain ⟨allowed, rest⟩ := legal
      apply inductionHypothesis (kept.step c allowed)
      rw [h.step_buf c]
      exact rest

end Kept

/-! ## Runs of calls -/

/-- A pinned front stays as it is until the next send. -/
theorem front_pinned {calls : List Call} : ∀ {b : OutBuf}, b.pinned = true → b.Legal calls →
    (∀ n, Call.sent n ∉ calls) →
    (calls.foldl call b).front = b.front ∧ (calls.foldl call b).off = b.off := by
  induction calls with
  | nil => exact fun _ _ _ => ⟨rfl, rfl⟩
  | cons c calls inductionHypothesis =>
      intro b pinned legal unsent
      obtain ⟨allowed, rest⟩ := legal
      have later : ∀ n, Call.sent n ∉ calls := fun n held =>
        unsent n (List.mem_cons_of_mem c held)
      have same : (b.call c).front = b.front ∧ (b.call c).off = b.off ∧
          (b.call c).pinned = true := by
        cases c with
        | append s => simp [call, append, reset, pinned]
        | pin => exact ⟨rfl, rfl, rfl⟩
        | sent n => exact absurd List.mem_cons_self (unsent n)
        | clear => exact absurd (pinned.symm.trans allowed) (by decide)
      obtain ⟨front, offset⟩ := inductionHypothesis same.2.2 rest later
      rw [List.foldl_cons, front, offset]
      exact ⟨same.1, same.2.1⟩

theorem History.after_buf {calls : List Call} : ∀ {h : History},
    (h.after calls).buf = calls.foldl call h.buf := by
  induction calls with
  | nil => exact rfl
  | cons c calls inductionHypothesis =>
      intro h
      rw [History.after_cons, inductionHypothesis, h.step_buf, List.foldl_cons]

/-- In every run, the bytes sent since the last clear are the first of those appended since,
and what is unsent is the rest of them.  The front does not change between a pin and the
next send.  What is taken at the end is the last bytes appended, every unsent one among
them, and all of them unless one was displaced. -/
theorem sent_in_order (calls : List Call) (legal : Legal {} calls) :
    let h := History.after {} calls
    h.left <+: h.appended ∧
      h.buf.unsent = h.appended.length - h.left.length ∧
      (h.buf.idle = true ↔ h.appended.length - h.left.length = 0) ∧
      (∀ before between, calls = before ++ Call.pin :: between →
        (∀ n, Call.sent n ∉ between) →
        h.buf.front = (History.after {} before).buf.front ∧
          h.buf.wire = (History.after {} before).buf.wire) ∧
      h.buf.take.1 <:+ h.appended ∧
      h.appended.drop h.left.length <:+ h.buf.take.1 ∧
      (h.displaced = false → h.buf.take.1 = h.appended) := by
  intro h
  have kept : Kept h := Kept.fresh.after legal
  obtain ⟨gone, all, sent⟩ := kept.held
  have rest : h.appended = h.left ++ (h.buf.wire ++ h.buf.back) := by
    rw [← all, ← sent]
    unfold wire
    simp only [List.append_assoc]
    rw [← List.append_assoc (h.buf.front.take _), List.take_append_drop]
  have unsent : h.appended.drop h.left.length = h.buf.wire ++ h.buf.back := by
    rw [rest, List.drop_left]
  have count : h.buf.unsent = h.appended.length - h.left.length := by
    rw [← List.length_drop, unsent]
    simp [OutBuf.unsent, wire]
  have most := kept.offset
  refine ⟨⟨_, rest.symm⟩, count, ?_, ?_, ⟨gone, all⟩, ?_, ?_⟩
  · rw [← count]
    simp only [idle, OutBuf.unsent, Bool.and_eq_true, decide_eq_true_eq, List.isEmpty_iff]
    constructor
    · intro ended
      rw [ended.1, ended.2]
      simp
    · intro none
      refine ⟨by omega, List.eq_nil_of_length_eq_zero (by omega)⟩
  · intro before between split unsent
    rw [split] at legal
    obtain ⟨_, _, later⟩ := Legal.split (h := {}) legal
    have same : h.buf = between.foldl call (History.after {} before).buf.pin := by
      change (History.after {} calls).buf = _
      rw [split, History.after_append, History.after_cons, History.after_buf,
        History.step_buf]
      rfl
    have held := front_pinned rfl later unsent
    change (between.foldl call (History.after {} before).buf.pin).front =
        (History.after {} before).buf.front ∧
      (between.foldl call (History.after {} before).buf.pin).off =
        (History.after {} before).buf.off at held
    unfold wire
    rw [same, held.1, held.2]
    exact ⟨rfl, rfl⟩
  · rw [unsent]
    refine ⟨h.buf.front.take h.buf.off, ?_⟩
    change _ = h.buf.front ++ h.buf.back
    unfold wire
    rw [← List.append_assoc, List.take_append_drop]
  · intro undisplaced
    change h.buf.front ++ h.buf.back = h.appended
    obtain ⟨front, back⟩ := kept.whole undisplaced
    rw [front, back, List.append_nil]

/-- A partial send while more is staged behind the front. -/
theorem sent_in_order_partial :
    (History.after {} [.append [97, 98, 99], .pin, .append [100], .sent 2]).left = [97, 98] ∧
      (History.after {} [.append [97, 98, 99], .pin, .append [100], .sent 2]).left <+:
        (History.after {} [.append [97, 98, 99], .pin, .append [100], .sent 2]).appended :=
  ⟨by decide,
    (sent_in_order [.append [97, 98, 99], .pin, .append [100], .sent 2] (by decide)).1⟩

end OutBuf
end Gateway
end Llmbridge
