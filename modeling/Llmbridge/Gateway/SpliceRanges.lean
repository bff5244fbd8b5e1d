import Llmbridge.Gateway.Splice
import Llmbridge.Provider.BodyScanHold
import Llmbridge.Provider.MemberEdits

/-!
# A splice over consecutive ranges

What a splice writes for a range is a pass of edits over it.  The spans a prefix
of the body tells are those that the whole body tells and that start in what the
prefix makes safe, so the passes over the ranges of the feeds make up one pass
over the body.
-/

namespace Llmbridge
namespace Gateway

open Rfc8259
open BodyScan (Placed Config Marks Member sizeMax)
open MemberEdits

/-! ## One range -/

theorem range_eq_slice (body : Bytes) (i j : Nat) : range body i j = slice body i j :=
  rfl

theorem slice_of_le (body : Bytes) {i j : Nat} (le : j ≤ i) : slice body i j = [] := by
  rw [slice, Nat.sub_eq_zero_of_le le, List.take_zero]

theorem range_if (body : Bytes) (i j : Nat) :
    (if i < j then range body i j else []) = slice body i j := by
  split
  · rfl
  · exact (slice_of_le body (by omega)).symm

namespace Splice

/-- The edit of a cut. -/
def cutEdit (s : Splice) (c : Cut) : Edit Byte :=
  ⟨c.at, c.end, s.replaced c⟩

/-- What goes in behind the root's brace, with its separator. -/
def inserted (s : Splice) (scan : BodyScan) : Bytes :=
  s.members.appendMembers ++
    (if scan.marks.hasMember &&
      !((s.memberCuts scan).any fun c => c.at = scan.marks.openAt) then [0x2c]
    else [0x20])

/-- The edits of a splice, with the spans that `scan` tells. -/
def edits (s : Splice) (body : Bytes) (scan : BodyScan) : List (Edit Byte) :=
  (if s.members.mask = 0 then []
    else [⟨scan.marks.openAt, scan.marks.openAt, s.inserted scan⟩]) ++
  (s.cuts body scan).map s.cutEdit

/-- What goes behind the body when the model goes as it was sent. -/
def padding (s : Splice) (body : Bytes) (scan : BodyScan) : Bytes :=
  if ¬ s.model.sentinel.isEmpty ∧ ¬ s.substitutes body scan then spaces s.model.grow
  else []

theorem appendCuts_eq
    (s : Splice) (body : Bytes) (j : Nat) (cuts : List Cut) (pos : Nat) :
    s.appendCuts body j cuts pos = Edit.rewrite body (cuts.map s.cutEdit) pos j := by
  induction cuts generalizing pos with
  | nil => exact range_if body pos j
  | cons c cuts inductionHypothesis =>
      rw [appendCuts, List.map_cons, Edit.rewrite, inductionHypothesis,
        inductionHypothesis]
      rfl

theorem memberCuts_of_mask
    {s : Splice} (mask : s.members.mask = 0) (scan : BodyScan) :
    s.memberCuts scan = [] := by
  simp [memberCuts, mask]

/-- The cuts without members are the model's. -/
theorem cuts_of_mask
    {s : Splice} (mask : s.members.mask = 0) (body : Bytes) (scan : BodyScan) :
    s.cuts body scan = if s.substitutes body scan then
      [⟨scan.marks.modelAt, scan.marks.modelEnd, true⟩] else [] := by
  rw [cuts, memberCuts_of_mask mask, List.nil_append]
  split <;> rfl

/-- What is written for a range is a pass of edits over it. -/
theorem append_eq
    (s : Splice) (body : Bytes) (i j bodyLen : Nat) (scan : BodyScan) :
    s.append body i j bodyLen scan =
      Edit.rewrite body (s.edits body scan) i j ++
        (if j = bodyLen then s.padding body scan else []) := by
  by_cases mask : s.members.mask = 0
  · rw [append, if_pos mask, edits, if_pos mask, List.nil_append, cuts_of_mask mask]
    by_cases none : s.model.sentinel.isEmpty = true
    · have not : s.substitutes body scan = false := by simp [substitutes, none]
      rw [if_pos none, not]
      simp [Edit.rewrite, padding, none, range_eq_slice]
    · have hit : s.substitutes body scan =
          s.model.matches body scan.marks.modelAt scan.marks.modelEnd := by
        simp [substitutes, none]
      rw [if_neg none, ModelSplice.append, ← hit]
      cases matched : s.substitutes body scan with
      | false => simp [Edit.rewrite, padding, none, matched, range_if]
      | true =>
          simp only [matched, true_and, not_true_eq_false, and_false, if_false, padding,
            ite_self, List.append_nil, if_true, List.map_cons, List.map_nil, Edit.rewrite,
            cutEdit, replaced, range_if]
          by_cases inside : i ≤ scan.marks.modelAt ∧ scan.marks.modelAt < j
          · rw [if_pos inside, if_neg (by omega), List.append_assoc]
            rfl
          · rw [if_neg inside, if_pos (by omega)]
  · rw [append, if_neg mask, edits, if_neg mask]
    have pad : (if j = bodyLen ∧ ¬ s.model.sentinel.isEmpty = true ∧
        ¬ s.substitutes body scan = true then spaces s.model.grow else []) =
        if j = bodyLen then s.padding body scan else [] := by
      by_cases last : j = bodyLen
      · simp only [last, true_and, if_true, padding]
      · simp only [last, false_and, if_false]
    dsimp only
    rw [pad, appendCuts_eq, appendCuts_eq, List.cons_append, List.nil_append,
      Edit.rewrite]
    congr 1
    rw [← List.append_assoc s.members.appendMembers, ← inserted, range_eq_slice]
    dsimp only
    by_cases inside : scan.marks.openAt ≥ i ∧ scan.marks.openAt < j
    · have here : ¬ (scan.marks.openAt < i ∨ j ≤ scan.marks.openAt) := by omega
      rw [if_pos inside, if_neg here]
    · have outside : scan.marks.openAt < i ∨ j ≤ scan.marks.openAt := by omega
      rw [if_neg inside, if_pos outside]

/-! ## The whole body -/

/-- What a splice does with a member of the client's, `hit` saying whether the
model goes substituted. -/
def change (s : Splice) (hit : Bool) (p : Placed) : Change :=
  if BodyScan.memberBit p.name &&& s.members.mask ≠ 0 then .blank
  else if hit ∧ p.name = ascii "model" then
    .value (.string (plainChars s.model.replacement)) (Ws.spaces s.model.shrink)
  else .keep

/-- The cut of a member. -/
def cutOf (s : Splice) (hit : Bool) (p : Placed) : List Cut :=
  if BodyScan.memberBit p.name &&& s.members.mask ≠ 0 then [⟨p.sep, p.stop, false⟩]
  else if hit ∧ p.name = ascii "model" then [⟨p.valueAt, p.stop, true⟩]
  else []

theorem cutOf_edits
    {s : Splice} (plain : ∀ c ∈ s.model.replacement, isPlain c = true) (hit : Bool)
    (p : Placed) :
    (s.cutOf hit p).map s.cutEdit = (s.change hit p).edits p := by
  rw [cutOf, change]
  split
  · rfl
  · split
    · simp [Change.edits, cutEdit, replaced, ModelSplice.substituted, Json.render,
        quoted, plainChars_bytes plain, Ws.spaces, spaces]
    · rfl

theorem change_fits (s : Splice) (hit : Bool) (p : Placed) :
    (s.change hit p).Fits p := by
  rw [change]
  repeat' split
  all_goals trivial

section Whole

variable {s : Splice} {body : Bytes} {scan : BodyScan} {cfg : Config} {openAt : Nat}
  {ps : List Placed}

theorem memberCuts_eq
    (mask : cfg.members = s.members.mask) (found : scan.marks.found = cfg.found ps) :
    s.memberCuts scan =
      ps.flatMap fun p => if BodyScan.memberBit p.name &&& s.members.mask ≠ 0 then
        [⟨p.sep, p.stop, false⟩] else [] := by
  rw [memberCuts, found, Config.found]
  clear found
  induction ps with
  | nil => rfl
  | cons p ps inductionHypothesis =>
      rw [List.flatMap_cons, ← inductionHypothesis]
      have bit : cfg.bit p = BodyScan.memberBit p.name &&& s.members.mask := by
        rw [Config.bit, mask]
      by_cases masked : BodyScan.memberBit p.name &&& s.members.mask = 0
      · rw [List.filter_cons_of_neg (by simp [bit, masked])]
        simp [masked]
      · have again : (cfg.told p).bit &&& s.members.mask ≠ 0 := by
          change cfg.bit p &&& s.members.mask ≠ 0
          rwa [bit, UInt8.and_assoc, UInt8.and_self]
        rw [List.filter_cons_of_pos (by simp [bit, masked]), List.map_cons,
          List.filter_cons_of_pos (a := cfg.told p) (by exact decide_eq_true again)]
        simp [masked, Config.told]

variable (ps) in
theorem modelSpan_tracked (tracked : cfg.trackModel = true) :
    cfg.modelSpan ps =
      match ps.find? fun p => p.name = ascii "model" with
      | some p => (p.valueAt, p.stop)
      | none => (sizeMax, sizeMax) := by
  apply Eq.trans
  · simp only [Config.modelSpan, tracked, Bool.true_and]
    rfl
  · rfl

/-- The cuts of members that stand one behind the other ascend. -/
theorem cutOf_ascending
    (hit : Bool) {i j : Nat} (within : ∀ p ∈ ps, Within p i j)
    (ordered : ps.Pairwise fun p q => p.stop ≤ q.sep) :
    (ps.flatMap (s.cutOf hit)).Pairwise (fun c d => c.at < d.at) ∧
      ∀ c ∈ ps.flatMap (s.cutOf hit), c.at < c.end := by
  have inside : ∀ p ∈ ps, ∀ c ∈ s.cutOf hit p,
      p.sep ≤ c.at ∧ c.at < c.end ∧ c.end = p.stop := by
    intro p member c cut
    obtain ⟨-, sep, value, -⟩ := within p member
    rw [cutOf] at cut
    repeat' split at cut
    all_goals simp only [List.mem_singleton, List.not_mem_nil] at cut
    all_goals subst cut
    all_goals dsimp only
    all_goals omega
  constructor
  · refine List.pairwise_flatMap.mpr ⟨fun p _ => ?_, ?_⟩
    · rw [cutOf]
      repeat' split
      all_goals simp
    · refine ordered.imp_of_mem ?_
      intro p q first second before c inFirst d inSecond
      have left := inside p first c inFirst
      have right := inside q second d inSecond
      omega
  · intro c member
    obtain ⟨p, there, cut⟩ := List.mem_flatMap.mp member
    exact (inside p there c cut).2.1

variable (body) in
/-- The cuts of a scanned body, in order. -/
theorem cuts_eq
    (mask : cfg.members = s.members.mask) (top : BodyScan.Top cfg openAt ps scan.marks)
    (tracked : s.model.sentinel ≠ [] → cfg.trackModel = true)
    (once : ps.Pairwise fun a b => b.name = ascii "model" → a.name ≠ ascii "model")
    {i j : Nat} (within : ∀ p ∈ ps, Within p i j)
    (ordered : ps.Pairwise fun p q => p.stop ≤ q.sep) :
    s.cuts body scan = ps.flatMap (s.cutOf (s.substitutes body scan)) := by
  have spread : ∀ p, s.cutOf (s.substitutes body scan) p =
      (if BodyScan.memberBit p.name &&& s.members.mask ≠ 0 then
        [(⟨p.sep, p.stop, false⟩ : Cut)] else []) ++
      (if s.substitutes body scan = true ∧ p.name = ascii "model" then
        [(⟨p.valueAt, p.stop, true⟩ : Cut)] else []) := by
    intro p
    rw [cutOf]
    by_cases isModel : p.name = ascii "model"
    · have unmasked : ¬ (BodyScan.memberBit p.name &&& s.members.mask ≠ 0) := by
        rw [isModel, show BodyScan.memberBit (ascii "model") = 0 by rfl]
        simp
      rw [if_neg unmasked, if_neg unmasked, List.nil_append]
    · simp [isModel]
  have model : (if s.substitutes body scan = true then
      [(⟨scan.marks.modelAt, scan.marks.modelEnd, true⟩ : Cut)] else []) =
      ps.flatMap fun p => if s.substitutes body scan = true ∧ p.name = ascii "model" then
        [(⟨p.valueAt, p.stop, true⟩ : Cut)] else [] := by
    cases hit : s.substitutes body scan with
    | false => simp
    | true =>
        rw [substitutes, Bool.and_eq_true] at hit
        obtain ⟨some, matched⟩ := hit
        have span := modelSpan_tracked ps (tracked (by simpa using some))
        simp only [if_true, true_and]
        rw [flatMap_once Placed.name (fun p => (⟨p.valueAt, p.stop, true⟩ : Cut)) once,
          top.modelAt, top.modelEnd, span]
        rw [top.modelAt, top.modelEnd, span] at matched
        cases found : ps.find? fun p => p.name = ascii "model" with
        | some p => rfl
        | none =>
            rw [found] at matched
            simp [ModelSplice.matches] at matched
  obtain ⟨ascending, -⟩ := cutOf_ascending (s.substitutes body scan) within ordered
  rw [cuts, memberCuts_eq mask top.found, model]
  refine sort_eq Cut.at ?_ ascending
  have perm := List.flatMap_append_perm ps
    (fun p => if BodyScan.memberBit p.name &&& s.members.mask ≠ 0 then
        [(⟨p.sep, p.stop, false⟩ : Cut)] else [])
    (fun p => if s.substitutes body scan = true ∧ p.name = ascii "model" then
        [(⟨p.valueAt, p.stop, true⟩ : Cut)] else [])
  refine perm.trans ?_
  rw [List.flatMap_congr fun p _ => (spread p).symm]

end Whole

/-! ## Prefixes -/

theorem matches_take
    (m : ModelSplice) {body : Bytes} {n «at» stop : Nat} (inside : n ≤ body.length)
    (before : stop ≤ n) :
    m.matches (body.take n) «at» stop = m.matches body «at» stop := by
  by_cases size : stop - «at» = m.sentinel.length + 2
  · have length : (body.take n).length = n := by
      rw [List.length_take]
      omega
    have first : (body.take n)[«at»]? = body[«at»]? := by
      rw [List.getElem?_take, if_pos (by omega)]
    have last : (body.take n)[stop - 1]? = body[stop - 1]? := by
      rw [List.getElem?_take, if_pos (by omega)]
    rw [ModelSplice.matches, ModelSplice.matches, length, first, last,
      substr_take (by omega)]
    simp [before, Nat.le_trans before inside]
  · have other : (stop - «at» == m.sentinel.length + 2) = false := by simpa using size
    simp [ModelSplice.matches, other]

section Prefixes

variable {s : Splice} {body : Bytes} {n : Nat} {scan last : BodyScan}

/-- What the marks of a prefix of `n` bytes tell of those of the whole body. -/
structure Tells (s : Splice) (body : Bytes) (n : Nat) (scan last : BodyScan) : Prop where
  inside : n ≤ body.length
  small : n < sizeMax
  onward : BodyScan.Onward n scan.marks body.length last.marks
  found : ∀ x ∈ scan.marks.found, x.end ≤ scan.marks.safe n
  model : scan.marks.modelEnd ≠ sizeMax → scan.marks.modelEnd ≤ scan.marks.safe n
  ascending : (s.cuts body last).Pairwise fun c d => c.at < d.at
  spans : ∀ c ∈ s.cuts body last, c.at < c.end

theorem mem_cuts {c : Cut} {body : Bytes} {scan : BodyScan} :
    c ∈ s.cuts body scan ↔ c ∈ s.memberCuts scan ∨
      s.substitutes body scan = true ∧
        c = ⟨scan.marks.modelAt, scan.marks.modelEnd, true⟩ := by
  rw [cuts, List.mem_insertionSort, List.mem_append]
  refine or_congr Iff.rfl ?_
  split <;> simp [*]

/-- The members' cuts of the whole body that start in what is safe. -/
theorem Tells.memberCuts (tells : Tells s body n scan last) :
    ∃ more, s.memberCuts last = s.memberCuts scan ++ more ∧
      (∀ c ∈ s.memberCuts scan, c.at < scan.marks.safe n) ∧
      ∀ c ∈ more, scan.marks.safe n ≤ c.at := by
  obtain ⟨more, told, behind⟩ := tells.onward.found
  have split : s.memberCuts last = s.memberCuts scan ++
      (more.filter fun m => m.bit &&& s.members.mask ≠ 0).map
        fun m => (⟨m.at, m.end, false⟩ : Cut) := by
    rw [Splice.memberCuts, Splice.memberCuts, told, List.filter_append, List.map_append]
  refine ⟨_, split, fun c member => ?_, fun c member => ?_⟩
  · have span := tells.spans c (mem_cuts.mpr (Or.inl (by
      rw [split]
      exact List.mem_append_left _ member)))
    rw [Splice.memberCuts, List.mem_map] at member
    obtain ⟨m, inFound, rfl⟩ := member
    exact Nat.lt_of_lt_of_le span (tells.found m (List.mem_of_mem_filter inFound))
  · rw [List.mem_map] at member
    obtain ⟨m, inMore, rfl⟩ := member
    exact behind m (List.mem_of_mem_filter inMore)

/-- Whether the model goes substituted is known once its value is safe. -/
theorem Tells.substitutes
    (tells : Tells s body n scan last) :
    (scan.marks.modelEnd ≠ sizeMax →
      s.substitutes (body.take n) scan = s.substitutes body last ∧
        last.marks.modelAt = scan.marks.modelAt ∧
        last.marks.modelEnd = scan.marks.modelEnd) ∧
    (scan.marks.modelEnd = sizeMax → s.substitutes (body.take n) scan = false ∧
      (s.substitutes body last = true → scan.marks.safe n ≤ last.marks.modelAt)) := by
  refine ⟨fun some => ?_, fun none => ⟨?_, fun hit => ?_⟩⟩
  · obtain ⟨at', end'⟩ := tells.onward.modelKept some
    refine ⟨?_, at', end'⟩
    have before : scan.marks.modelEnd ≤ n :=
      Nat.le_trans (tells.model some) (Nat.min_le_right _ _)
    rw [Splice.substitutes, Splice.substitutes, at', end',
      matches_take _ tells.inside before]
  · simp [Splice.substitutes, ModelSplice.matches, none]
  · refine tells.onward.modelLater none fun none' => ?_
    simp [Splice.substitutes, ModelSplice.matches, none'] at hit

/-- The cuts that start in what is safe are those the prefix tells. -/
theorem Tells.cuts (tells : Tells s body n scan last) :
    s.cuts (body.take n) scan =
      (s.cuts body last).filter fun c => c.at < scan.marks.safe n := by
  obtain ⟨more, split, before, behind⟩ := tells.memberCuts
  obtain ⟨known, unknown⟩ := tells.substitutes
  refine sort_eq Cut.at ?_ (tells.ascending.filter _)
  refine List.Perm.trans (List.Perm.of_eq ?_)
    (List.Perm.filter _ (List.perm_insertionSort _ _).symm)
  rw [split, List.filter_append, List.filter_append,
    List.filter_eq_self.mpr fun c member => by simpa using before c member,
    List.filter_eq_nil_iff.mpr fun c member => by simpa using behind c member,
    List.append_nil]
  congr 1
  by_cases closed : scan.marks.modelEnd = sizeMax
  · obtain ⟨none, later⟩ := unknown closed
    rw [none]
    cases hit : s.substitutes body last with
    | false => rfl
    | true => simp [later hit]
  · obtain ⟨same, at', end'⟩ := known closed
    rw [same]
    cases hit : s.substitutes body last with
    | false => rfl
    | true =>
        have span := tells.spans _ (mem_cuts.mpr (Or.inr ⟨hit, rfl⟩))
        have inside := tells.model closed
        dsimp only at span
        rw [end'] at span
        have before : last.marks.modelAt < scan.marks.safe n := by
          rw [at']
          omega
        rw [if_pos rfl, if_pos rfl, List.filter_cons_of_pos (by simpa using before),
          at', end']
        rfl

/-- What goes in behind the brace is known once it is safe. -/
theorem Tells.inserted
    (tells : Tells s body n scan last) (known : scan.marks.openAt ≠ sizeMax)
    (safe : scan.marks.openAt < scan.marks.safe n) :
    s.inserted scan = s.inserted last := by
  obtain ⟨more, split, -, behind⟩ := tells.memberCuts
  have none : (more.any fun c => c.at = scan.marks.openAt) = false := by
    rw [List.any_eq_false]
    intro c member
    have := behind c member
    simp only [decide_eq_true_eq]
    omega
  rw [Splice.inserted, Splice.inserted, tells.onward.openKept known,
    tells.onward.hasMember known safe, split, List.any_append, none, Bool.or_false]

/-- The edits that start in what is safe are those the prefix tells. -/
theorem Tells.edits (tells : Tells s body n scan last) :
    ((s.edits (body.take n) scan).filter fun e => e.at < scan.marks.safe n) =
      (s.edits body last).filter fun e => e.at < scan.marks.safe n := by
  rw [Splice.edits, Splice.edits, List.filter_append, List.filter_append, tells.cuts,
    List.filter_map, List.filter_map, List.filter_filter]
  congr 1
  · by_cases mask : s.members.mask = 0
    · rw [if_pos mask, if_pos mask]
    · rw [if_neg mask, if_neg mask]
      have bound : scan.marks.safe n ≤ n := Nat.min_le_right _ _
      by_cases known : scan.marks.openAt = sizeMax
      · have later : scan.marks.safe n ≤ last.marks.openAt := by
          by_cases none : last.marks.openAt = sizeMax
          · have := tells.small
            omega
          · exact tells.onward.openLater known none
        have small := tells.small
        rw [List.filter_cons_of_neg (by simp; omega),
          List.filter_cons_of_neg (by simpa using later)]
      · have kept := tells.onward.openKept known
        by_cases safe : scan.marks.openAt < scan.marks.safe n
        · rw [tells.inserted known safe, kept]
        · rw [kept, List.filter_cons_of_neg (by simpa using safe),
            List.filter_cons_of_neg (by simpa using safe)]
  · congr 2
    funext c
    exact Bool.and_self _

/-- What a prefix writes for a safe range is what the whole body writes. -/
theorem Tells.rewrite (tells : Tells s body n scan last) (i : Nat) :
    Edit.rewrite (body.take n) (s.edits (body.take n) scan) i (scan.marks.safe n) =
      Edit.rewrite body (s.edits body last) i (scan.marks.safe n) := by
  rw [Edit.rewrite_take (j := scan.marks.safe n) _ (Nat.min_le_right _ _),
    ← Edit.rewrite_filter, tells.edits, Edit.rewrite_filter]

/-- No edit straddles the end of what is safe. -/
theorem Tells.clear (tells : Tells s body n scan last) :
    Edit.Clear (s.edits body last) (scan.marks.safe n) := by
  intro e member before
  rw [Splice.edits, List.mem_append] at member
  rcases member with inHead | inCuts
  · split at inHead
    · simp at inHead
    · rw [List.mem_singleton] at inHead
      subst inHead
      exact Nat.le_of_lt before
  · rw [List.mem_map] at inCuts
    obtain ⟨c, member, rfl⟩ := inCuts
    have told : c ∈ s.cuts (body.take n) scan := by
      rw [tells.cuts, List.mem_filter]
      exact ⟨member, by simpa [cutEdit] using before⟩
    change c.end ≤ _
    rcases mem_cuts.mp told with inMembers | ⟨hit, rfl⟩
    · rw [Splice.memberCuts, List.mem_map] at inMembers
      obtain ⟨m, inFound, rfl⟩ := inMembers
      exact tells.found m (List.mem_of_mem_filter inFound)
    · refine tells.model fun none => ?_
      simp [Splice.substitutes, ModelSplice.matches, none] at hit

variable (body) in
/-- Only the marks of a scan are looked at. -/
theorem edits_congr {scan' : BodyScan} (same : scan.marks = scan'.marks) :
    s.edits body scan = s.edits body scan' ∧ s.padding body scan = s.padding body scan' := by
  constructor
  · simp only [Splice.edits, Splice.inserted, Splice.cuts, Splice.memberCuts,
      Splice.substitutes, same]
    rfl
  · simp only [Splice.padding, Splice.substitutes, same]
    rfl

/-- The feeds of an accepted body write one pass of edits over it. -/
theorem stream_eq
    {cfg : Config} (done : (BodyScan.outcome body cfg.start.toScan).1 = .done)
    (small : body.length < sizeMax) (marks : last.marks = BodyScan.lastMarks body cfg)
    (ordered : Edit.Ordered (s.edits body last))
    (ascending : (s.cuts body last).Pairwise fun c d => c.at < d.at)
    (spans : ∀ c ∈ s.cuts body last, c.at < c.end) (cuts : List Nat)
    (here : BodyScan.At body cfg n scan) (grows : (n :: cuts).Pairwise (· ≤ ·))
    (proper : ∀ k ∈ cuts, k < body.length) :
    s.stream body scan (scan.marks.safe n) cuts =
      Edit.rewrite body (s.edits body last) (scan.marks.safe n) body.length ++
        s.padding body last := by
  induction cuts generalizing n scan with
  | nil =>
      obtain ⟨pos, same⟩ := here.last done
      have safe : (scan.feed body true).safe = body.length := by
        have hold := BodyScan.lastMarks_hold done (Nat.le_of_lt small)
        rw [BodyScan.safe, pos, same, hold, if_neg (by omega)]
      obtain ⟨edits, padding⟩ := edits_congr body (s := s) (same.trans marks.symm)
      rw [stream, append_eq, safe, if_pos rfl, edits, padding]
  | cons k cuts inductionHypothesis =>
      obtain ⟨after, grows⟩ := List.pairwise_cons.mp grows
      have inside := proper k List.mem_cons_self
      have next := here.feed done (after k List.mem_cons_self) (Nat.le_of_lt inside)
      obtain ⟨machine, held⟩ := next.held (Nat.le_of_lt small)
      have tells : Tells s body k (scan.feed (body.take k) false) last :=
        ⟨Nat.le_of_lt inside, by omega, marks ▸ next.onward_last done (Nat.le_of_lt small),
          held.holding.found, held.holding.model, ascending, spans⟩
      have bound : (scan.feed (body.take k) false).marks.safe k ≤ k := Nat.min_le_right _ _
      have grown : scan.marks.safe n ≤ (scan.feed (body.take k) false).marks.safe k :=
        (here.onward (Nat.le_of_lt small) (after k List.mem_cons_self)
          (Nat.le_of_lt inside) next.ran).safe
      have rest := inductionHypothesis next grows
        fun j member => proper j (List.mem_cons_of_mem k member)
      rw [stream, append_eq, next.safe, if_neg (by omega), List.append_nil, tells.rewrite, rest,
        ← List.append_assoc, Edit.rewrite_append ordered tells.clear grown (by omega)]

end Prefixes

end Splice

end Gateway
end Llmbridge
