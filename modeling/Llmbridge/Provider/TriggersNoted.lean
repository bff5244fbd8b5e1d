import Llmbridge.Provider.TriggerScan

/-!
# Refusal triggers and the cuts of a stream

A stream's refusal triggers are noted once each, in order, where no read begins between
a trigger's separator and its key, and none takes a trigger out of another one.
-/

namespace Llmbridge
namespace OpenAi

open Rfc8259
open JsonScan
open Scanning (Matcher)

/-- The trigger objects that a scan of the whole stream takes. -/
def taken (stream : Bytes) : List TriggerObject :=
  (triggerMatcher stream).found 0

theorem taken_triggerAt {stream : Bytes} {x : TriggerObject} (member : x ∈ taken stream) :
    TriggerAt stream x := by
  obtain ⟨q, e, -, hit⟩ := (triggerMatcher stream).hit_of_mem_found member
  exact (triggerMatcher_hit.mp hit).1

theorem taken_ordered (stream : Bytes) :
    (taken stream).Pairwise fun x y => x.stop ≤ y.start :=
  Matcher.pairwise_found triggerMatcher_places 0

/-- Each trigger object spans no more bytes than are kept. -/
def Spans (stream : Bytes) : Prop :=
  ∀ x, TriggerAt stream x → x.stop - x.sep ≤ StreamUsage.kTrigTail

/-- How one read cuts the triggers that end in it. -/
structure ReadOk (stream : Bytes) (fed read : Nat) : Prop where
  /-- It does not begin behind a trigger's separator and at or in front of its key. -/
  keyed : ∀ x ∈ taken stream, x.billed ≠ none → fed < x.stop → x.stop ≤ read →
    ¬ (x.sep < fed ∧ fed ≤ x.start)
  /-- A trigger inside another one is noted only with the other one in the same read. -/
  nested : ∀ x y, TriggerAt stream x → TriggerAt stream y → x.start < y.start →
    y.start < x.stop → y.billed ≠ none → fed < y.stop → y.stop ≤ read →
    x.stop ≤ read ∧ (fed ≤ y.sep → fed ≤ x.sep) ∨ (y.sep < fed ∧ fed ≤ y.start)

/-- The flags of the refusals that end in the first `fed` bytes. -/
def notedBy (stream : Bytes) (fed : Nat) : List Bool :=
  ((taken stream).filter fun x => decide (x.stop ≤ fed)).filterMap TriggerObject.billed

section Read

variable {stream : Bytes} {fed read : Nat}

/-- The triggers that the read cuts where it begins. -/
theorem cut_noted (spans : Spans stream) (nests : Nests stream) (ok : ReadOk stream fed read)
    (ordered : fed ≤ read) :
    ((triggerMatcher (part stream (fed - 256) (min read (fed + 256)))).found 0).filterMap
        (TriggerObject.cutAt (fed - (fed - 256))) =
      ((taken stream).filter fun x =>
        decide (x.start < fed ∧ fed < x.stop ∧ x.stop ≤ read)).filterMap
          TriggerObject.billed := by
  have shifted : ∀ x : TriggerObject, x.cutAt (fed - (fed - 256)) =
      (x.shift (fed - 256)).cutAt fed := by
    intro x
    unfold TriggerObject.cutAt
    rw [shift_billed]
    have same : (x.start < fed - (fed - 256) ∧ fed - (fed - 256) < x.stop) ↔
        ((x.shift (fed - 256)).start < fed ∧ fed < (x.shift (fed - 256)).stop) := by
      dsimp only [TriggerObject.shift]
      omega
    simp only [same]
  simp only [shifted]
  rw [selected_part nests, List.filterMap_filter, List.filterMap_filter]
  · apply List.filterMap_congr
    intro x member
    have bounds := (taken_triggerAt member).bounds
    have short := spans x (taken_triggerAt member)
    unfold StreamUsage.kTrigTail at short
    unfold TriggerObject.within TriggerObject.cutAt
    simp only [decide_eq_true_eq]
    by_cases cut : x.start < fed ∧ fed < x.stop
    · rw [if_pos cut]
      have same : (fed - 256 ≤ x.sep ∧ x.stop ≤ min read (fed + 256)) ↔
          (x.start < fed ∧ fed < x.stop ∧ x.stop ≤ read) := by omega
      simp only [same]
    · rw [if_neg cut, ite_self, if_neg (by tauto)]
  · intro x y trigger trigger' dropped kept after before
    unfold TriggerObject.within at dropped kept
    rw [decide_eq_false_iff_not] at dropped
    rw [decide_eq_true_eq] at kept
    unfold TriggerObject.cutAt
    split
    · rename_i cut
      by_contra refusal
      have ends := nests x y trigger trigger' after before
      have short := spans x trigger
      have bounds := trigger.bounds
      unfold StreamUsage.kTrigTail at short
      have together := ok.nested x y trigger trigger' after before refusal cut.2 (by omega)
      omega
    · rfl

/-- The triggers of the read's own bytes. -/
theorem own_noted (nests : Nests stream) (ok : ReadOk stream fed read) :
    ((triggerMatcher (part stream fed read)).found 0).filterMap TriggerObject.billed =
      ((taken stream).filter fun x =>
        decide (fed ≤ x.start ∧ x.stop ≤ read)).filterMap TriggerObject.billed := by
  have selected := @selected_part _ stream fed read TriggerObject.billed nests ?_
  · simp only [shift_billed] at selected
    rw [selected, List.filterMap_filter, List.filterMap_filter]
    apply List.filterMap_congr
    intro x member
    have bounds := (taken_triggerAt member).bounds
    unfold TriggerObject.within
    simp only [decide_eq_true_eq]
    cases billed : x.billed with
    | none => rw [ite_self, ite_self]
    | some flag =>
        have keyed : fed < x.stop → x.stop ≤ read → ¬ (x.sep < fed ∧ fed ≤ x.start) :=
          ok.keyed x member (by rw [billed]; exact Option.some_ne_none flag)
        have same : (fed ≤ x.sep ∧ x.stop ≤ read) ↔ (fed ≤ x.start ∧ x.stop ≤ read) := by
          omega
        simp only [same]
  · intro x y trigger trigger' dropped kept after before
    unfold TriggerObject.within at dropped kept
    rw [decide_eq_false_iff_not] at dropped
    rw [decide_eq_true_eq] at kept
    by_contra refusal
    have bounds := trigger'.bounds
    have together := ok.nested x y trigger trigger' after before refusal (by omega) kept.2
    omega

/-- The flags noted by `read`: those noted by `fed`, the cut ones and the read's own. -/
theorem notedBy_split (ordered : fed ≤ read) :
    notedBy stream read = notedBy stream fed ++
      (((taken stream).filter fun x =>
          decide (x.start < fed ∧ fed < x.stop ∧ x.stop ≤ read)).filterMap TriggerObject.billed ++
        ((taken stream).filter fun x =>
          decide (fed ≤ x.start ∧ x.stop ≤ read)).filterMap TriggerObject.billed) := by
  have nonempty : ∀ x ∈ taken stream, x.start < x.stop := by
    intro x member
    have := (taken_triggerAt member).bounds
    omega
  unfold notedBy
  rw [← List.filterMap_append, ← List.filterMap_append,
    Matcher.filter_append_filter (taken_ordered stream),
    Matcher.filter_append_filter (taken_ordered stream)]
  · congr 1
    apply List.filter_congr
    intro x member
    have := nonempty x member
    rw [Bool.eq_iff_iff]
    simp only [Bool.or_eq_true, decide_eq_true_eq]
    omega
  · intro x member y member' behind
    have := nonempty x member
    have := nonempty y member'
    simp only [Bool.or_eq_true, decide_eq_true_eq, decide_eq_false_iff_not]
    omega
  · intro x member
    have := nonempty x member
    simp only [Bool.or_eq_false_iff, decide_eq_true_eq, decide_eq_false_iff_not]
    omega
  · intro x member y member' behind
    have := nonempty x member
    have := nonempty y member'
    rw [decide_eq_true_eq, decide_eq_false_iff_not]
    omega
  · intro x member
    rw [decide_eq_true_eq, decide_eq_false_iff_not]
    omega

/-- One read notes the triggers that end in it. -/
theorem noteTriggers_read (spans : Spans stream) (nests : Nests stream)
    (ok : ReadOk stream fed read) (ordered : fed ≤ read) (whole : read ≤ stream.length)
    {s : StreamUsage} (tail : s.trigTail = part stream (fed - 256) fed)
    (noted : s.triggers = noteAll {} (notedBy stream fed)) :
    (s.noteTriggers (part stream fed read)).triggers = noteAll {} (notedBy stream read) := by
  have size : s.trigTail.length = fed - (fed - 256) := by
    rw [tail, part_length]
    omega
  have joint : s.trigTail ++ (part stream fed read).take StreamUsage.kTrigTail =
      part stream (fed - 256) (min read (fed + 256)) := by
    have head : (part stream fed read).take StreamUsage.kTrigTail =
        part stream fed (min read (fed + 256)) := by
      rw [StreamUsage.kTrigTail, part, part, List.take_drop, List.take_take, Nat.min_comm]
    rw [tail, head]
    exact part_append (by omega) (by omega) (by omega)
  have cut := cut_noted spans nests ok ordered
  have unseen : (!s.trigTail.isEmpty && StreamUsage.mayStart s.trigTail) = false →
      ((taken stream).filter fun x =>
        decide (x.start < fed ∧ fed < x.stop ∧ x.stop ≤ read)).filterMap
          TriggerObject.billed = [] := by
    intro closed
    rw [List.filter_eq_nil_iff.mpr]
    · rfl
    · intro x member selected
      rw [decide_eq_true_eq] at selected
      have trigger := taken_triggerAt member
      have bounds := trigger.bounds
      have short := spans x trigger
      unfold StreamUsage.kTrigTail at short
      obtain ⟨value, object, -⟩ := trigger
      have text := object.text
      rw [(triggerKey_member object.member).2] at text
      have shown : StreamUsage.mayStart s.trigTail = true := by
        rw [tail]
        exact StreamUsage.mayStart_of_key text (by omega) selected.1 (by omega)
      have nonempty : s.trigTail.isEmpty = false := by
        rw [List.isEmpty_eq_false_iff_exists_mem, ← List.length_pos_iff_exists_mem]
        omega
      rw [shown, nonempty] at closed
      exact Bool.noConfusion closed
  rw [StreamUsage.noteTriggers_eq, joint, size, cut, own_noted nests ok, noted, noteAll_append,
    notedBy_split ordered]
  cases open' : (!s.trigTail.isEmpty && StreamUsage.mayStart s.trigTail) with
  | true => rw [if_pos rfl]
  | false => rw [if_neg Bool.false_ne_true, unseen open']

end Read

/-! ## All reads -/

/-- Each read cuts the triggers that end in it well. -/
def ReadsOk (stream : Bytes) (cuts : List Bytes) : Prop :=
  ∀ front bytes back, cuts = front ++ bytes :: back →
    ReadOk stream front.flatten.length (front.flatten.length + bytes.length)

theorem feedAll_noted {stream : Bytes} (spans : Spans stream) (nests : Nests stream) :
    ∀ (cuts front : List Bytes) (s : StreamUsage), (front ++ cuts).flatten = stream →
      ReadsOk stream (front ++ cuts) →
      s.trigTail = part stream (front.flatten.length - 256) front.flatten.length →
      s.triggers = noteAll {} (notedBy stream front.flatten.length) →
      (s.feedAll cuts).triggers = noteAll {} (notedBy stream stream.length) := by
  intro cuts
  induction cuts with
  | nil =>
      intro front s whole _ _ noted
      rw [List.append_nil] at whole
      rw [← whole]
      rwa [← whole] at noted
  | cons bytes cuts inductionHypothesis =>
      intro front s whole ok tail noted
      have size := congrArg List.length whole
      rw [List.flatten_append, List.flatten_cons, List.length_append, List.length_append] at size
      have next : bytes = part stream front.flatten.length
          (front.flatten.length + bytes.length) := by
        rw [part, ← whole, List.flatten_append, List.flatten_cons, List.take_append,
          List.take_of_length_le (Nat.le_add_right _ _), Nat.add_sub_cancel_left,
          List.take_left, List.drop_left]
      obtain ⟨triggers, kept⟩ := s.feed_triggers bytes
      have grown : (front ++ [bytes]).flatten.length = front.flatten.length + bytes.length := by
        rw [List.flatten_append, List.flatten_singleton, List.length_append]
      apply inductionHypothesis (front ++ [bytes]) (s.feed bytes)
      · rwa [List.append_assoc, List.singleton_append]
      · rwa [List.append_assoc, List.singleton_append]
      · rw [kept, tail, grown]
        conv_lhs => rw [next]
        exact keepTail_part (Nat.le_add_right _ _) (by omega)
      · rw [triggers, grown]
        conv_lhs => rw [next]
        exact noteTriggers_read spans nests (ok front bytes cuts rfl) (Nat.le_add_right _ _)
          (by omega) tail noted

/-- However a stream is cut into reads that cut its triggers well, the triggers noted
are those of the whole stream. -/
theorem triggers_exact (calls : Bool) (stream : Bytes) (spans : Spans stream)
    (nests : Nests stream) (cuts : List Bytes) (cut : cuts.flatten = stream)
    (ok : ReadsOk stream cuts) :
    ((StreamUsage.reset calls).feedAll cuts).triggers = scanRefusalTriggers stream {} := by
  rw [feedAll_noted spans nests cuts [] (StreamUsage.reset calls) cut ok, scanRefusalTriggers_eq]
  · have every : (taken stream).filter (fun x => decide (x.stop ≤ stream.length)) =
        taken stream := by
      rw [List.filter_eq_self]
      intro x member
      rw [decide_eq_true_eq]
      exact (taken_triggerAt member).bounds.2.2
    rw [notedBy, every]
    rfl
  · rw [List.flatten_nil, List.length_nil, part, List.take_zero, List.drop_nil]
    rfl
  · have none : notedBy stream 0 = [] := by
      unfold notedBy
      rw [List.filter_eq_nil_iff.mpr]
      · rfl
      · intro x member
        have := (taken_triggerAt member).bounds
        rw [decide_eq_true_eq]
        omega
    rw [List.flatten_nil, List.length_nil, none]
    rfl

/-- One refusal. -/
def refusalStream : Bytes :=
  ascii "\x7b\"trigger\":\x7b\"type\":\"refusal\",\"category\":\"bio\"\x7d\x7d"

theorem refusalStream_start {x : TriggerObject} (trigger : TriggerAt refusalStream x) :
    x.start = 1 := by
  have bounds := trigger.bounds
  have size : refusalStream.length = 47 := by decide
  have only : ∀ p < 47, kTrigger.isPrefixOf (refusalStream.drop p) = true → p = 1 := by
    decide +kernel
  obtain ⟨value, object, -⟩ := trigger
  have text := object.text
  rw [(triggerKey_member object.member).2] at text
  exact only _ (by omega) (located_iff_isPrefixOf.mpr text)

theorem refusalStream_spans : Spans refusalStream := by
  intro x trigger
  have bounds := trigger.bounds
  have size : refusalStream.length = 47 := by decide
  unfold StreamUsage.kTrigTail
  omega

/-- The refusal cut inside its object. -/
theorem triggers_exact_refusal :
    ((StreamUsage.reset false).feedAll
        [refusalStream.take 20, refusalStream.drop 20]).triggers =
      scanRefusalTriggers refusalStream {} := by
  have apart : ∀ fed read, fed ≠ 1 → ReadOk refusalStream fed read := by
    intro fed read other
    constructor
    · intro x member _ _ _
      have trigger := taken_triggerAt member
      have start := refusalStream_start trigger
      have bounds := trigger.bounds
      omega
    · intro x y trigger trigger' after
      rw [refusalStream_start trigger, refusalStream_start trigger'] at after
      exact absurd after (Nat.lt_irrefl 1)
  apply triggers_exact false refusalStream refusalStream_spans
  · intro x y trigger trigger' after
    rw [refusalStream_start trigger, refusalStream_start trigger'] at after
    exact absurd after (Nat.lt_irrefl 1)
  · decide +kernel
  · intro front bytes back split
    apply apart
    rcases front with _ | ⟨first, front⟩
    · exact Nat.zero_ne_one
    · rw [List.cons_append, List.cons.injEq] at split
      rw [List.flatten_cons, List.length_append, ← split.1]
      have size : (refusalStream.take 20).length = 20 := by decide
      omega

/-- The refusal cut between its separator and its key is not noted. -/
theorem triggers_missed :
    Spans refusalStream ∧
      ¬ ∀ cuts : List Bytes, cuts.flatten = refusalStream →
        ((StreamUsage.reset false).feedAll cuts).triggers =
          scanRefusalTriggers refusalStream {} := by
  refine ⟨refusalStream_spans, fun exact' => ?_⟩
  have noted := exact' [refusalStream.take 1, refusalStream.drop 1] (by decide +kernel)
  exact absurd noted (by decide +kernel)

end OpenAi
end Llmbridge
