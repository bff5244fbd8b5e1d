import Llmbridge.Provider.StreamUsageCorrect

/-!
# Refusal triggers in a part of a stream

`note_triggers` looks at a read, and at the bytes around the cut in front of it.  The
trigger objects of such a part are the stream's own that lie in it, without those that
only a hidden object of the whole stream holds.
-/

namespace Llmbridge
namespace OpenAi

open Rfc8259
open JsonScan
open Scanning (Matcher)

/-! ## Trigger objects -/

/-- The one key. -/
def triggerKey : KeyNames Unit where
  list := [(ascii "trigger", ())]
  letters := by
    intro name member
    rw [List.mem_singleton.mp member]
    exact ⟨by decide, List.all_eq_true.mp (by decide)⟩
  distinct := by decide

theorem triggerKey_member {name : Bytes × Unit} (member : name ∈ triggerKey.list) :
    name = (ascii "trigger", ()) ∧ quoted name.1 = kTrigger := by
  obtain rfl := List.mem_singleton.mp member
  exact ⟨rfl, by decide⟩

/-- An object under the key, from its separator to its end. -/
structure TriggerObject where
  sep : Nat
  start : Nat
  stop : Nat
  object : Bytes
  deriving DecidableEq, Repr

/-- The trigger that it is, when it is a refusal's. -/
def TriggerObject.refusal (x : TriggerObject) : Option Trigger :=
  triggerOf x.start x.stop x.object

/-- Whether it is billed, when it is a refusal's. -/
def TriggerObject.billed (x : TriggerObject) : Option Bool :=
  x.refusal.map Trigger.billed

/-- The same object counted from `lo` bytes earlier. -/
def TriggerObject.shift (lo : Nat) (x : TriggerObject) : TriggerObject :=
  ⟨lo + x.sep, lo + x.start, lo + x.stop, x.object⟩

@[simp] theorem shift_billed (lo : Nat) (x : TriggerObject) :
    (x.shift lo).billed = x.billed := by
  unfold TriggerObject.billed TriggerObject.refusal TriggerObject.shift triggerOf
  dsimp only
  split
  · rfl
  · rfl

/-- At `x.start` stands a trigger's key, and its value is the object of `x`. -/
def TriggerAt (b : Bytes) (x : TriggerObject) : Prop :=
  ∃ value, ObjectAt triggerKey b x.sep x.start value x.stop (ascii "trigger", ()) ∧
    x.object = substr b value (x.stop - value)

theorem TriggerAt.bounds {b : Bytes} {x : TriggerObject} (trigger : TriggerAt b x) :
    x.sep < x.start ∧ x.start + 9 < x.stop ∧ x.stop ≤ b.length := by
  obtain ⟨value, object, -⟩ := trigger
  have bounds := object.bounds
  have nine : (quoted (ascii "trigger")).length = 9 := by decide
  dsimp only at bounds
  omega

/-- A key is behind one separator. -/
theorem lookBack_eq {b : Bytes} {sep start len value : Nat} (key : KeyAt b sep start len value) :
    lookBack b start - 1 = sep := by
  have inside : start ≤ b.length := by
    have := key.inside
    have := key.value_lt
    omega
  have run := lookBack_run inside
  have le := run.ordered
  by_cases none : lookBack b start = 0
  · obtain ⟨c, byte, ws⟩ := run.each sep (by omega) key.sep_lt
    rw [key.before_ends c byte] at ws
    exact Bool.noConfusion ws
  · exact WsRun.start_unique (by rwa [Nat.sub_add_cancel (by omega)]) key.lead
      (fun c => lookBack_ends inside none) key.before_ends (by omega) key.sep_lt

/-- The trigger objects of a text. -/
def triggerMatcher (b : Bytes) : Matcher TriggerObject :=
  triggerKey.matcher (fun p e _ object => ⟨lookBack b p - 1, p, e, object⟩) b

theorem triggerMatcher_eq (b : Bytes) :
    (triggerMatcher b).hit =
      triggerKey.hit (fun p e _ object => ⟨lookBack b p - 1, p, e, object⟩) b := rfl

theorem triggerMatcher_hit {b : Bytes} {p e : Nat} {x : TriggerObject} :
    (triggerMatcher b).hit p = some (e, x) ↔ TriggerAt b x ∧ x.start = p ∧ x.stop = e := by
  rw [triggerMatcher_eq, KeyNames.hit_eq_some]
  constructor
  · rintro ⟨sep, value, name, object, rfl⟩
    obtain ⟨rfl, -⟩ := triggerKey_member object.member
    refine ⟨⟨value, ?_, rfl⟩, rfl, rfl⟩
    dsimp only
    rwa [lookBack_eq object.key]
  · rintro ⟨⟨value, object, text⟩, rfl, rfl⟩
    refine ⟨x.sep, value, _, object, ?_⟩
    rw [lookBack_eq object.key, ← text]

theorem triggerMatcher_miss {b : Bytes} {p : Nat} (other : ¬ Located b p kTrigger) :
    (triggerMatcher b).hit p = none := by
  cases hit : (triggerMatcher b).hit p with
  | none => rfl
  | some taken =>
      obtain ⟨⟨value, object, -⟩, rfl, -⟩ :=
        triggerMatcher_hit.mp (show (triggerMatcher b).hit p = some (taken.1, taken.2) from hit)
      have text := object.text
      rw [(triggerKey_member object.member).2] at text
      exact absurd text other

theorem triggerMatcher_places {b : Bytes} {p e : Nat} {x : TriggerObject}
    (hit : (triggerMatcher b).hit p = some (e, x)) : x.start = p ∧ x.stop = e :=
  (triggerMatcher_hit.mp hit).2

/-- At a place where the key stands, the matcher does what the loop does. -/
theorem triggerMatcher_at {b : Bytes} {p : Nat} (located : Located b p kTrigger) :
    (triggerMatcher b).hit p =
      (objectAt b p kTrigger.length).map fun place =>
        (place.2, ⟨lookBack b p - 1, p, place.2, substr b place.1 (place.2 - place.1)⟩) := by
  have here : triggerKey.here (b.drop p) = some (ascii "trigger", ()) := by
    apply KeyNames.here_eq_some.mpr
    refine ⟨List.mem_singleton_self _, ?_⟩
    rwa [show quoted (ascii "trigger", ()).1 = kTrigger by decide]
  rw [triggerMatcher_eq, KeyNames.hit, here, Option.bind_some,
    show quoted (ascii "trigger", ()).1 = kTrigger by decide]

/-- The loop finds the refusals among the objects found. -/
theorem triggerLoop_eq (s : Bytes) :
    ∀ (fuel start : Nat), s.length - start < fuel →
      triggerLoop s fuel start =
        ((triggerMatcher s).found start).filterMap TriggerObject.refusal := by
  intro fuel
  induction fuel with
  | zero =>
      intro start enough
      omega
  | succ fuel inductionHypothesis =>
      intro start enough
      rw [triggerLoop]
      cases next : memmem s kTrigger start with
      | none =>
          have nowhere : (triggerMatcher s).found start = [] :=
            (triggerMatcher s).found_none fun r after =>
              triggerMatcher_miss (memmem_eq_none next r after)
          rw [nowhere]
          rfl
      | some p =>
          obtain ⟨after, located, earlier⟩ := memmem_eq_some next
          have inside := (List.getElem?_eq_some_iff.mp located.head).1
          have skipped := (triggerMatcher s).found_skip after fun r from_start before =>
            triggerMatcher_miss (earlier r from_start before)
          have here := triggerMatcher_at located
          rw [skipped]
          dsimp only
          cases object : objectAt s p kTrigger.length with
          | none =>
              rw [object, Option.map_none] at here
              rw [(triggerMatcher s).found_miss here]
              exact inductionHypothesis _ (by omega)
          | some place =>
              rw [object, Option.map_some] at here
              have bounds := (triggerMatcher s).forward here
              rw [(triggerMatcher s).found_take here, List.filterMap_cons]
              dsimp only
              rw [inductionHypothesis _ (by omega)]
              unfold TriggerObject.refusal
              cases triggerOf p place.2 (substr s place.1 (place.2 - place.1)) with
              | none => rfl
              | some t => rfl

/-- The refusal triggers in `s`. -/
theorem eachTrigger_eq (s : Bytes) :
    eachTrigger s = ((triggerMatcher s).found 0).filterMap TriggerObject.refusal :=
  triggerLoop_eq s _ 0 (by omega)

theorem refusal_place {x : TriggerObject} {t : Trigger} (refusal : x.refusal = some t) :
    t.start = x.start ∧ t.stop = x.stop := by
  unfold TriggerObject.refusal triggerOf at refusal
  dsimp only at refusal
  split at refusal
  · rw [← Option.some.inj refusal]
    exact ⟨rfl, rfl⟩
  · cases refusal

/-! ## Parts of a stream -/

/-- It lies between `lo` and `hi`. -/
def TriggerObject.within (lo hi : Nat) (x : TriggerObject) : Bool :=
  decide (lo ≤ x.sep ∧ x.stop ≤ hi)

theorem TriggerAt.part {b : Bytes} {lo hi : Nat} {x : TriggerObject} :
    TriggerAt (part b lo hi) x ↔ TriggerAt b (x.shift lo) ∧ lo + x.stop ≤ hi := by
  constructor
  · rintro ⟨value, object, text⟩
    obtain ⟨whole, inside⟩ := ObjectAt.part.mp object
    refine ⟨⟨lo + value, whole, ?_⟩, inside⟩
    rw [TriggerObject.shift, text, substr_part inside]
  · rintro ⟨⟨value, object, text⟩, inside⟩
    have bounds := object.bounds
    dsimp only [TriggerObject.shift] at object text bounds
    obtain ⟨v, rfl⟩ : ∃ v, value = lo + v := ⟨value - lo, by omega⟩
    refine ⟨v, ObjectAt.part.mpr ⟨object, inside⟩, ?_⟩
    rw [text, substr_part inside]

/-- The objects of a part are those that lie in it. -/
theorem triggerMatcher_part (b : Bytes) (lo hi : Nat) :
    ((triggerMatcher b).restrict (TriggerObject.within lo hi)).found lo =
      ((triggerMatcher (part b lo hi)).found 0).map (TriggerObject.shift lo) := by
  refine @Matcher.found_shift _ _ _ (triggerMatcher (part b lo hi)) lo _ ?_ 0
  intro r
  apply Option.ext
  rintro ⟨e, x⟩
  rw [Option.map_eq_some_iff]
  change (((triggerMatcher b).hit (lo + r)).filter _) = some (e, x) ↔ _
  rw [Option.filter_eq_some_iff, triggerMatcher_hit]
  simp only [TriggerObject.within, decide_eq_true_eq]
  constructor
  · rintro ⟨⟨trigger, start, rfl⟩, after, before⟩
    have bounds := trigger.bounds
    refine ⟨(x.stop - lo, ⟨x.sep - lo, x.start - lo, x.stop - lo, x.object⟩), ?_, ?_⟩
    · rw [triggerMatcher_hit, TriggerAt.part]
      have same : TriggerObject.shift lo ⟨x.sep - lo, x.start - lo, x.stop - lo, x.object⟩ = x := by
        unfold TriggerObject.shift
        dsimp only
        rw [Nat.add_sub_cancel' after, Nat.add_sub_cancel' (by omega),
          Nat.add_sub_cancel' (by omega)]
      rw [same]
      exact ⟨⟨trigger, by dsimp only; omega⟩, by dsimp only; omega, rfl⟩
    · unfold TriggerObject.shift
      dsimp only
      rw [Nat.add_sub_cancel' after, Nat.add_sub_cancel' (by omega),
        Nat.add_sub_cancel' (by omega)]
  · rintro ⟨⟨e', y⟩, hit, same⟩
    obtain ⟨trigger, start, stop⟩ := triggerMatcher_hit.mp hit
    obtain ⟨whole, inside⟩ := TriggerAt.part.mp trigger
    rw [Prod.mk.injEq] at same
    obtain ⟨rfl, rfl⟩ := same
    exact ⟨⟨whole, by rw [← start]; rfl, by rw [← stop]; rfl⟩, Nat.le_add_right lo _, inside⟩

/-- A trigger object that begins inside another ends inside it, as in every JSON text. -/
def Nests (stream : Bytes) : Prop :=
  ∀ x y, TriggerAt stream x → TriggerAt stream y → x.start < y.start → y.start < x.stop →
    y.stop ≤ x.stop

/-- What is selected in a part is selected in the stream, where no object that reaches
out of the part holds what is selected in it. -/
theorem selected_part {β : Type} {stream : Bytes} {lo hi : Nat} {sel : TriggerObject → Option β}
    (nests : Nests stream)
    (inner : ∀ x y, TriggerAt stream x → TriggerAt stream y → x.within lo hi = false →
      y.within lo hi = true → x.start < y.start → y.start < x.stop → sel y = none) :
    (((triggerMatcher (part stream lo hi)).found 0).filterMap fun x => sel (x.shift lo)) =
      (((triggerMatcher stream).found 0).filter (TriggerObject.within lo hi)).filterMap sel := by
  have skipped : ((triggerMatcher stream).restrict (TriggerObject.within lo hi)).found 0 =
      ((triggerMatcher stream).restrict (TriggerObject.within lo hi)).found lo := by
    apply Matcher.found_skip _ (Nat.zero_le lo)
    intro r _ before
    cases hit : (triggerMatcher stream).hit r with
    | none => exact Matcher.restrict_miss hit
    | some taken =>
        apply Matcher.restrict_dropped hit
        obtain ⟨trigger, start, -⟩ := triggerMatcher_hit.mp hit
        have bounds := trigger.bounds
        rw [TriggerObject.within, decide_eq_false_iff_not]
        omega
  rw [← Matcher.filterMap_restrict, skipped, triggerMatcher_part, List.filterMap_map]
  · rfl
  · intro p e x q e' y hit dropped after before hit' kept
    obtain ⟨trigger, rfl, rfl⟩ := triggerMatcher_hit.mp hit
    obtain ⟨trigger', rfl, rfl⟩ := triggerMatcher_hit.mp hit'
    exact ⟨inner x y trigger trigger' dropped kept after before,
      nests x y trigger trigger' after before⟩

/-! ## One read -/

/-- The flags of some refusal triggers, noted in turn. -/
def noteAll (t : RefusalTriggers) (flags : List Bool) : RefusalTriggers :=
  flags.foldl addTrigger t

theorem noteAll_append (t : RefusalTriggers) (first second : List Bool) :
    noteAll (noteAll t first) second = noteAll t (first ++ second) :=
  List.foldl_append.symm

theorem scanRefusalTriggers_eq (bytes : Bytes) (t : RefusalTriggers) :
    scanRefusalTriggers bytes t =
      noteAll t (((triggerMatcher bytes).found 0).filterMap TriggerObject.billed) := by
  have flags : ((triggerMatcher bytes).found 0).filterMap TriggerObject.billed =
      (eachTrigger bytes).map Trigger.billed := by
    rw [eachTrigger_eq, List.map_filterMap]
    rfl
  rw [flags, noteAll, List.foldl_map]
  rfl

/-- The flag of a trigger that is cut at `place`. -/
def TriggerObject.cutAt (place : Nat) (x : TriggerObject) : Option Bool :=
  if x.start < place ∧ place < x.stop then x.billed else none

theorem foldl_cut (n : Nat) (t : RefusalTriggers) (xs : List TriggerObject) :
    (xs.filterMap TriggerObject.refusal).foldl
        (fun t found => if found.start < n ∧ n < found.stop then addTrigger t found.billed else t)
        t =
      noteAll t (xs.filterMap (TriggerObject.cutAt n)) := by
  induction xs generalizing t with
  | nil => rfl
  | cons x xs inductionHypothesis =>
      rw [List.filterMap_cons, List.filterMap_cons]
      cases refusal : x.refusal with
      | none =>
          have uncounted : x.cutAt n = none := by
            rw [TriggerObject.cutAt, TriggerObject.billed, refusal, Option.map_none, ite_self]
          rw [uncounted]
          exact inductionHypothesis t
      | some found =>
          obtain ⟨start, stop⟩ := refusal_place refusal
          have flag : x.cutAt n =
              if found.start < n ∧ n < found.stop then some found.billed else none := by
            rw [TriggerObject.cutAt, TriggerObject.billed, refusal, start, stop]
            rfl
          rw [flag]
          dsimp only
          rw [List.foldl_cons]
          split
          · exact inductionHypothesis _
          · exact inductionHypothesis _

namespace StreamUsage

/-- What one read notes: the triggers cut where it begins, and those of its own bytes. -/
theorem noteTriggers_eq (s : StreamUsage) (bytes : Bytes) :
    (s.noteTriggers bytes).triggers =
      noteAll s.triggers
        ((if !s.trigTail.isEmpty && mayStart s.trigTail then
            ((triggerMatcher (s.trigTail ++ bytes.take kTrigTail)).found 0).filterMap
              (TriggerObject.cutAt s.trigTail.length)
          else []) ++
          ((triggerMatcher bytes).found 0).filterMap TriggerObject.billed) := by
  unfold noteTriggers
  dsimp only
  rw [scanRefusalTriggers_eq, ← noteAll_append]
  split
  · rw [eachTrigger_eq, foldl_cut]
  · rfl

theorem feed_triggers (s : StreamUsage) (bytes : Bytes) :
    (s.feed bytes).triggers = (s.noteTriggers bytes).triggers ∧
      (s.feed bytes).trigTail = keepTail kTrigTail s.trigTail bytes := by
  rw [feed_eq]
  unfold prepared
  dsimp only
  split
  · exact ⟨rfl, rfl⟩
  · exact ⟨rfl, rfl⟩

theorem located_part {b needle : Bytes} {lo hi start : Nat} (some : 0 < needle.length) :
    Located (part b lo hi) start needle ↔
      Located b (lo + start) needle ∧ lo + start + needle.length ≤ hi := by
  cases needle with
  | nil => exact absurd some (Nat.lt_irrefl 0)
  | cons c bytes => exact Located.part

/-- The kept bytes show the key of a trigger that begins in them. -/
theorem mayStart_of_key {stream : Bytes} {lo fed start : Nat}
    (located : Located stream start kTrigger) (after : lo ≤ start) (before : start < fed)
    (whole : fed ≤ stream.length) : mayStart (part stream lo fed) = true := by
  have size : (part stream lo fed).length = fed - lo := by
    rw [part_length]
    omega
  have nine : kTrigger.length = 9 := by decide
  unfold mayStart
  rw [Bool.or_eq_true]
  by_cases inside : start + 9 ≤ fed
  · left
    have here : Located (part stream lo fed) (start - lo) kTrigger := by
      rw [located_part (by omega), Nat.add_sub_cancel' after, nine]
      exact ⟨located, inside⟩
    cases found : memmem (part stream lo fed) kTrigger 0 with
    | none => exact absurd here (memmem_eq_none found _ (Nat.zero_le _))
    | some p => rfl
  · right
    rw [List.any_eq_true]
    refine ⟨fed - start, List.mem_range'_1.mpr (by omega), ?_⟩
    rw [Bool.and_eq_true, decide_eq_true_eq, beq_iff_eq, size, part_drop]
    refine ⟨by omega, ?_⟩
    obtain ⟨rest, shape⟩ := located
    rw [part, List.drop_take, show lo + (fed - lo - (fed - start)) = start by omega, shape,
      List.take_append_of_le_length (by omega)]

end StreamUsage

end OpenAi
end Llmbridge
