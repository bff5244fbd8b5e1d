import Llmbridge.Provider.StreamUsage
import Llmbridge.Provider.ReadUsage

/-!
# Declined attempts

What `usage.iterations` says of the attempts that were declined before a fallback ran,
and which of them are billed once the refusals' categories are known.
-/

namespace Llmbridge
namespace OpenAi

open Rfc8259
open JsonScan

/-! ## The entries read -/

/-- One entry, as its members state it. -/
def iterationOf (entry : Bytes) : Iteration :=
  (forEachMember (fun (e : Iteration) k v => (e.member k v, true)) entry {}).2

/-- The entries of an `iterations` array. -/
def iterationsIn (arr : Bytes) (es : List Iteration) : List Iteration :=
  (forEachElement (fun (es : List Iteration) e => es ++ [iterationOf e]) arr es).2

/-- The entries of the `iterations` arrays that `read_members` comes to, in order. -/
def iterationsOf : (levels : Nat) → (obj parent : Bytes) → List Iteration → List Iteration
  | 0, _, _, es => es
  | levels + 1, obj, parent, es =>
      (forEachMember (fun (es : List Iteration) k v =>
        if v.head? = some 0x7b then
          (if parent = [] then iterationsOf levels v k es else es, true)
        else if parent = [] ∧ v.head? = some 0x5b then
          (if k = ascii "iterations" then iterationsIn v es else es, true)
        else (es, true)) obj es).2

/-- The entries that `usage_of` reads. -/
def entriesOf (object : Bytes) : List Iteration :=
  iterationsOf (object.length + 1) object [] []

/-- The sums over the entries are the same. -/
structure SameAttempts (r r' : Raw) : Prop where
  declined : r.declined = r'.declined
  outputDeclined : r.outputDeclined = r'.outputDeclined
  held : r.held = r'.held
  heldOver : r.heldOver = r'.heldOver
  fallback : r.fallback = r'.fallback

/-- An iteration counts the same where the attempts before are the same. -/
theorem SameAttempts.iteration {r r' : Raw} (same : SameAttempts r r') (e : Iteration) :
    SameAttempts (r.iteration e) (r'.iteration e) := by
  obtain ⟨declined, outputDeclined, held, heldOver, fallback⟩ := same
  unfold Raw.iteration
  dsimp only
  rw [declined, held]
  split
  · exact ⟨rfl, outputDeclined, rfl, heldOver, fallback⟩
  split
  · split
    · exact ⟨rfl, by rw [outputDeclined], rfl, heldOver, fallback⟩
    split
    · exact ⟨rfl, outputDeclined, rfl, heldOver, fallback⟩
    · exact ⟨rfl, outputDeclined, rfl, by rw [heldOver], fallback⟩
  split
  · exact ⟨rfl, outputDeclined, rfl, heldOver, rfl⟩
  · exact ⟨declined, outputDeclined, held, heldOver, fallback⟩

/-- The sums over some entries. -/
def tally (es : List Iteration) : Raw :=
  es.foldl Raw.iteration {}

/-- One more iteration. -/
theorem tally_concat (es : List Iteration) (e : Iteration) :
    tally (es ++ [e]) = (tally es).iteration e := by
  rw [tally, tally, List.foldl_append]
  rfl

/-- The reader tallies the iterations of the array. -/
theorem readIterations_tally (arr : Bytes) {r : Raw} {es : List Iteration}
    (same : SameAttempts r (tally es)) :
    SameAttempts (readIterations arr r) (tally (iterationsIn arr es)) := by
  refine @forEachElement_together _ _ _ _ (fun r es => SameAttempts r (tally es)) ?_ arr r es same
  intro r es e same
  rw [tally_concat]
  exact same.iteration (iterationOf e)

/-- Setting a count changes no attempt. -/
theorem set_sameAttempts : ∀ key ∈ kUsageKeys, ∀ r v, SameAttempts (key.set r v) r := by
  intro key member r v
  simp only [kUsageKeys, List.mem_cons, List.not_mem_nil, or_false] at member
  rcases member with rfl | rfl | rfl | rfl | rfl | rfl | rfl | rfl | rfl | rfl | rfl | rfl | rfl |
    rfl | rfl | rfl | rfl | rfl | rfl | rfl | rfl | rfl | rfl | rfl | rfl <;>
    exact ⟨rfl, rfl, rfl, rfl, rfl⟩

/-- The same as the same. -/
theorem SameAttempts.trans {r s w : Raw} (first : SameAttempts r s) (second : SameAttempts s w) :
    SameAttempts r w :=
  ⟨first.declined.trans second.declined, first.outputDeclined.trans second.outputDeclined,
    first.held.trans second.held, first.heldOver.trans second.heldOver,
    first.fallback.trans second.fallback⟩

/-- The reading of a usage object sums the entries it comes to. -/
theorem readMembers_tally :
    ∀ (levels : Nat) (obj parent : Bytes) {r : Raw} {es : List Iteration},
      SameAttempts r (tally es) →
      SameAttempts (readMembers kUsageKeys levels obj parent r)
        (tally (iterationsOf levels obj parent es)) := by
  intro levels
  induction levels with
  | zero => exact fun _ _ _ _ same => same
  | succ levels inductionHypothesis =>
      intro obj parent r es same
      rw [readMembers_succ, iterationsOf]
      refine @forEachMember_together _ _ _ _ (fun r es => SameAttempts r (tally es)) ?_ obj r es
        same
      intro r es k v same
      unfold readStep
      dsimp only
      split
      · split
        · exact ⟨inductionHypothesis v k same, rfl⟩
        · exact ⟨same, rfl⟩
      split
      · split
        · exact ⟨readIterations_tally v same, rfl⟩
        split
        · exact ⟨⟨same.declined, same.outputDeclined, same.held, same.heldOver, same.fallback⟩,
            rfl⟩
        split
        · exact ⟨⟨same.declined, same.outputDeclined, same.held, same.heldOver, same.fallback⟩,
            rfl⟩
        · exact ⟨same, rfl⟩
      split
      · split
        · exact ⟨⟨same.declined, same.outputDeclined, same.held, same.heldOver, same.fallback⟩,
            rfl⟩
        split
        · exact ⟨⟨same.declined, same.outputDeclined, same.held, same.heldOver, same.fallback⟩,
            rfl⟩
        · exact ⟨same, rfl⟩
      · cases found : kUsageKeys.find? fun key =>
            ascii key.name = k ∧ ascii key.parent = parent with
        | none => exact ⟨same, rfl⟩
        | some key =>
            exact ⟨(set_sameAttempts key (List.mem_of_find?_eq_some found) r _).trans same, rfl⟩

/-! ## The verdicts -/

/-- The attempts among the entries, the `message` ones. -/
def attemptsOf (es : List Iteration) : List Iteration :=
  es.filter fun e => e.type = ascii "message"

/-- What becomes of a declined attempt. -/
inductive Verdict
  | billed
  | notBilled
  | unverified
  deriving DecidableEq, Repr

/-- The verdict that a category gives. -/
def Verdict.ofNamed : Option Bool → Verdict
  | some true => .billed
  | some false => .notBilled
  | none => .unverified

/-- An attempt is billed where its trigger is. -/
theorem Verdict.ofNamed_billed (name : Option Bool) :
    (Verdict.ofNamed name = .billed) = (name = some true) := by
  rcases name with _ | _ | _ <;> decide

/-- It is unverified where no trigger names it. -/
theorem Verdict.ofNamed_unverified (name : Option Bool) :
    (Verdict.ofNamed name = .unverified) = (name = none) := by
  rcases name with _ | _ | _ <;> decide

/-- The verdict on an attempt and its position: one with output is billed, one without
is judged by its category when it is among the first `kMaxHeld` of these. -/
def verdict (t : RefusalTriggers) (attempts : List Iteration) (m : Iteration × Nat) : Verdict :=
  if 0 < m.1.out then .billed
  else if kMaxHeld ≤ (attempts.take m.2).countP (fun e => e.out ≤ 0) then .unverified
  else .ofNamed (t.named m.2)

/-- The attempts on which a verdict falls, each with its position. -/
def given (v : Verdict) (t : RefusalTriggers) (attempts : List Iteration) :
    List (Iteration × Nat) :=
  attempts.zipIdx.filter fun m => verdict t attempts m = v

/-- The whole prompt of an attempt. -/
def promptOf (m : Iteration × Nat) : Int :=
  atLeastZero m.1.fresh + atLeastZero m.1.read + atLeastZero m.1.write

/-- The part of it read from the cache. -/
def cachedOf (m : Iteration × Nat) : Int :=
  atLeastZero m.1.read

/-- The part of it written to the cache. -/
def writtenOf (m : Iteration × Nat) : Int :=
  atLeastZero m.1.write

/-- The output of an attempt. -/
def outOf (m : Iteration × Nat) : Int :=
  atLeastZero m.1.out

/-- A later attempt changes no earlier verdict. -/
theorem verdict_earlier (t : RefusalTriggers) (attempts : List Iteration) (last : Iteration)
    {m : Iteration × Nat} (within : m.2 ≤ attempts.length) :
    verdict t (attempts ++ [last]) m = verdict t attempts m := by
  unfold verdict
  rw [List.take_append_of_le_length within]

/-- A further attempt joins the list of its verdict, and no earlier verdict changes. -/
theorem given_concat (v : Verdict) (t : RefusalTriggers) (attempts : List Iteration)
    (last : Iteration) :
    given v t (attempts ++ [last]) =
      given v t attempts ++
        [(last, attempts.length)].filter (fun m => verdict t attempts m = v) := by
  unfold given
  rw [List.zipIdx_append, List.filter_append]
  congr 1
  · apply List.filter_congr
    intro m member
    have within : m.2 ≤ attempts.length := by
      have := List.snd_lt_of_mem_zipIdx member
      omega
    rw [verdict_earlier t attempts last within]
  · rw [Nat.zero_add, List.zipIdx_singleton]
    apply List.filter_congr
    intro m member
    rw [List.mem_singleton.mp member, verdict_earlier t attempts last le_rfl]

/-- The parts of a sum count one by one. -/
theorem atLeastZero_plus (sum v : Int) :
    atLeastZero (plus sum v) = atLeastZero sum + atLeastZero v := by
  unfold plus atLeastZero
  split <;> split <;> split <;> omega

/-- A count is not below zero. -/
theorem atLeastZero_nonneg (v : Int) : 0 ≤ atLeastZero v := by
  unfold atLeastZero
  split <;> omega

/-- A count that is not below zero is itself. -/
theorem atLeastZero_of_nonneg {v : Int} (nonneg : 0 ≤ v) : atLeastZero v = v := by
  unfold atLeastZero
  split <;> omega

/-! ## The sums by verdict -/

/-- The held attempts whose category is named so. -/
def heldNamed (t : RefusalTriggers) (name : Option Bool) (held : List HeldAttempt) :
    List HeldAttempt :=
  held.filter fun h => t.named h.index = name

/-- The sums kept while the entries are read account for every attempt. -/
structure Accounted (t : RefusalTriggers) (attempts : List Iteration) (r : Raw) : Prop where
  count : r.declined.n = attempts.length
  holding : attempts.length ≤ 256 →
    r.held.length = min kMaxHeld (attempts.countP fun e => e.out ≤ 0)
  signs : ∀ h ∈ r.held, 0 ≤ h.input ∧ 0 ≤ h.cached ∧ 0 ≤ h.cacheWrite
  untouched : r.outputDeclined.n = 0 → r.outputDeclined = {}
  billed : r.outputDeclined.n + (heldNamed t (some true) r.held).length =
    (given .billed t attempts).length
  unverified : r.heldOver + (heldNamed t none r.held).length =
    (given .unverified t attempts).length
  input : atLeastZero r.outputDeclined.fresh + atLeastZero r.outputDeclined.read +
      atLeastZero r.outputDeclined.write +
      ((heldNamed t (some true) r.held).map HeldAttempt.input).sum =
    ((given .billed t attempts).map promptOf).sum
  cached : atLeastZero r.outputDeclined.read +
      ((heldNamed t (some true) r.held).map HeldAttempt.cached).sum =
    ((given .billed t attempts).map cachedOf).sum
  cacheWrite : atLeastZero r.outputDeclined.write +
      ((heldNamed t (some true) r.held).map HeldAttempt.cacheWrite).sum =
    ((given .billed t attempts).map writtenOf).sum
  out : atLeastZero r.outputDeclined.out = ((given .billed t attempts).map outOf).sum

/-- No trigger is named past the last index. -/
theorem named_of_le (t : RefusalTriggers) {index : Nat} (past : 256 ≤ index) :
    t.named index = none := by
  unfold RefusalTriggers.named
  rw [if_neg]
  rw [kMaxTriggers]
  omega

/-- Without attempts nothing is owed. -/
theorem accounted_nil (t : RefusalTriggers) : Accounted t [] {} where
  count := rfl
  holding := fun _ => rfl
  signs := fun _ member => absurd member List.not_mem_nil
  untouched := fun _ => rfl
  billed := rfl
  unverified := rfl
  input := rfl
  cached := rfl
  cacheWrite := rfl
  out := rfl

variable {t : RefusalTriggers} {attempts : List Iteration} {r : Raw}

/-- An entry that is no attempt changes none of the sums. -/
theorem Accounted.otherEntry (accounted : Accounted t attempts r) {e : Iteration}
    (other : e.type ≠ ascii "message") : Accounted t attempts (r.iteration e) := by
  obtain ⟨count, holding, signs, untouched, billed, unverified, input, cached, cacheWrite, out⟩ :=
    accounted
  unfold Raw.iteration
  split
  · exact ⟨count, holding, signs, untouched, billed, unverified, input, cached, cacheWrite, out⟩
  split
  · exact ⟨count, holding, signs, untouched, billed, unverified, input, cached, cacheWrite, out⟩
  · exact ⟨count, holding, signs, untouched, billed, unverified, input, cached, cacheWrite, out⟩

/-- A `message` iteration is an attempt. -/
theorem iteration_message {e : Iteration} (message : e.type = ascii "message") :
    r.iteration e =
      let k := r.declined.n
      let r := { r with declined := r.declined.add e.fresh e.out e.read e.write e.model }
      if 0 < e.out then
        { r with
          outputDeclined := r.outputDeclined.add e.fresh e.out e.read e.write e.model }
      else if r.held.length < kMaxHeld ∧ k < 256 then
        let t := anthropicUsage e.fresh 0 e.read e.write (-1) (-1)
        { r with held := r.held ++ [{
            input := atLeastZero t.input
            cached := atLeastZero t.cached
            cacheWrite := atLeastZero t.cacheWrite
            index := k }] }
      else { r with heldOver := r.heldOver + 1 } := by
  unfold Raw.iteration
  rw [if_neg (by rw [message]; decide), if_pos message]

/-- A `fallback_message` says that the attempts were replaced. -/
theorem iteration_fallback (e : Iteration) :
    (r.iteration e).fallback = (r.fallback || decide (e.type = ascii "fallback_message")) := by
  unfold Raw.iteration
  split
  · rename_i compaction
    rw [compaction]
    exact (Bool.or_false _).symm
  split
  · rename_i message
    rw [message]
    dsimp only
    split
    · exact (Bool.or_false _).symm
    split
    · exact (Bool.or_false _).symm
    · exact (Bool.or_false _).symm
  split
  · rename_i fallback
    rw [decide_eq_true fallback]
    exact (Bool.or_true _).symm
  · rename_i other
    rw [decide_eq_false other]
    exact (Bool.or_false _).symm

/-- The parts of an iteration's usage. -/
theorem anthropicUsage_parts (fresh out read write : Int) :
    let u := anthropicUsage fresh out read write (-1) (-1)
    atLeastZero u.input = atLeastZero fresh + atLeastZero read + atLeastZero write ∧
      atLeastZero u.cached = atLeastZero read ∧
      atLeastZero u.cacheWrite = atLeastZero write ∧ u.out = out :=
  ⟨atLeastZero_of_nonneg (Int.add_nonneg (Int.add_nonneg (atLeastZero_nonneg fresh)
      (atLeastZero_nonneg read)) (atLeastZero_nonneg write)),
    atLeastZero_of_nonneg (atLeastZero_nonneg read),
    atLeastZero_of_nonneg (atLeastZero_nonneg write), rfl⟩

/-- An attempt with output is billed. -/
theorem Accounted.withOutput (accounted : Accounted t attempts r) {e : Iteration}
    (message : e.type = ascii "message") (output : 0 < e.out) :
    Accounted t (attempts ++ [e]) (r.iteration e) := by
  obtain ⟨count, holding, signs, untouched, billed, unverified, input, cached, cacheWrite, out⟩ :=
    accounted
  have judged : verdict t attempts (e, attempts.length) = .billed := if_pos output
  have joined : given .billed t (attempts ++ [e]) =
      given .billed t attempts ++ [(e, attempts.length)] := by
    rw [given_concat, List.filter_singleton, judged]
    rfl
  have passed : given .unverified t (attempts ++ [e]) = given .unverified t attempts := by
    rw [given_concat, List.filter_singleton, judged]
    exact List.append_nil _
  rw [iteration_message message]
  dsimp only
  rw [if_pos output]
  constructor
  case count => simp only [Attempts.add, count, List.length_append, List.length_singleton]
  case holding =>
    intro few
    rw [List.length_append] at few
    simp only [List.countP_append, List.countP_singleton, Int.not_le.mpr output, decide_false]
    exact holding (by omega)
  case signs => exact signs
  case untouched => exact fun none => absurd none (Nat.succ_ne_zero _)
  case billed =>
    rw [joined, List.length_append, List.length_singleton, ← billed]
    simp only [Attempts.add]
    omega
  case unverified => rw [passed, ← unverified]
  case input =>
    rw [joined, List.map_append, List.sum_append, ← input]
    simp only [Attempts.add, atLeastZero_plus, List.map_singleton, List.sum_singleton, promptOf]
    omega
  case cached =>
    rw [joined, List.map_append, List.sum_append, ← cached]
    simp only [Attempts.add, atLeastZero_plus, List.map_singleton, List.sum_singleton, cachedOf]
    omega
  case cacheWrite =>
    rw [joined, List.map_append, List.sum_append, ← cacheWrite]
    simp only [Attempts.add, atLeastZero_plus, List.map_singleton, List.sum_singleton, writtenOf]
    omega
  case out =>
    rw [joined, List.map_append, List.sum_append, ← out]
    simp only [Attempts.add, atLeastZero_plus, List.map_singleton, List.sum_singleton, outOf]

/-- An attempt held is judged by its category. -/
theorem Accounted.hold (accounted : Accounted t attempts r) {e : Iteration}
    (message : e.type = ascii "message") (noOutput : ¬0 < e.out)
    (room : r.held.length < kMaxHeld ∧ r.declined.n < 256) :
    Accounted t (attempts ++ [e]) (r.iteration e) := by
  obtain ⟨count, holding, signs, untouched, billed, unverified, input, cached, cacheWrite, out⟩ :=
    accounted
  have early : attempts.countP (fun e => e.out ≤ 0) < kMaxHeld := by
    have := holding (by omega)
    omega
  have judged : verdict t attempts (e, attempts.length) =
      .ofNamed (t.named attempts.length) := by
    unfold verdict
    rw [if_neg noOutput, List.take_length, if_neg (Nat.not_le.mpr early)]
  have billedNext : given .billed t (attempts ++ [e]) = given .billed t attempts ++
      if t.named attempts.length = some true then [(e, attempts.length)] else [] := by
    rw [given_concat, List.filter_singleton, judged, Bool.cond_decide]
    simp only [Verdict.ofNamed_billed]
  have unverifiedNext : given .unverified t (attempts ++ [e]) = given .unverified t attempts ++
      if t.named attempts.length = none then [(e, attempts.length)] else [] := by
    rw [given_concat, List.filter_singleton, judged, Bool.cond_decide]
    simp only [Verdict.ofNamed_unverified]
  have heldNext : ∀ name (h : HeldAttempt), heldNamed t name (r.held ++ [h]) =
      heldNamed t name r.held ++ if t.named h.index = name then [h] else [] := by
    intro name h
    rw [heldNamed, List.filter_append, List.filter_singleton, Bool.cond_decide, heldNamed]
  rw [iteration_message message]
  dsimp only
  rw [if_neg noOutput, if_pos room, count]
  constructor
  case count => simp only [Attempts.add, count, List.length_append, List.length_singleton]
  case holding =>
    intro few
    rw [List.length_append] at few
    simp only [List.length_append, List.countP_append, List.countP_singleton,
      Int.not_lt.mp noOutput, decide_true, if_true, List.length_singleton]
    rw [holding (by omega)]
    omega
  case signs =>
    intro h member
    rcases List.mem_append.mp member with member | member
    · exact signs h member
    · rw [List.mem_singleton.mp member]
      exact ⟨atLeastZero_nonneg _, atLeastZero_nonneg _, atLeastZero_nonneg _⟩
  case untouched => exact untouched
  case billed =>
    rw [billedNext, heldNext, List.length_append, List.length_append, ← billed]
    dsimp only
    split <;> simp only [List.length_singleton, List.length_nil] <;> omega
  case unverified =>
    rw [unverifiedNext, heldNext, List.length_append, List.length_append, ← unverified]
    dsimp only
    split <;> simp only [List.length_singleton, List.length_nil] <;> omega
  case input =>
    rw [billedNext, heldNext, List.map_append, List.sum_append, List.map_append,
      List.sum_append, ← input]
    dsimp only
    split
    · simp only [List.map_singleton, List.sum_singleton, promptOf, (anthropicUsage_parts _ _ _ _).1]
      omega
    · simp only [List.map_nil, List.sum_nil]
      omega
  case cached =>
    rw [billedNext, heldNext, List.map_append, List.sum_append, List.map_append,
      List.sum_append, ← cached]
    dsimp only
    split
    · simp only [List.map_singleton, List.sum_singleton, cachedOf,
        (anthropicUsage_parts _ _ _ _).2.1]
      omega
    · simp only [List.map_nil, List.sum_nil]
      omega
  case cacheWrite =>
    rw [billedNext, heldNext, List.map_append, List.sum_append, List.map_append,
      List.sum_append, ← cacheWrite]
    dsimp only
    split
    · simp only [List.map_singleton, List.sum_singleton, writtenOf,
        (anthropicUsage_parts _ _ _ _).2.2.1]
      omega
    · simp only [List.map_nil, List.sum_nil]
      omega
  case out =>
    rw [billedNext, List.map_append, List.sum_append, ← out]
    split
    · simp only [List.map_singleton, List.sum_singleton, outOf, atLeastZero, if_neg noOutput]
      omega
    · simp only [List.map_nil, List.sum_nil]
      omega

/-- An attempt past those held is not judged. -/
theorem Accounted.pass (accounted : Accounted t attempts r) {e : Iteration}
    (message : e.type = ascii "message") (noOutput : ¬0 < e.out)
    (noRoom : ¬(r.held.length < kMaxHeld ∧ r.declined.n < 256)) :
    Accounted t (attempts ++ [e]) (r.iteration e) := by
  obtain ⟨count, holding, signs, untouched, billed, unverified, input, cached, cacheWrite, out⟩ :=
    accounted
  have judged : verdict t attempts (e, attempts.length) = .unverified := by
    unfold verdict
    rw [if_neg noOutput, List.take_length]
    split
    · rfl
    · rename_i early
      have past : 256 ≤ attempts.length := by
        by_contra few
        have := holding (by omega)
        omega
      rw [named_of_le t past]
      rfl
  have joined : given .unverified t (attempts ++ [e]) =
      given .unverified t attempts ++ [(e, attempts.length)] := by
    rw [given_concat, List.filter_singleton, judged]
    rfl
  have passed : given .billed t (attempts ++ [e]) = given .billed t attempts := by
    rw [given_concat, List.filter_singleton, judged]
    exact List.append_nil _
  rw [iteration_message message]
  dsimp only
  rw [if_neg noOutput, if_neg noRoom]
  constructor
  case count => simp only [Attempts.add, count, List.length_append, List.length_singleton]
  case holding =>
    intro few
    rw [List.length_append, List.length_singleton] at few
    have := holding (by omega)
    simp only [List.countP_append, List.countP_singleton, Int.not_lt.mp noOutput, decide_true,
      if_true]
    omega
  case signs => exact signs
  case untouched => exact untouched
  case billed => rw [passed, ← billed]
  case unverified =>
    rw [joined, List.length_append, List.length_singleton, ← unverified]
    dsimp only
    omega
  case input => rw [passed, ← input]
  case cached => rw [passed, ← cached]
  case cacheWrite => rw [passed, ← cacheWrite]
  case out => rw [passed, ← out]

/-- The attempts with one more iteration. -/
theorem attemptsOf_concat (es : List Iteration) (e : Iteration) :
    attemptsOf (es ++ [e]) =
      attemptsOf es ++ if e.type = ascii "message" then [e] else [] := by
  unfold attemptsOf
  rw [List.filter_append, List.filter_singleton, Bool.cond_decide]

/-- The sums over any entries account for every attempt among them. -/
theorem accounted_tally (t : RefusalTriggers) (es : List Iteration) :
    Accounted t (attemptsOf es) (tally es) := by
  induction es using List.reverseRecOn with
  | nil => exact accounted_nil t
  | append_singleton es e inductionHypothesis =>
      rw [tally_concat, attemptsOf_concat]
      by_cases message : e.type = ascii "message"
      · rw [if_pos message]
        by_cases output : 0 < e.out
        · exact inductionHypothesis.withOutput message output
        by_cases room : (tally es).held.length < kMaxHeld ∧ (tally es).declined.n < 256
        · exact inductionHypothesis.hold message output room
        · exact inductionHypothesis.pass message output room
      · rw [if_neg message, List.append_nil]
        exact inductionHypothesis.otherEntry message

/-- The flag says whether any iteration was a fallback. -/
theorem tally_fallback (es : List Iteration) :
    (tally es).fallback = es.any fun e => e.type = ascii "fallback_message" := by
  induction es using List.reverseRecOn with
  | nil => rfl
  | append_singleton es e inductionHypothesis =>
      rw [tally_concat, List.any_append, List.any_cons, List.any_nil, Bool.or_false,
        ← inductionHypothesis, iteration_fallback]

/-- The same attempts are accounted the same. -/
theorem Accounted.ofSame {r' : Raw} (accounted : Accounted t attempts r')
    (same : SameAttempts r r') : Accounted t attempts r := by
  obtain ⟨declined, outputDeclined, held, heldOver, _⟩ := same
  constructor
  case count => rw [declined]; exact accounted.count
  case holding => rw [held]; exact accounted.holding
  case signs => rw [held]; exact accounted.signs
  case untouched => rw [outputDeclined]; exact accounted.untouched
  case billed => rw [outputDeclined, held]; exact accounted.billed
  case unverified => rw [heldOver, held]; exact accounted.unverified
  case input => rw [outputDeclined, held]; exact accounted.input
  case cached => rw [outputDeclined, held]; exact accounted.cached
  case cacheWrite => rw [outputDeclined, held]; exact accounted.cacheWrite
  case out => rw [outputDeclined]; exact accounted.out

/-! ## Billing the held attempts -/

/-- What the held attempts add to a usage that states its attempts. -/
structure HeldBilled (t : RefusalTriggers) (held : List HeldAttempt) (u w : Usage) : Prop where
  input : w.priorIn = u.priorIn + ((heldNamed t (some true) held).map HeldAttempt.input).sum
  cached :
    w.priorCached = u.priorCached + ((heldNamed t (some true) held).map HeldAttempt.cached).sum
  cacheWrite : w.priorCacheWrite =
    u.priorCacheWrite + ((heldNamed t (some true) held).map HeldAttempt.cacheWrite).sum
  billed : w.priorBilled = u.priorBilled + (heldNamed t (some true) held).length
  unverified : w.priorUnverified = u.priorUnverified + (heldNamed t none held).length
  out : w.priorOut = u.priorOut
  attempts : w.priorAttempts = u.priorAttempts

/-- The counts that `bill_declined` adds to are stated. -/
structure PriorStated (u : Usage) : Prop where
  input : 0 ≤ u.priorIn
  cached : 0 ≤ u.priorCached
  cacheWrite : 0 ≤ u.priorCacheWrite
  billed : 0 ≤ u.priorBilled
  unverified : 0 ≤ u.priorUnverified

/-- One held attempt is billed by its trigger. -/
theorem billHeld_one (t : RefusalTriggers) {u : Usage} (stated : PriorStated u)
    {h : HeldAttempt} (signs : 0 ≤ h.input ∧ 0 ≤ h.cached ∧ 0 ≤ h.cacheWrite) :
    PriorStated (billHeld t u h) ∧ HeldBilled t [h] u (billHeld t u h) := by
  obtain ⟨input, cached, cacheWrite, billed, unverified⟩ := stated
  unfold billHeld
  cases named : t.named h.index with
  | none =>
      have onlyNone : heldNamed t none [h] = [h] := by
        rw [heldNamed, List.filter_singleton, named]
        rfl
      have noTrue : heldNamed t (some true) [h] = [] := by
        rw [heldNamed, List.filter_singleton, named]
        rfl
      dsimp only
      rw [atLeastZero_of_nonneg unverified]
      refine ⟨⟨input, cached, cacheWrite, billed, Int.add_nonneg unverified (by decide)⟩, ?_⟩
      constructor
      case unverified => rw [onlyNone]; rfl
      case out => rfl
      case attempts => rfl
      all_goals
        rw [noTrue]
        exact (Int.add_zero _).symm
  | some billedToo =>
      have noNone : heldNamed t none [h] = [] := by
        rw [heldNamed, List.filter_singleton, named]
        rfl
      cases billedToo with
      | false =>
          have noTrue : heldNamed t (some true) [h] = [] := by
            rw [heldNamed, List.filter_singleton, named]
            rfl
          refine ⟨⟨input, cached, cacheWrite, billed, unverified⟩, ?_⟩
          constructor
          case unverified => rw [noNone]; exact (Int.add_zero _).symm
          case out => rfl
          case attempts => rfl
          all_goals
            rw [noTrue]
            exact (Int.add_zero _).symm
      | true =>
          have onlyTrue : heldNamed t (some true) [h] = [h] := by
            rw [heldNamed, List.filter_singleton, named]
            rfl
          dsimp only
          rw [atLeastZero_of_nonneg input, atLeastZero_of_nonneg cached,
            atLeastZero_of_nonneg cacheWrite, atLeastZero_of_nonneg billed]
          refine ⟨⟨Int.add_nonneg input signs.1, Int.add_nonneg cached signs.2.1,
            Int.add_nonneg cacheWrite signs.2.2, Int.add_nonneg billed (by decide),
            unverified⟩, ?_⟩
          constructor
          case unverified => rw [noNone]; exact (Int.add_zero _).symm
          case out => rfl
          case attempts => rfl
          case billed => rw [onlyTrue]; rfl
          all_goals rw [onlyTrue, List.map_singleton, List.sum_singleton]

/-- Held attempts by their verdicts, one by one. -/
theorem heldNamed_cons (t : RefusalTriggers) (name : Option Bool) (h : HeldAttempt)
    (held : List HeldAttempt) :
    heldNamed t name (h :: held) = heldNamed t name [h] ++ heldNamed t name held := by
  rw [heldNamed, heldNamed, heldNamed, ← List.filter_append, List.singleton_append]

/-- Held attempts are billed in turn. -/
theorem billHeld_fold (t : RefusalTriggers) (held : List HeldAttempt) {u : Usage}
    (stated : PriorStated u)
    (signs : ∀ h ∈ held, 0 ≤ h.input ∧ 0 ≤ h.cached ∧ 0 ≤ h.cacheWrite) :
    HeldBilled t held u (held.foldl (billHeld t) u) := by
  induction held generalizing u with
  | nil =>
      constructor
      case out => rfl
      case attempts => rfl
      all_goals exact (Int.add_zero _).symm
  | cons h held inductionHypothesis =>
      obtain ⟨stated', one⟩ := billHeld_one t stated (signs h List.mem_cons_self)
      have rest := inductionHypothesis stated' fun h' member =>
        signs h' (List.mem_cons_of_mem h member)
      rw [List.foldl_cons]
      constructor
      case out => rw [rest.out, one.out]
      case attempts => rw [rest.attempts, one.attempts]
      case billed =>
        rw [rest.billed, one.billed, heldNamed_cons t _ h held, List.length_append]
        omega
      case unverified =>
        rw [rest.unverified, one.unverified, heldNamed_cons t _ h held, List.length_append]
        omega
      case input =>
        rw [rest.input, one.input, heldNamed_cons t _ h held, List.map_append, List.sum_append]
        omega
      case cached =>
        rw [rest.cached, one.cached, heldNamed_cons t _ h held, List.map_append, List.sum_append]
        omega
      case cacheWrite =>
        rw [rest.cacheWrite, one.cacheWrite, heldNamed_cons t _ h held, List.map_append,
          List.sum_append]
        omega

/-! ## What a usage states of its attempts -/

/-- The counts a usage states of its attempts are those of their verdicts. -/
structure AttemptsJudged (t : RefusalTriggers) (attempts : List Iteration) (u : Usage) :
    Prop where
  count : u.priorAttempts = attempts.length
  billed : u.priorBilled = (given .billed t attempts).length
  unverified : u.priorUnverified = (given .unverified t attempts).length
  input : u.priorIn = ((given .billed t attempts).map promptOf).sum
  cached : u.priorCached = ((given .billed t attempts).map cachedOf).sum
  cacheWrite : u.priorCacheWrite = ((given .billed t attempts).map writtenOf).sum
  out : u.priorOut = ((given .billed t attempts).map outOf).sum

/-- A usage states nothing of any attempt. -/
structure NoAttempts (u : Usage) : Prop where
  count : u.priorAttempts = -1
  billed : u.priorBilled = -1
  unverified : u.priorUnverified = -1
  input : u.priorIn = -1
  cached : u.priorCached = -1
  cacheWrite : u.priorCacheWrite = -1
  out : u.priorOut = -1
  model : u.priorModel = []
  held : u.priorHeld = []

/-- Every attempt gets one verdict. -/
theorem given_partition (t : RefusalTriggers) (attempts : List Iteration) :
    (given .billed t attempts ++ given .notBilled t attempts ++
      given .unverified t attempts).Perm attempts.zipIdx := by
  unfold given
  generalize attempts.zipIdx = positioned
  induction positioned with
  | nil => exact List.Perm.refl _
  | cons m positioned inductionHypothesis =>
      simp only [List.filter_cons]
      cases verdict t attempts m with
      | billed => exact inductionHypothesis.cons m
      | notBilled =>
          exact (List.perm_middle.append_right _).trans (inductionHypothesis.cons m)
      | unverified => exact List.perm_middle.trans (inductionHypothesis.cons m)

/-- The counts alone state no attempt. -/
theorem counts_noAttempts (r : Raw) : NoAttempts (counts r) := by
  unfold counts
  dsimp only
  split
  · constructor <;> rfl
  split
  · constructor <;> rfl
  · unfold anthropicUsage
    dsimp only
    split <;> constructor <;> rfl

/-- Without a declined attempt and a fallback none is stated. -/
theorem extras_noAttempts {r : Raw} {u : Usage} (noAttempts : NoAttempts u)
    (without : ¬(r.declined.n ≠ 0 ∧ r.fallback)) : NoAttempts (extras r u) := by
  obtain ⟨count, billed, unverified, input, cached, cacheWrite, out, model, held⟩ := noAttempts
  unfold extras
  dsimp only
  rw [if_neg without]
  split <;> exact ⟨count, billed, unverified, input, cached, cacheWrite, out, model, held⟩

/-- Where none is held nothing is billed. -/
theorem billDeclined_of_noHeld {u : Usage} (noHeld : u.priorHeld = []) (t : RefusalTriggers) :
    billDeclined u t = u := by
  unfold billDeclined
  rw [noHeld, List.foldl_nil, ← noHeld]

/-- The attempts as `extras` states them before any category is known. -/
structure AttemptsStated (r : Raw) (u : Usage) : Prop where
  count : u.priorAttempts = r.declined.n
  billed : u.priorBilled = r.outputDeclined.n
  unverified : u.priorUnverified = r.heldOver
  input : u.priorIn = atLeastZero r.outputDeclined.fresh + atLeastZero r.outputDeclined.read +
    atLeastZero r.outputDeclined.write
  cached : u.priorCached = atLeastZero r.outputDeclined.read
  cacheWrite : u.priorCacheWrite = atLeastZero r.outputDeclined.write
  out : u.priorOut = atLeastZero r.outputDeclined.out
  held : u.priorHeld = r.held

/-- With both the declined attempts are stated. -/
theorem extras_attemptsStated {r : Raw} {u : Usage}
    (untouched : r.outputDeclined.n = 0 → r.outputDeclined = {})
    (within : r.declined.n ≠ 0 ∧ r.fallback) : AttemptsStated r (extras r u) := by
  obtain ⟨input, cached, cacheWrite, out⟩ := anthropicUsage_parts r.outputDeclined.fresh
    r.outputDeclined.out r.outputDeclined.read r.outputDeclined.write
  unfold extras
  dsimp only
  rw [if_pos within]
  by_cases produced : r.outputDeclined.n = 0
  · have nothing := untouched produced
    rw [if_neg (not_not.mpr produced)]
    exact ⟨rfl, rfl, rfl, by rw [nothing]; rfl, by rw [nothing], by rw [nothing],
      by rw [nothing], rfl⟩
  · rw [if_pos produced]
    exact ⟨rfl, rfl, rfl, input, cached, cacheWrite, congrArg atLeastZero out, rfl⟩

/-- What is stated is stated of what came before. -/
theorem AttemptsStated.priorStated {u : Usage} (stated : AttemptsStated r u) :
    PriorStated u where
  input := by
    rw [stated.input]
    exact Int.add_nonneg (Int.add_nonneg (atLeastZero_nonneg _) (atLeastZero_nonneg _))
      (atLeastZero_nonneg _)
  cached := by rw [stated.cached]; exact atLeastZero_nonneg _
  cacheWrite := by rw [stated.cacheWrite]; exact atLeastZero_nonneg _
  billed := by rw [stated.billed]; exact Int.natCast_nonneg _
  unverified := by rw [stated.unverified]; exact Int.natCast_nonneg _

/-- Billing what was held completes the account. -/
theorem Accounted.judged (accounted : Accounted t attempts r) {u : Usage}
    (stated : AttemptsStated r u) : AttemptsJudged t attempts (billDeclined u t) := by
  have billedToo := billHeld_fold t r.held stated.priorStated accounted.signs
  unfold billDeclined
  rw [stated.held]
  constructor
  case count => rw [← accounted.count, ← stated.count]; exact billedToo.attempts
  case billed =>
    rw [← accounted.billed, Int.natCast_add, ← stated.billed]
    exact billedToo.billed
  case unverified =>
    rw [← accounted.unverified, Int.natCast_add, ← stated.unverified]
    exact billedToo.unverified
  case input => rw [← accounted.input, ← stated.input]; exact billedToo.input
  case cached => rw [← accounted.cached, ← stated.cached]; exact billedToo.cached
  case cacheWrite => rw [← accounted.cacheWrite, ← stated.cacheWrite]; exact billedToo.cacheWrite
  case out => rw [← accounted.out, ← stated.out]; exact billedToo.out

/-- Every declined attempt of a usage object is judged once: where a fallback ran, the
counts stated are those of the attempts billed and of those unverified. -/
theorem declined_judged (object : Bytes) (t : RefusalTriggers) :
    (attemptsOf (entriesOf object) ≠ [] ∧
        (∃ e ∈ entriesOf object, e.type = ascii "fallback_message") →
      AttemptsJudged t (attemptsOf (entriesOf object)) (billDeclined (usageOf object) t)) ∧
    (¬(attemptsOf (entriesOf object) ≠ [] ∧
        ∃ e ∈ entriesOf object, e.type = ascii "fallback_message") →
      NoAttempts (billDeclined (usageOf object) t)) ∧
    (given .billed t (attemptsOf (entriesOf object)) ++
      given .notBilled t (attemptsOf (entriesOf object)) ++
      given .unverified t (attemptsOf (entriesOf object))).Perm
        (attemptsOf (entriesOf object)).zipIdx ∧
    ∀ later : RefusalTriggers,
      billDeclined (billDeclined (usageOf object) t) later = billDeclined (usageOf object) t := by
  have same : SameAttempts (readMembers kUsageKeys (object.length + 1) object [] {})
      (tally (entriesOf object)) :=
    @readMembers_tally (object.length + 1) object [] {} [] ⟨rfl, rfl, rfl, rfl, rfl⟩
  have accounted := (accounted_tally t (entriesOf object)).ofSame same
  have fellBack : (attemptsOf (entriesOf object) ≠ [] ∧
      ∃ e ∈ entriesOf object, e.type = ascii "fallback_message") ↔
      (readMembers kUsageKeys (object.length + 1) object [] {}).declined.n ≠ 0 ∧
        (readMembers kUsageKeys (object.length + 1) object [] {}).fallback := by
    rw [same.fallback, tally_fallback, accounted.count, List.any_eq_true, Ne, Ne,
      List.length_eq_zero_iff]
    simp only [decide_eq_true_eq]
  refine ⟨?_, ?_, given_partition t _, ?_⟩
  · intro within
    exact accounted.judged (extras_attemptsStated accounted.untouched (fellBack.mp within))
  · intro without
    have noAttempts : NoAttempts (usageOf object) :=
      extras_noAttempts (counts_noAttempts _) (mt fellBack.mpr without)
    rw [billDeclined_of_noHeld noAttempts.held]
    exact noAttempts
  · exact fun later => billDeclined_of_noHeld rfl later

/-- Five attempts without output before the one that served. -/
def fiveDeclined : Bytes :=
  ascii "\x7b\"iterations\":[" ++
    (List.replicate 5 (ascii "\x7b\"type\":\"message\"\x7d,")).flatten ++
    ascii "\x7b\"type\":\"fallback_message\"\x7d]\x7d"

/-- Five categories, every one billed. -/
def fiveBilled : RefusalTriggers where
  n := 5
  billed := List.replicate 8 true

/-- Every category of the five attempts is named billed, and the fifth is not billed. -/
theorem fifthDeclined_unverified :
    ((List.range 5).all fun k => fiveBilled.named k = some true) ∧
      (attemptsOf (entriesOf fiveDeclined)).length = 5 ∧
      (billDeclined (usageOf fiveDeclined) fiveBilled).priorBilled = 4 ∧
      (billDeclined (usageOf fiveDeclined) fiveBilled).priorUnverified = 1 := by
  decide +kernel

end OpenAi
end Llmbridge
