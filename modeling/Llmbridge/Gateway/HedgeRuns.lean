import Llmbridge.Gateway.Hedge
import Llmbridge.Transition.Runs

/-!
# What a hedged request comes to

In every run one leg at most wins its client, which is told that leg's texts and no other's,
and every other leg leaves one record.
-/

namespace Llmbridge
namespace Gateway

open Rfc8259 (Byte Bytes ascii)

/-- The texts of one leg. -/
def textsOf (i : Nat) (said : List (Nat × Bytes)) : Bytes :=
  (said.filter fun entry => entry.1 = i).flatMap Prod.snd

/-- What a leg says is added to its own texts. -/
@[simp]
theorem textsOf_append_same (i : Nat) (said : List (Nat × Bytes)) (text : Bytes) :
    textsOf i (said ++ [(i, text)]) = textsOf i said ++ text := by
  simp [textsOf]

/-- What a leg says is not in the texts of another. -/
theorem textsOf_append_other {i j : Nat} (differs : j ≠ i) (said : List (Nat × Bytes))
    (text : Bytes) : textsOf j (said ++ [(i, text)]) = textsOf j said := by
  simp [textsOf, differs.symm]

/-- The record of a leg that ended while its client waited: it is no success. -/
structure HedgeRecord.Lost (entry : HedgeRecord) : Prop where
  won : entry.hedgeWon = false
  cut : entry.hedgeCut = false
  failure : entry.streamed = true ∨ ¬ (200 ≤ entry.status ∧ entry.status < 300)

/-- The record of a leg that another one cut. -/
structure HedgeRecord.Cut (entry : HedgeRecord) : Prop where
  won : entry.hedgeWon = false
  cut : entry.hedgeCut = true
  status : entry.status = 0

namespace HedgeRace

/-- Whether leg `i` is linked. -/
def linked (r : HedgeRace) (i : Nat) : Bool :=
  (r.hedgeLegs[i]?.join).isSome

/-- How many records leg `i` has. -/
def recorded (r : HedgeRace) (i : Nat) : Nat :=
  r.records.countP fun entry => entry.hedgeLeg = i

/-! ## Cutting -/

/-- The record of a leg that is cut. -/
def cutRecord (s : HedgeConn) : HedgeRecord :=
  ⟨s.leg, 0, s.streaming, s.hedgeWon, true⟩

/-- A leg that a cut records. -/
def Cuttable (s : HedgeConn) : Prop :=
  s.sunk = false ∧ s.phase ≠ .idle

/-- Cutting a leg that is left records it and empties its place. -/
theorem cutLeg_some {r : HedgeRace} {i : Nat} {s : HedgeConn}
    (there : r.hedgeLegs[i]? = some (some s)) (cuttable : Cuttable s) :
    r.cutLeg i =
      { r with
        legsCut := r.legsCut + 1
        records := r.records ++ [cutRecord s]
        hedgeLegs := r.hedgeLegs.set i none } := by
  unfold cutLeg
  rw [there]
  simp [dropLeg, cuttable.1, cuttable.2, HedgeConn.record, cutRecord]

/-- Cutting a leg that is gone does nothing. -/
theorem cutLeg_none {r : HedgeRace} {i : Nat} (gone : r.hedgeLegs[i]? = some none) :
    r.cutLeg i = r := by
  unfold cutLeg
  rw [gone]

/-- The state after the legs of `front` are cut, those of `back` still linked. -/
def afterCuts (r : HedgeRace) (front back : List (Option HedgeConn)) : HedgeRace :=
  { r with
    legsCut := r.legsCut + front.countP Option.isSome
    records := r.records ++ front.filterMap (Option.map cutRecord)
    hedgeLegs := List.replicate front.length none ++ back }

/-- The legs of the front cut in turn. -/
theorem cutLegs_eq (r : HedgeRace) (front back : List (Option HedgeConn))
    (cuttable : ∀ s, some s ∈ front → Cuttable s) :
    (List.range front.length).foldl cutLeg (r.afterCuts [] (front ++ back)) =
      r.afterCuts front back := by
  induction front using List.reverseRecOn generalizing back with
  | nil => rfl
  | append_singleton front leg inductionHypothesis =>
      have before := inductionHypothesis (leg :: back)
        fun s member => cuttable s (List.mem_append_left [leg] member)
      rw [List.length_append, List.length_singleton, List.range_succ, List.foldl_append,
        List.append_assoc, List.singleton_append, before]
      simp only [List.foldl_cons, List.foldl_nil]
      have here : (r.afterCuts front (leg :: back)).hedgeLegs[front.length]? = some leg := by
        simp [afterCuts]
      cases leg with
      | none =>
          rw [cutLeg_none here]
          simp [afterCuts, List.replicate_succ']
      | some s =>
          rw [cutLeg_some here (cuttable s (List.mem_append_right front List.mem_cons_self))]
          simp [afterCuts, List.replicate_succ', Nat.add_assoc, List.countP_append]

/-- A settled race: every leg is cut and recorded. -/
theorem settleHedge_eq {r : HedgeRace} (cuttable : ∀ s, some s ∈ r.hedgeLegs → Cuttable s) :
    r.settleHedge =
      { r with
        hedgeOpen := false
        legsCut := r.legsCut + r.hedgeLegs.countP Option.isSome
        records := r.records ++ r.hedgeLegs.filterMap (Option.map cutRecord)
        hedgeLegs := List.replicate r.hedgeLegs.length none } := by
  have cut := cutLegs_eq { r with hedgeOpen := false } r.hedgeLegs [] cuttable
  rw [List.append_nil] at cut
  unfold settleHedge
  have start : { r with hedgeOpen := false }.afterCuts [] r.hedgeLegs =
      { r with hedgeOpen := false } := by
    simp [afterCuts]
  rw [start] at cut
  rw [cut]
  simp [afterCuts]

/-! ## While the client waits -/

/-- A leg that has no answer yet. -/
structure LegOk (said : List (Nat × Bytes)) (i : Nat) (s : HedgeConn) : Prop where
  leg : s.leg = i
  unwon : s.hedgeWon = false
  uncut : s.hedgeCut = false
  unsunk : s.sunk = false
  phase : s.phase = .dispatched ∧ s.out = [] ∨ s.phase = .streaming
  silent : s.token = false
  staged : s.out = textsOf i said

/-- A leg of a client that waits may be cut. -/
theorem LegOk.cuttable {said : List (Nat × Bytes)} {i : Nat} {s : HedgeConn}
    (ok : LegOk said i s) : Cuttable s := by
  refine ⟨ok.unsunk, ?_⟩
  rcases ok.phase with ⟨is, -⟩ | is <;> rw [is] <;> decide

/-- What a race's records are while its legs end: one of each leg that is gone. -/
structure Books (n : Nat) (r : HedgeRace) : Prop where
  lost : ∀ entry ∈ r.records, entry.Lost
  counts : ∀ i < n, r.recorded i = if r.linked i then 0 else 1

/-- The client waits, and a leg is left that can answer it. -/
structure Waits (n : Nat) (r : HedgeRace) : Prop where
  legs : r.hedgeLegs.length = n
  each : ∀ i s, r.hedgeLegs[i]? = some (some s) → LegOk r.said i s
  live : r.live = true
  isOpen : r.hedgeOpen = true
  client : r.client = { leg := 0 }
  there : r.doomed = false
  told : r.told = []
  errors : r.errors = 0
  cuts : r.legsCut = 0
  books : Books n r

/-- Leg `i`, as `s`, is about to do something while the client waits. -/
structure Acting (n i : Nat) (r : HedgeRace) (s : HedgeConn) : Prop where
  legs : r.hedgeLegs.length = n
  here : r.linked i = true
  others : ∀ j t, j ≠ i → r.hedgeLegs[j]? = some (some t) → LegOk r.said j t
  leg : s.leg = i
  unwon : s.hedgeWon = false
  uncut : s.hedgeCut = false
  staged : s.out = textsOf i r.said
  isOpen : r.hedgeOpen = true
  client : r.client = { leg := 0 }
  there : r.doomed = false
  told : r.told = []
  errors : r.errors = 0
  cuts : r.legsCut = 0
  books : Books n r

/-- A leg that is there is linked. -/
theorem linked_of {r : HedgeRace} {i : Nat} {s : HedgeConn}
    (there : r.hedgeLegs[i]? = some (some s)) : r.linked i = true := by
  rw [linked, there]
  rfl

/-- A linked leg is one of those spawned. -/
theorem lt_of_linked {r : HedgeRace} {i : Nat} (linked : r.linked i = true) :
    i < r.hedgeLegs.length := by
  by_contra beyond
  rw [HedgeRace.linked, List.getElem?_eq_none (Nat.le_of_not_lt beyond)] at linked
  cases linked

/-- A leg of a client that waits acts as it is. -/
theorem Waits.acting {n i : Nat} {r : HedgeRace} {s : HedgeConn} (waits : Waits n r)
    (there : r.hedgeLegs[i]? = some (some s)) : Acting n i r s where
  legs := waits.legs
  here := linked_of there
  others := fun j t _ linked => waits.each j t linked
  leg := (waits.each i s there).leg
  unwon := (waits.each i s there).unwon
  uncut := (waits.each i s there).uncut
  staged := (waits.each i s there).staged
  isOpen := waits.isOpen
  client := waits.client
  there := waits.there
  told := waits.told
  errors := waits.errors
  cuts := waits.cuts
  books := waits.books

/-- A leg that stages a text acts as the leg it is then. -/
theorem Acting.said {n i : Nat} {r : HedgeRace} {s s' : HedgeConn} (acting : Acting n i r s)
    (text : Bytes) (leg : s'.leg = s.leg) (won : s'.hedgeWon = s.hedgeWon)
    (cut : s'.hedgeCut = s.hedgeCut) (out : s'.out = s.out ++ text) :
    Acting n i { r with said := r.said ++ [(i, text)] } s' := by
  constructor
  case legs => exact acting.legs
  case here => exact acting.here
  case others =>
    intro j t differs there
    have ok := acting.others j t differs there
    exact ⟨ok.leg, ok.unwon, ok.uncut, ok.unsunk, ok.phase, ok.silent,
      ok.staged.trans (textsOf_append_other differs r.said text).symm⟩
  case leg => exact leg.trans acting.leg
  case unwon => exact won.trans acting.unwon
  case uncut => exact cut.trans acting.uncut
  case staged => rw [out, acting.staged, textsOf_append_same]
  case isOpen => exact acting.isOpen
  case client => exact acting.client
  case there => exact acting.there
  case told => exact acting.told
  case errors => exact acting.errors
  case cuts => exact acting.cuts
  case books => exact ⟨acting.books.lost, acting.books.counts⟩

/-- Setting a linked leg links no other. -/
theorem linked_setLeg {r : HedgeRace} {i : Nat} (here : r.linked i = true) (s : HedgeConn)
    (j : Nat) : (r.setLeg i s).linked j = r.linked j := by
  have inside := lt_of_linked here
  unfold linked setLeg
  dsimp only
  rw [List.getElem?_set]
  split
  · rename_i same
    subst same
    exact here.symm
  · rfl

/-- A leg that has no answer yet goes on. -/
theorem Acting.setLeg {n i : Nat} {r : HedgeRace} {s : HedgeConn} (acting : Acting n i r s)
    (ok : LegOk r.said i s) : Waits n (r.setLeg i s) := by
  have inside := lt_of_linked acting.here
  constructor
  case legs => exact (List.length_set ..).trans acting.legs
  case each =>
    intro j t there
    by_cases same : j = i
    · subst same
      rw [HedgeRace.setLeg, List.getElem?_set_self inside] at there
      obtain rfl := Option.some.inj (Option.some.inj there)
      exact ok
    · rw [HedgeRace.setLeg, List.getElem?_set_ne (Ne.symm same)] at there
      exact acting.others j t same there
  case live =>
    refine List.any_eq_true.mpr ⟨some s, ?_, rfl⟩
    exact List.mem_iff_getElem?.mpr ⟨i, List.getElem?_set_self inside⟩
  case isOpen => exact acting.isOpen
  case client => exact acting.client
  case there => exact acting.there
  case told => exact acting.told
  case errors => exact acting.errors
  case cuts => exact acting.cuts
  case books =>
    refine ⟨acting.books.lost, fun j small => ?_⟩
    rw [linked_setLeg acting.here]
    exact acting.books.counts j small

/-! ## A leg that ends -/

/-- The state with leg `i` gone and `entry` for it. -/
def without (r : HedgeRace) (i : Nat) (entry : HedgeRecord) : HedgeRace :=
  { r with records := r.records ++ [entry], hedgeLegs := r.hedgeLegs.set i none }

/-- A leg that is taken out is linked no more, and the others stay. -/
theorem linked_without {r : HedgeRace} {i j : Nat} (entry : HedgeRecord) :
    (r.without i entry).linked j = (r.linked j && j ≠ i) := by
  unfold linked without
  dsimp only
  rw [List.getElem?_set]
  split
  · rename_i same
    subst same
    split <;> simp
  · rename_i differs
    simp [Ne.symm differs]

/-- One record more, of a leg that is gone with it. -/
theorem Acting.books_without {n i : Nat} {r : HedgeRace} {s : HedgeConn}
    (acting : Acting n i r s) {entry : HedgeRecord} (lost : entry.Lost)
    (leg : entry.hedgeLeg = i) : Books n (r.without i entry) := by
  refine ⟨?_, fun j small => ?_⟩
  · intro found member
    rcases List.mem_append.mp member with member | member
    · exact acting.books.lost found member
    · rw [List.mem_singleton.mp member]
      exact lost
  · have before := acting.books.counts j small
    rw [linked_without]
    unfold recorded without at *
    dsimp only
    rw [List.countP_append, before, List.countP_singleton, leg]
    by_cases same : j = i
    · subst same
      simp [acting.here]
    · simp [same, Ne.symm same]

/-- A leg that ends while another is left leaves the client waiting. -/
theorem Acting.waits_without {n i : Nat} {r : HedgeRace} {s : HedgeConn}
    (acting : Acting n i r s) {entry : HedgeRecord} (lost : entry.Lost)
    (leg : entry.hedgeLeg = i) (live : (r.without i entry).live = true) :
    Waits n (r.without i entry) := by
  constructor
  case legs => exact (List.length_set ..).trans acting.legs
  case each =>
    intro j t there
    have differs : j ≠ i := by
      have linked := linked_of there
      rw [linked_without] at linked
      simpa using (Bool.and_eq_true_iff.mp linked).2
    rw [without, List.getElem?_set_ne differs.symm] at there
    exact acting.others j t differs there
  case live => exact live
  case isOpen => exact acting.isOpen
  case client => exact acting.client
  case there => exact acting.there
  case told => exact acting.told
  case errors => exact acting.errors
  case cuts => exact acting.cuts
  case books => exact acting.books_without lost leg

/-! ## How a race is settled -/

/-- No leg is left, and each but the winner's has one record: of its own end, or of a cut. -/
structure Settled (n : Nat) (r : HedgeRace) : Prop where
  isClosed : r.hedgeOpen = false
  legs : r.hedgeLegs = List.replicate n none
  cuts : r.records.countP (fun entry => entry.hedgeCut) = r.legsCut

/-- The client has no leg's answer but the gateway's own: no leg was left. -/
structure Unanswered (n : Nat) (r : HedgeRace) : Prop where
  settled : Settled n r
  lost : ∀ entry ∈ r.records, entry.Lost
  counts : ∀ i < n, r.recorded i = 1
  told : r.told = appendError [] 502 none false
  uncut : r.legsCut = 0
  sunk : r.client.sunk = true
  phase : r.client.phase = .replying ∨ r.client.phase = .idle
  counted : 0 < r.errors

/-- The client left before any leg answered. -/
structure Left (n : Nat) (r : HedgeRace) : Prop where
  settled : Settled n r
  each : ∀ entry ∈ r.records, entry.Lost ∨ entry.Cut
  counts : ∀ i < n, r.recorded i = 1
  told : r.told = []
  gone : r.doomed = true

/-- The client has leg `w`, and what it says; every other leg is recorded, and where one
was cut `w` had a success to show. -/
structure Served (n w : Nat) (r : HedgeRace) : Prop where
  inside : w < n
  settled : Settled n r
  leg : r.client.leg = w
  won : r.client.hedgeWon = true
  uncut : r.client.hedgeCut = false
  told : r.told = textsOf w r.said
  own : ∀ entry ∈ r.records, entry.hedgeLeg = w →
    entry.hedgeWon = true ∧ entry.hedgeCut = false
  others : ∀ entry ∈ r.records, entry.hedgeLeg ≠ w → entry.Lost ∨ entry.Cut
  counts : ∀ i < n, r.recorded i = if i = w then if r.client.sunk then 1 else 0 else 1
  phase : r.client.phase = .streaming ∨ r.client.phase = .replying ∨ r.client.phase = .idle
  fair : 0 < r.legsCut → r.client.token = true ∨
    r.client.phase ≠ .streaming ∧ 200 ≤ statusOf r.told ∧ statusOf r.told < 300

/-- The client has leg `w`'s answer, which is recorded once it is over. -/
structure Won (n w : Nat) (r : HedgeRace) : Prop extends Served n w r where
  finished : r.client.sunk = true →
    r.client.phase = .idle ∨ r.client.streamEnded = true ∧ r.doomed = true
  unfinished : r.client.sunk = false → r.client.phase ≠ .idle

/-! ## The adoption -/

/-- Cutting the legs that are left records each of them once. -/
theorem cutRecords_counts {legs : List (Option HedgeConn)}
    (numbered : ∀ (j : Nat) (t : HedgeConn), legs[j]? = some (some t) → t.leg = j) (i : Nat) :
    (legs.filterMap (Option.map cutRecord)).countP (fun entry => entry.hedgeLeg = i) =
      if legs[i]?.join.isSome then 1 else 0 := by
  induction legs using List.reverseRecOn with
  | nil => rfl
  | append_singleton legs leg inductionHypothesis =>
      have before := inductionHypothesis fun j t there => by
        have inside : j < legs.length := by
          by_contra beyond
          rw [List.getElem?_eq_none (Nat.le_of_not_lt beyond)] at there
          cases there
        exact numbered j t ((List.getElem?_append_left inside).trans there)
      have last : ∀ t, leg = some t → t.leg = legs.length := by
        rintro t rfl
        exact numbered legs.length t (by simp)
      rw [List.filterMap_append, List.countP_append, before]
      rcases Nat.lt_trichotomy i legs.length with less | rfl | more
      · rw [List.getElem?_append_left less]
        have none : ([leg].filterMap (Option.map cutRecord)).countP
            (fun entry => entry.hedgeLeg = i) = 0 := by
          cases leg with
          | none => rfl
          | some t => simp [cutRecord, last t rfl, Nat.ne_of_gt less]
        rw [none, Nat.add_zero]
      · rw [List.getElem?_eq_none (Nat.le_refl _), List.getElem?_append_right (Nat.le_refl _),
          Nat.sub_self]
        cases leg with
        | none => rfl
        | some t => simp [cutRecord, last t rfl]
      · rw [List.getElem?_eq_none (Nat.le_of_lt more), List.getElem?_eq_none (by simpa using more)]
        cases leg with
        | none => rfl
        | some t => simp [cutRecord, last t rfl, Nat.ne_of_lt more]

/-- The records of legs that were cut say so, and there is one for each leg. -/
theorem cutRecords_cut {legs : List (Option HedgeConn)}
    (unwon : ∀ t, some t ∈ legs → t.hedgeWon = false) :
    (∀ entry ∈ legs.filterMap (Option.map cutRecord), entry.Cut) ∧
      (legs.filterMap (Option.map cutRecord)).countP (fun entry => entry.hedgeCut) =
        legs.countP Option.isSome := by
  induction legs with
  | nil => exact ⟨List.forall_mem_nil _, rfl⟩
  | cons leg legs inductionHypothesis =>
      obtain ⟨each, count⟩ := inductionHypothesis
        fun t member => unwon t (List.mem_cons_of_mem leg member)
      cases leg with
      | none => exact ⟨by simpa using each, by simpa using count⟩
      | some t =>
          rw [List.filterMap_cons, List.countP_cons]
          dsimp only [Option.map_some]
          rw [List.countP_cons, count]
          exact ⟨List.forall_mem_cons.mpr ⟨⟨unwon t List.mem_cons_self, rfl, rfl⟩, each⟩, rfl⟩

/-- What is cut when the legs of `r` are. -/
theorem settled_cuts {n : Nat} {r : HedgeRace} (legs : r.hedgeLegs.length = n)
    (each : ∀ i s, r.hedgeLegs[i]? = some (some s) → LegOk r.said i s)
    (lost : ∀ entry ∈ r.records, entry.Lost) (cuts : r.legsCut = 0) :
    Settled n r.settleHedge ∧
      (∀ entry ∈ r.settleHedge.records, entry.Lost ∨ entry.Cut) ∧
      (∀ i, r.settleHedge.recorded i = r.recorded i + if r.linked i then 1 else 0) ∧
      r.settleHedge.legsCut = r.hedgeLegs.countP Option.isSome := by
  have found : ∀ s, some s ∈ r.hedgeLegs → ∃ i, LegOk r.said i s := by
    intro s member
    obtain ⟨i, there⟩ := List.mem_iff_getElem?.mp member
    exact ⟨i, each i s there⟩
  have cuttable : ∀ s, some s ∈ r.hedgeLegs → Cuttable s := by
    intro s member
    obtain ⟨i, ok⟩ := found s member
    exact ok.cuttable
  have unwon : ∀ s, some s ∈ r.hedgeLegs → s.hedgeWon = false := by
    intro s member
    obtain ⟨i, ok⟩ := found s member
    exact ok.unwon
  obtain ⟨cut, count⟩ := cutRecords_cut unwon
  have uncut : r.records.countP (fun entry => entry.hedgeCut) = 0 := by
    rw [List.countP_eq_zero]
    intro entry member
    rw [(lost entry member).cut]
    exact Bool.false_ne_true
  rw [settleHedge_eq cuttable]
  refine ⟨⟨rfl, by rw [legs], ?_⟩, ?_, fun i => ?_, ?_⟩
  · dsimp only
    rw [List.countP_append, uncut, count, cuts]
  · exact List.forall_mem_append.mpr ⟨fun entry member => Or.inl (lost entry member),
      fun entry member => Or.inr (cut entry member)⟩
  · unfold recorded
    dsimp only
    rw [List.countP_append, cutRecords_counts (fun j t there => (each j t there).leg) i]
    rfl
  · dsimp only
    rw [cuts, Nat.zero_add]

/-- Settling leaves the client as it is. -/
theorem settleHedge_client (r : HedgeRace) : r.settleHedge.client = r.client := by
  have one : ∀ (r : HedgeRace) i, (r.cutLeg i).client = r.client := by
    intro r i
    unfold cutLeg
    split <;> rfl
  have all : ∀ (is : List Nat) (r : HedgeRace), (is.foldl cutLeg r).client = r.client := by
    intro is
    induction is with
    | nil => exact fun r => rfl
    | cons i is inductionHypothesis =>
        exact fun r => (inductionHypothesis (r.cutLeg i)).trans (one r i)
  exact all _ _

/-- The client that adopts a leg is that leg, having won. -/
theorem adoptLeg_client (r : HedgeRace) (i : Nat) (s : HedgeConn) :
    (r.adoptLeg i s).client = { s with hedgeWon := true, out := r.client.out ++ s.out } := by
  unfold adoptLeg
  exact settleHedge_client _

/-- Leg `i`, as `s`, has become the client, and the other legs are still there. -/
def adopting (r : HedgeRace) (i : Nat) (s : HedgeConn) : HedgeRace :=
  { r with
    hedgeLegs := r.hedgeLegs.set i none
    client := { s with hedgeWon := true, out := r.client.out ++ s.out }
    told := r.told ++ s.out }

/-- The other legs are as they were. -/
theorem Acting.adopting_legs {n i : Nat} {r : HedgeRace} {s : HedgeConn}
    (acting : Acting n i r s) (j : Nat) (t : HedgeConn)
    (there : (r.adopting i s).hedgeLegs[j]? = some (some t)) : LegOk r.said j t := by
  unfold adopting at there
  dsimp only at there
  by_cases same : j = i
  · subst same
    rw [List.getElem?_set_self (lt_of_linked acting.here)] at there
    cases there
  · rw [List.getElem?_set_ne (Ne.symm same)] at there
    exact acting.others j t same there

/-- Cutting them leaves the client and its texts. -/
theorem Acting.adopting_client {n i : Nat} {r : HedgeRace} {s : HedgeConn}
    (acting : Acting n i r s) :
    (r.adopting i s).settleHedge.client = { s with hedgeWon := true, out := s.out } ∧
      (r.adopting i s).settleHedge.told = s.out ∧
      (r.adopting i s).settleHedge.said = r.said := by
  have cuttable : ∀ t, some t ∈ (r.adopting i s).hedgeLegs → Cuttable t := by
    intro t member
    obtain ⟨j, there⟩ := List.mem_iff_getElem?.mp member
    exact (acting.adopting_legs j t there).cuttable
  rw [settleHedge_eq cuttable]
  refine ⟨?_, ?_, rfl⟩
  · unfold adopting
    rw [acting.client]
    rfl
  · unfold adopting
    rw [acting.told]
    rfl

/-- Every leg but the client's has its one record once they are cut. -/
theorem Acting.adopting_counts {n i : Nat} {r : HedgeRace} {s : HedgeConn}
    (acting : Acting n i r s)
    (counts : ∀ j, (r.adopting i s).settleHedge.recorded j =
      (r.adopting i s).recorded j + if (r.adopting i s).linked j then 1 else 0) :
    ∀ j < n, (r.adopting i s).settleHedge.recorded j = if j = i then 0 else 1 := by
  intro j small
  have left : (r.adopting i s).linked j = (r.linked j && j ≠ i) :=
    linked_without (s.record 0 false)
  have kept : (r.adopting i s).recorded j = r.recorded j := rfl
  rw [counts j, left, kept, acting.books.counts j small]
  by_cases is : j = i
  · subst is
    simp [acting.here]
  · cases r.linked j <;> simp [is]

/-- Leg `i` wins: with a token or a 2xx, or as the last one. -/
theorem Acting.adopt {n i : Nat} {r : HedgeRace} {s : HedgeConn} (acting : Acting n i r s)
    (unsunk : s.sunk = false) (phase : s.phase = .streaming ∨ s.phase = .replying)
    (wins : s.token = true ∨ s.phase = .replying ∧ s.isSuccess = true ∨
      r.legAlone i = true) : Won n i (r.adoptLeg i s) := by
  have inside := lt_of_linked acting.here
  obtain ⟨settled, each, counts, cuts⟩ := @settled_cuts n (r.adopting i s)
    ((List.length_set ..).trans acting.legs) acting.adopting_legs acting.books.lost acting.cuts
  have once := acting.adopting_counts counts
  obtain ⟨client, told, said⟩ := acting.adopting_client
  change Won n i { (r.adopting i s).settleHedge with
    errors := (r.adopting i s).settleHedge.errors + if s.errorOwed then 1 else 0 }
  replace cuts : (r.adopting i s).settleHedge.legsCut =
      (r.hedgeLegs.set i none).countP Option.isSome := cuts
  generalize (r.adopting i s).settleHedge = last at *
  constructor
  on_goal 1 => constructor
  case inside => exact acting.legs ▸ inside
  case settled => exact ⟨settled.isClosed, settled.legs, settled.cuts⟩
  case leg =>
    dsimp only
    rw [client]
    exact acting.leg
  case won =>
    dsimp only
    rw [client]
  case uncut =>
    dsimp only
    rw [client]
    exact acting.uncut
  case told =>
    dsimp only
    rw [told, said, acting.staged]
  case own =>
    intro entry member is
    have none := once i (acting.legs ▸ inside)
    rw [if_pos rfl, recorded, List.countP_eq_zero] at none
    exact absurd (decide_eq_true is) (none entry member)
  case others => exact fun entry member _ => each entry member
  case counts =>
    intro j small
    have count := once j small
    rw [client]
    dsimp only
    rw [unsunk]
    by_cases is : j = i
    · rw [if_pos is] at count ⊢
      exact count
    · rw [if_neg is] at count ⊢
      exact count
  case phase =>
    dsimp only
    rw [client]
    exact phase.imp id Or.inl
  case fair =>
    dsimp only
    rw [client, told, cuts]
    intro some
    rcases wins with token | ⟨replying, success⟩ | alone
    · exact Or.inl token
    · rw [HedgeConn.isSuccess, Bool.and_eq_true, decide_eq_true_eq, decide_eq_true_eq] at success
      exact Or.inr ⟨by rw [replying]; decide, success⟩
    · obtain ⟨leg, member, linked⟩ := List.countP_pos_iff.mp some
      rw [legAlone, Bool.not_eq_true', List.any_eq_false] at alone
      exact absurd linked (alone leg member)
  case finished =>
    dsimp only
    rw [client]
    intro sunk
    exact absurd (unsunk.symm.trans sunk) Bool.false_ne_true
  case unfinished =>
    dsimp only
    rw [client]
    intro _
    rcases phase with is | is <;> rw [is] <;> decide

/-! ## The client that has an answer -/

/-- Closing a client that is decided only dooms it. -/
theorem closeClient_settled {r : HedgeRace} (settled : r.hedgeOpen = false) :
    r.closeClient = { r with doomed := true } := by
  obtain ⟨_, _, _, doomed, hedgeOpen, _, _, _, _, _, _⟩ := r
  dsimp only at settled
  subst settled
  unfold closeClient
  cases doomed <;> rfl

/-- A served client stays so when it is doomed or an error is counted. -/
theorem Served.gone {n w : Nat} {r : HedgeRace} (served : Served n w r) (doomed : Bool)
    (errors : Nat) : Served n w { r with doomed := doomed, errors := errors } :=
  ⟨served.inside, ⟨served.settled.isClosed, served.settled.legs, served.settled.cuts⟩, served.leg,
    served.won, served.uncut, served.told, served.own, served.others, served.counts, served.phase,
    served.fair⟩

/-- The winner's client may close. -/
theorem Won.close {n w : Nat} {r : HedgeRace} (won : Won n w r) : Won n w r.closeClient := by
  rw [closeClient_settled won.settled.isClosed]
  refine ⟨won.toServed.gone true r.errors, fun sunk => ?_, won.unfinished⟩
  exact (won.finished sunk).imp id fun ended => ⟨ended.1, rfl⟩

/-- The winner's pair may be aborted. -/
theorem Won.abort {n w : Nat} {r : HedgeRace} (won : Won n w r) : Won n w r.abortClient := by
  have closed := won.close
  exact ⟨closed.toServed.gone _ _, closed.finished, closed.unfinished⟩

/-- The winner's client may leave. -/
theorem Won.goes {n w : Nat} {r : HedgeRace} (won : Won n w r) : Won n w r.clientGone := by
  unfold clientGone
  split
  · exact won.close
  · exact won.abort

/-- The winner's record. -/
theorem Served.emit {n w : Nat} {r : HedgeRace} (served : Served n w r) (status : Nat)
    (streamed : Bool) : Served n w (r.emitClient status streamed) := by
  unfold emitClient
  by_cases sunk : r.client.sunk = true
  · rw [if_pos sunk]
    exact served
  rw [if_neg sunk]
  have own : (r.client.record status streamed).hedgeLeg = w := served.leg
  have cut : (r.client.record status streamed).hedgeCut = false := served.uncut
  refine ⟨served.inside, ⟨served.settled.isClosed, served.settled.legs, ?_⟩, served.leg,
    served.won, served.uncut, served.told, ?_, ?_, ?_, served.phase, served.fair⟩
  · dsimp only
    rw [List.countP_append, served.settled.cuts, List.countP_singleton, cut]
    rfl
  · refine List.forall_mem_append.mpr ⟨served.own, List.forall_mem_singleton.mpr fun _ => ?_⟩
    exact ⟨served.won, cut⟩
  · exact List.forall_mem_append.mpr
      ⟨served.others, List.forall_mem_singleton.mpr fun other => absurd own other⟩
  · intro i small
    have before := served.counts i small
    unfold recorded at before ⊢
    dsimp only
    rw [List.countP_append, before, List.countP_singleton, own]
    by_cases is : i = w
    · simp [is, sunk]
    · simp [is, Ne.symm is]

/-- Emitting the client's record changes nothing else of it. -/
theorem emitClient_same (r : HedgeRace) (status : Nat) (streamed : Bool) :
    (r.emitClient status streamed).client.sunk = true ∧
      (r.emitClient status streamed).client.phase = r.client.phase ∧
      (r.emitClient status streamed).client.streamEnded = r.client.streamEnded := by
  unfold emitClient
  by_cases sunk : r.client.sunk = true
  · rw [if_pos sunk]
    exact ⟨sunk, rfl, rfl⟩
  · rw [if_neg sunk]
    exact ⟨rfl, rfl, rfl⟩

/-- A served client whose answer is over and that is recorded. -/
theorem Served.idle {n w : Nat} {r : HedgeRace} (served : Served n w r)
    (sunk : r.client.sunk = true) (streaming : Bool) :
    Won n w { r with
      client := { r.client with streaming := streaming, out := [], phase := .idle } } := by
  constructor
  case toServed =>
    refine ⟨served.inside, ⟨served.settled.isClosed, served.settled.legs, served.settled.cuts⟩,
      served.leg, served.won, served.uncut, served.told, served.own, served.others, served.counts,
      Or.inr (Or.inr rfl), fun some => ?_⟩
    exact (served.fair some).imp id fun success =>
      ⟨(by decide : Phase.idle ≠ Phase.streaming), success.2⟩
  case finished => exact fun _ => Or.inl rfl
  case unfinished => exact fun no => absurd (sunk.symm.trans no) (by decide)

/-- The winner's answer may be over. -/
theorem Won.finish {n w : Nat} {r : HedgeRace} (won : Won n w r) : Won n w r.finishClient := by
  unfold finishClient
  split
  · exact won
  · have served := won.toServed.emit (statusOf r.client.out) false
    have sunk := (emitClient_same r (statusOf r.client.out) false).1
    have idle := served.idle sunk (r.emitClient (statusOf r.client.out) false).client.streaming
    dsimp only
    split
    · exact idle.close
    · exact idle

/-- The winner's reply may be sent, whole or not. -/
theorem Won.respond {n w : Nat} {r : HedgeRace} (won : Won n w r) (sent : Sent) :
    Won n w (r.respondClient sent) := by
  cases sent with
  | done => exact won.finish
  | queued => exact won
  | failed => exact won.goes

/-- A text of the stream that the client has. -/
theorem Won.tells {n w : Nat} {r : HedgeRace} (won : Won n w r)
    (streaming : r.client.phase = .streaming) (text : Bytes) {client : HedgeConn}
    (leg : client.leg = r.client.leg) (wins : client.hedgeWon = r.client.hedgeWon)
    (cut : client.hedgeCut = r.client.hedgeCut) (sunk : client.sunk = r.client.sunk)
    (phase : client.phase = r.client.phase)
    (token : r.client.token = true → client.token = true)
    (ended : r.client.streamEnded = true → client.streamEnded = true) (errors : Nat) :
    Won n w { r with
      client := client
      told := r.told ++ text
      said := r.said ++ [(r.client.leg, text)]
      errors := errors } := by
  constructor
  case toServed =>
    refine ⟨won.inside, ⟨won.settled.isClosed, won.settled.legs, won.settled.cuts⟩,
      leg.trans won.leg, wins.trans won.won, cut.trans won.uncut, ?_, won.own, won.others, ?_,
      by rw [phase]; exact won.phase, fun some => ?_⟩
    · dsimp only
      rw [won.leg, textsOf_append_same, won.told]
    · dsimp only
      rw [sunk]
      exact won.counts
    · rcases won.fair some with had | ⟨other, -⟩
      · exact Or.inl (token had)
      · exact absurd streaming other
  case finished =>
    dsimp only
    rw [sunk, phase]
    exact fun is => (won.finished is).imp id fun last => ⟨ended last.1, last.2⟩
  case unfinished =>
    dsimp only
    rw [sunk, phase]
    exact won.unfinished

/-- The winner's stream may be ended. -/
theorem Won.terminate {n w : Nat} {r : HedgeRace} (won : Won n w r)
    (streaming : r.client.phase = .streaming) (ending : Bytes) :
    Won n w (r.terminateClient ending) ∧
      (r.terminateClient ending).client.phase = .streaming := by
  unfold terminateClient
  split
  · exact ⟨@Won.tells n w r won streaming ending
      { r.client with streamTerminated := true, out := r.client.out ++ ending } rfl rfl rfl rfl rfl
      id id r.errors, streaming⟩
  · exact ⟨won, streaming⟩

/-- The winner's stream may be finalized. -/
theorem Won.finalize {n w : Nat} {r : HedgeRace} (won : Won n w r)
    (ended : r.client.streamEnded = true) : Won n w r.finalizeClient := by
  have served := won.toServed.emit 200 true
  obtain ⟨sunk, phase, same⟩ := emitClient_same r 200 true
  unfold finalizeClient
  dsimp only
  split
  · rw [closeClient_settled served.settled.isClosed]
    refine ⟨served.gone true _, fun _ => Or.inr ⟨same.trans ended, rfl⟩, fun no => ?_⟩
    exact absurd (sunk.symm.trans no) (by decide)
  · exact served.idle sunk false

/-- The winner's stream may be flushed. -/
theorem Won.flush {n w : Nat} {r : HedgeRace} (won : Won n w r)
    (streaming : r.client.phase = .streaming) (ending : Bytes) (sent : Sent) :
    Won n w (r.flushClient ending sent) := by
  obtain ⟨terminated, still⟩ := won.terminate streaming ending
  unfold flushClient
  generalize r.terminateClient ending = r at terminated still
  cases sent with
  | failed => exact terminated.abort
  | queued => exact terminated
  | done =>
      have drained : Won n w { r with client := { r.client with out := [] } } :=
        ⟨⟨terminated.inside, ⟨terminated.settled.isClosed, terminated.settled.legs,
          terminated.settled.cuts⟩, terminated.leg, terminated.won, terminated.uncut,
          terminated.told, terminated.own, terminated.others, terminated.counts,
          terminated.phase, terminated.fair⟩, terminated.finished, terminated.unfinished⟩
      dsimp only
      split
      · rename_i ended
        exact drained.finalize ended
      · exact drained

/-- The winner's stream may be pumped. -/
theorem Won.pump {n w : Nat} {r : HedgeRace} (won : Won n w r)
    (streaming : r.client.phase = .streaming) (text : Bytes) (token : Bool) (step : StreamStep)
    (ending : Bytes) (sent : Sent) : Won n w (r.pumpClient text token step ending sent) := by
  unfold pumpClient
  refine Won.flush (@Won.tells n w r won streaming text (r.client.stepped text token step) rfl rfl
    rfl rfl rfl (fun had => ?_) (fun had => ?_) _) streaming ending sent
  · rw [HedgeConn.stepped, had, Bool.true_or]
  · rw [HedgeConn.stepped, had, Bool.true_or]

/-! ## The client without an answer -/

/-- An unanswered client stays so when it is doomed or an error is counted. -/
theorem Unanswered.gone {n : Nat} {r : HedgeRace} (unanswered : Unanswered n r) (doomed : Bool)
    {errors : Nat} (counted : 0 < errors) :
    Unanswered n { r with doomed := doomed, errors := errors } :=
  ⟨⟨unanswered.settled.isClosed, unanswered.settled.legs, unanswered.settled.cuts⟩,
    unanswered.lost, unanswered.counts, unanswered.told, unanswered.uncut, unanswered.sunk,
    unanswered.phase, counted⟩

/-- An unanswered client may close. -/
theorem Unanswered.close {n : Nat} {r : HedgeRace} (unanswered : Unanswered n r) :
    Unanswered n r.closeClient := by
  rw [closeClient_settled unanswered.settled.isClosed]
  exact unanswered.gone true unanswered.counted

/-- An unanswered client may leave. -/
theorem Unanswered.goes {n : Nat} {r : HedgeRace} (unanswered : Unanswered n r) :
    Unanswered n r.clientGone := by
  unfold clientGone
  split
  · exact unanswered.close
  · exact unanswered.close.gone _ (Nat.succ_pos _)

/-- The gateway's own error may be sent, whole or not. -/
theorem Unanswered.respond {n : Nat} {r : HedgeRace} (unanswered : Unanswered n r)
    (sent : Sent) : Unanswered n (r.respondClient sent) := by
  cases sent with
  | queued => exact unanswered
  | failed => exact unanswered.goes
  | done =>
      unfold respondClient
      dsimp only
      unfold finishClient
      split
      · exact unanswered
      · have same : r.emitClient (statusOf r.client.out) false = r := by
          rw [emitClient, if_pos unanswered.sunk]
        rw [same]
        have idle : Unanswered n { r with client := { r.client with out := [], phase := .idle } } :=
          ⟨⟨unanswered.settled.isClosed, unanswered.settled.legs, unanswered.settled.cuts⟩,
            unanswered.lost, unanswered.counts, unanswered.told, unanswered.uncut,
            unanswered.sunk, Or.inr rfl, unanswered.counted⟩
        dsimp only
        split
        · exact idle.close
        · exact idle

/-- The last leg ends with nothing to show: the client gets the one 502. -/
theorem Acting.last {n i : Nat} {r : HedgeRace} {s : HedgeConn} (acting : Acting n i r s)
    {entry : HedgeRecord} (lost : entry.Lost) (leg : entry.hedgeLeg = i)
    (ended : (r.without i entry).live = false) (sent : Sent) :
    Unanswered n (errorRespondClient
      { r.without i entry with
        hedgeOpen := false
        client := { (r.without i entry).client with sunk := true } } 502 sent) := by
  have books := acting.books_without lost leg
  have there : (r.without i entry).doomed = false := acting.there
  have client : (r.without i entry).client = { leg := 0 } := acting.client
  have told : (r.without i entry).told = [] := acting.told
  have cuts : (r.without i entry).legsCut = 0 := acting.cuts
  have length : (r.without i entry).hedgeLegs.length = n :=
    (List.length_set ..).trans acting.legs
  generalize r.without i entry = r at *
  have legs : r.hedgeLegs = List.replicate n none := by
    refine List.eq_replicate_iff.mpr ⟨length, fun leg member => ?_⟩
    have gone := List.any_eq_false.mp ended leg member
    cases leg with
    | none => rfl
    | some t => exact absurd rfl gone
  have counts : ∀ j < n, r.recorded j = 1 := by
    intro j small
    have unlinked : r.linked j = false := by
      unfold linked
      rw [legs, List.getElem?_replicate]
      split <;> rfl
    rw [books.counts j small, unlinked]
    rfl
  have uncut : r.records.countP (fun entry => entry.hedgeCut) = 0 := by
    rw [List.countP_eq_zero]
    intro found member
    rw [(books.lost found member).cut]
    exact Bool.false_ne_true
  unfold errorRespondClient
  dsimp only
  rw [there, if_neg Bool.false_ne_true, client, if_neg (by decide), told]
  refine Unanswered.respond ?_ sent
  exact ⟨⟨rfl, legs, uncut.trans cuts.symm⟩, books.lost, counts, rfl, cuts, rfl, Or.inl rfl,
    Nat.succ_pos _⟩

/-- A leg closes, recorded as `entry`. -/
theorem Acting.close {n i : Nat} {r r₀ : HedgeRace} {s s₀ : HedgeConn} (acting : Acting n i r s)
    {entry : HedgeRecord} (lost : entry.Lost) (leg : entry.hedgeLeg = i)
    (drops : r₀.dropLeg i s₀ = r.without i entry) (sent : Sent) :
    Waits n (r₀.closeShadow i s₀ sent) ∨ Unanswered n (r₀.closeShadow i s₀ sent) := by
  unfold closeShadow
  dsimp only
  rw [drops]
  have isOpen : (r.without i entry).hedgeOpen = true := acting.isOpen
  rw [isOpen, Bool.not_true, Bool.false_or]
  by_cases live : (r.without i entry).live = true
  · rw [if_pos live]
    exact Or.inl (acting.waits_without lost leg live)
  · rw [if_neg live]
    exact Or.inr (acting.last lost leg (Bool.eq_false_of_not_eq_true live) sent)

/-- A leg closes before it answered. -/
theorem Acting.drop {n i : Nat} {r : HedgeRace} {s : HedgeConn} (acting : Acting n i r s)
    (unsunk : s.sunk = false) (busy : s.phase ≠ .idle) (sent : Sent) :
    Waits n (r.closeShadow i s sent) ∨ Unanswered n (r.closeShadow i s sent) := by
  refine @Acting.close n i r r s s acting
    (s.record (if s.hedgeCut then 0 else if s.streaming then 200 else 502) s.streaming)
    ⟨acting.unwon, acting.uncut, ?_⟩ acting.leg ?_ sent
  · unfold HedgeConn.record
    rw [acting.uncut, if_neg Bool.false_ne_true]
    cases s.streaming with
    | false => exact Or.inr (by simp)
    | true => exact Or.inl rfl
  · simp [dropLeg, without, unsunk, busy]

/-- A leg closes that `entry` records already. -/
theorem Acting.record {n i : Nat} {r : HedgeRace} {s : HedgeConn} (acting : Acting n i r s)
    {entry : HedgeRecord} (lost : entry.Lost) (leg : entry.hedgeLeg = i) {s₀ : HedgeConn}
    (sunk : s₀.sunk = true) (sent : Sent) :
    Waits n (closeShadow { r with records := r.records ++ [entry] } i s₀ sent) ∨
      Unanswered n (closeShadow { r with records := r.records ++ [entry] } i s₀ sent) := by
  refine acting.close lost leg ?_ sent
  simp [dropLeg, without, sunk]

/-- The client leaves while it waits: every leg is cut. -/
theorem Waits.leave {n : Nat} {r : HedgeRace} (waits : Waits n r) : Left n r.clientGone := by
  obtain ⟨settled, each, counts, cuts⟩ := @settled_cuts n { r with doomed := true } waits.legs
    waits.each waits.books.lost waits.cuts
  have cuttable : ∀ t, some t ∈ r.hedgeLegs → Cuttable t := by
    intro t member
    obtain ⟨j, there⟩ := List.mem_iff_getElem?.mp member
    exact (waits.each j t there).cuttable
  have same := @settleHedge_eq { r with doomed := true } cuttable
  have busy : r.client.phase ≠ .idle := by
    rw [waits.client]
    decide
  have closes : r.closeClient = settleHedge { r with doomed := true } := by
    rw [closeClient, waits.there, if_neg Bool.false_ne_true, waits.isOpen, if_pos rfl]
  unfold clientGone
  rw [if_neg busy, abortClient, closes]
  constructor
  case settled => exact ⟨settled.isClosed, settled.legs, settled.cuts⟩
  case each => exact each
  case counts =>
    intro i small
    have before := waits.books.counts i small
    have count := counts i
    have kept : HedgeRace.recorded { r with doomed := true } i = r.recorded i := rfl
    have linked : HedgeRace.linked { r with doomed := true } i = r.linked i := rfl
    rw [kept, linked, before] at count
    refine count.trans ?_
    cases r.linked i <;> rfl
  case told =>
    rw [same]
    exact waits.told
  case gone =>
    rw [same]

/-! ## Runs -/

/-- Where a hedged request stands. -/
inductive Verdict
  | waits
  | won (leg : Nat)
  | unanswered
  | left
  deriving DecidableEq, Repr

/-- A race stands so. -/
def Stands (n : Nat) (r : HedgeRace) : Verdict → Prop
  | .waits => Waits n r
  | .won w => Won n w r
  | .unanswered => Unanswered n r
  | .left => Left n r

/-- What a leg of a client that waits may lead to. -/
def Decided (n i : Nat) (r : HedgeRace) : Prop :=
  Waits n r ∨ Won n i r ∨ Unanswered n r

/-- A streaming leg that said nothing yet is one of a client that waits. -/
theorem LegOk.stepped {said : List (Nat × Bytes)} {i : Nat} {s : HedgeConn}
    (leg : s.leg = i) (unwon : s.hedgeWon = false) (uncut : s.hedgeCut = false)
    (unsunk : s.sunk = false) (streaming : s.phase = .streaming) (silent : s.token = false)
    (staged : s.out = textsOf i said) : LegOk said i s :=
  ⟨leg, unwon, uncut, unsunk, Or.inr streaming, silent, staged⟩

/-- A leg's stream, flushed: its first token wins, its end loses while another is left. -/
theorem Acting.flush {n i : Nat} {r : HedgeRace} {s : HedgeConn} (acting : Acting n i r s)
    (unsunk : s.sunk = false) (streaming : s.phase = .streaming) (ending : Bytes) (sent : Sent) :
    Decided n i (r.flushLeg i s ending sent) := by
  have whileOpen : ∀ b, (r.hedgeOpen && b) = b := by
    intro b
    rw [acting.isOpen, Bool.true_and]
  unfold flushLeg
  rw [whileOpen, whileOpen]
  by_cases holds : (!s.token && !s.streamEnded) = true
  · rw [if_pos holds]
    rw [Bool.and_eq_true, Bool.not_eq_true', Bool.not_eq_true'] at holds
    exact Or.inl (acting.setLeg (LegOk.stepped acting.leg acting.unwon acting.uncut unsunk streaming
      holds.1 acting.staged))
  rw [if_neg holds]
  by_cases wins : (s.token || r.legAlone i) = true
  · rw [if_pos wins]
    have won := acting.adopt unsunk (Or.inl streaming) (by
      rcases Bool.or_eq_true_iff.mp wins with token | alone
      · exact Or.inl token
      · exact Or.inr (Or.inr alone))
    have still : (r.adoptLeg i s).client.phase = .streaming := by
      rw [adoptLeg_client]
      exact streaming
    exact Or.inr (Or.inl (won.flush still ending sent))
  · rw [if_neg wins]
    have ended : s.streamEnded = true := by
      cases token : s.token with
      | true => simp [token] at wins
      | false => simpa [token] using holds
    rw [if_pos ended, unsunk, if_neg Bool.false_ne_true]
    have lost : (s.record 200 true).Lost := ⟨acting.unwon, acting.uncut, Or.inl rfl⟩
    rcases @Acting.record n i r s acting _ lost acting.leg { s with sunk := true, out := [] } rfl
      sent with waits | unanswered
    · exact Or.inl waits
    · exact Or.inr (Or.inr unanswered)

/-- A leg's whole reply: a 2xx wins, and any other loses while another leg is left. -/
theorem Acting.respond {n i : Nat} {r : HedgeRace} {s : HedgeConn} (acting : Acting n i r s)
    (unsunk : s.sunk = false) (replying : s.phase = .replying) (sent : Sent) :
    Decided n i (r.respondLeg i s sent) := by
  have whileOpen : ∀ b, (r.hedgeOpen && b) = b := by
    intro b
    rw [acting.isOpen, Bool.true_and]
  unfold respondLeg
  rw [whileOpen]
  by_cases wins : (s.isSuccess || r.legAlone i) = true
  · rw [if_pos wins]
    have won := acting.adopt unsunk (Or.inr replying) (by
      rcases Bool.or_eq_true_iff.mp wins with success | alone
      · exact Or.inr (Or.inl ⟨replying, success⟩)
      · exact Or.inr (Or.inr alone))
    exact Or.inr (Or.inl (won.respond sent))
  · rw [if_neg wins]
    unfold finishLeg
    rw [unsunk, if_neg Bool.false_ne_true]
    have failure : ¬ (200 ≤ statusOf s.out ∧ statusOf s.out < 300) := by
      rintro ⟨low, high⟩
      exact wins (by simp [HedgeConn.isSuccess, low, high])
    have lost : (s.record (statusOf s.out) false).Lost :=
      ⟨acting.unwon, acting.uncut, Or.inr failure⟩
    rcases @Acting.record n i r s acting _ lost acting.leg
      { s with sunk := true, out := [], phase := .idle } rfl sent with waits | unanswered
    · exact Or.inl waits
    · exact Or.inr (Or.inr unanswered)

/-- What a leg does is done by a leg that is there. -/
theorem atLeg_some {r r' : HedgeRace} {i : Nat} {act : HedgeConn → Option HedgeRace}
    (acts : r.atLeg i act = some r') : ∃ s, r.hedgeLegs[i]? = some (some s) ∧ act s = some r' := by
  unfold atLeg at acts
  split at acts
  · rename_i s there
    exact ⟨s, there, acts⟩
  · cases acts

/-- No leg is linked once the race is settled. -/
theorem atLeg_settled {n : Nat} {r : HedgeRace} (settled : Settled n r) (i : Nat)
    (act : HedgeConn → Option HedgeRace) : r.atLeg i act = none := by
  cases acts : r.atLeg i act with
  | none => rfl
  | some r' =>
      obtain ⟨s, there, -⟩ := atLeg_some acts
      rw [settled.legs, List.getElem?_replicate] at there
      split at there <;> cases there

/-- While the client waits, what a leg does decides for it, or leaves it waiting. -/
theorem Waits.step {n : Nat} {r r' : HedgeRace} {event : HedgeEvent} (waits : Waits n r)
    (steps : r.step event = some r') : ∃ v, Stands n r' v := by
  have decided : ∀ {i : Nat} {r'' : HedgeRace}, Decided n i r'' → r'' = r' →
      ∃ v, Stands n r' v := by
    rintro i r'' (still | won | unanswered) rfl
    · exact ⟨.waits, still⟩
    · exact ⟨.won i, won⟩
    · exact ⟨.unanswered, unanswered⟩
  cases event with
  | began i head text token step ending sent =>
      obtain ⟨s, there, acts⟩ := atLeg_some steps
      split at acts
      · rename_i dispatched
        have ok := waits.each i s there
        have begun := @Acting.said n i r s (s.began head) (waits.acting there) head rfl rfl rfl rfl
        have acting := @Acting.said n i _ _ { (s.began head).stepped text token step with
          errorOwed := s.errorOwed || (step == .corrupt || step == .failed) } begun text rfl rfl
          rfl rfl
        exact decided (acting.flush ok.unsunk rfl ending sent) (Option.some.inj acts)
      · cases acts
  | pumped i text token step ending sent =>
      obtain ⟨s, there, acts⟩ := atLeg_some steps
      split at acts
      · rename_i streaming
        have ok := waits.each i s there
        have acting := @Acting.said n i _ _ { s.stepped text token step with
          errorOwed := s.errorOwed || (step == .corrupt || step == .failed) }
          (waits.acting there) text rfl rfl rfl rfl
        exact decided (acting.flush ok.unsunk streaming ending sent) (Option.some.inj acts)
      · cases acts
  | replied i text owed sent =>
      obtain ⟨s, there, acts⟩ := atLeg_some steps
      split at acts
      · rename_i dispatched
        have ok := waits.each i s there
        have acting := @Acting.said n i _ _ { s with
          out := s.out ++ text
          phase := .replying
          errorOwed := s.errorOwed || owed } (waits.acting there) text rfl rfl rfl rfl
        exact decided (acting.respond ok.unsunk rfl sent) (Option.some.inj acts)
      · cases acts
  | refused i code detail sent =>
      obtain ⟨s, there, acts⟩ := atLeg_some steps
      have ok := waits.each i s there
      have acted := Option.some.inj acts
      unfold errorRespondLeg at acted
      split at acted
      · rcases (waits.acting there).drop ok.unsunk ok.cuttable.2 sent with still | unanswered
        · exact decided (i := i) (Or.inl still) acted
        · exact decided (i := i) (Or.inr (Or.inr unanswered)) acted
      · rename_i fresh
        have empty : s.out = [] := by
          by_contra some
          exact fresh (Or.inr some)
        have acting := @Acting.said n i _ _ { s with
          out := appendError [] code detail false
          phase := .replying
          closeAfterResp := true
          errorOwed := true } (waits.acting there) (appendError [] code detail false) rfl rfl rfl
          (by rw [empty, List.nil_append])
        exact decided (acting.respond ok.unsunk rfl sent) acted
  | closed i sent =>
      obtain ⟨s, there, acts⟩ := atLeg_some steps
      have ok := waits.each i s there
      rcases (waits.acting there).drop ok.unsunk ok.cuttable.2 sent with still | unanswered
      · exact decided (i := i) (Or.inl still) (Option.some.inj acts)
      · exact decided (i := i) (Or.inr (Or.inr unanswered)) (Option.some.inj acts)
  | streamed text token step ending sent =>
      rw [HedgeRace.step, waits.isOpen] at steps
      simp at steps
  | drained ending sent =>
      rw [HedgeRace.step, waits.isOpen] at steps
      simp at steps
  | left =>
      rw [HedgeRace.step, waits.there, if_neg Bool.false_ne_true] at steps
      rw [← Option.some.inj steps]
      exact ⟨.left, waits.leave⟩

/-- The winner's client goes on with it. -/
theorem Won.step {n w : Nat} {r r' : HedgeRace} {event : HedgeEvent} (won : Won n w r)
    (steps : r.step event = some r') : Won n w r' := by
  cases event with
  | began | pumped | replied | refused | closed =>
      rw [HedgeRace.step, atLeg_settled won.settled] at steps
      cases steps
  | streamed text token step ending sent =>
      rw [HedgeRace.step] at steps
      split at steps
      · rename_i streaming
        simp only [Bool.and_eq_true, beq_iff_eq] at streaming
        rw [← Option.some.inj steps]
        exact won.pump streaming.2 text token step ending sent
      · cases steps
  | drained ending sent =>
      rw [HedgeRace.step] at steps
      split at steps
      · cases steps
      · split at steps
        · rename_i streaming
          rw [← Option.some.inj steps]
          exact won.flush streaming ending sent
        · split at steps
          · rw [← Option.some.inj steps]
            exact won.respond sent
          · cases steps
  | left =>
      rw [HedgeRace.step] at steps
      split at steps
      · cases steps
      · rw [← Option.some.inj steps]
        exact won.goes

/-- Every event leaves an unanswered race unanswered. -/
theorem Unanswered.step {n : Nat} {r r' : HedgeRace} {event : HedgeEvent}
    (unanswered : Unanswered n r) (steps : r.step event = some r') : Unanswered n r' := by
  have silent : r.client.phase ≠ .streaming := by
    rcases unanswered.phase with is | is <;> rw [is] <;> decide
  cases event with
  | began | pumped | replied | refused | closed =>
      rw [HedgeRace.step, atLeg_settled unanswered.settled] at steps
      cases steps
  | streamed text token step ending sent =>
      rw [HedgeRace.step, if_neg (by simp [silent])] at steps
      cases steps
  | drained ending sent =>
      rw [HedgeRace.step] at steps
      split at steps
      · cases steps
      · split at steps
        · rw [← Option.some.inj steps]
          exact unanswered.respond sent
        · cases steps
  | left =>
      rw [HedgeRace.step] at steps
      split at steps
      · cases steps
      · rw [← Option.some.inj steps]
        exact unanswered.goes

/-- Nothing happens to a request whose client left. -/
theorem Left.step {n : Nat} {r : HedgeRace} (left : Left n r) (event : HedgeEvent) :
    r.step event = none := by
  cases event with
  | began | pumped | replied | refused | closed =>
      rw [HedgeRace.step, atLeg_settled left.settled]
  | streamed text token step ending sent =>
      rw [HedgeRace.step, left.gone]
      rfl
  | drained ending sent =>
      rw [HedgeRace.step, left.gone]
      rfl
  | left =>
      rw [HedgeRace.step, left.gone]
      rfl

/-- A decided race stays decided as it is. -/
theorem Stands.step {n : Nat} {r r' : HedgeRace} {v : Verdict} {event : HedgeEvent}
    (stands : Stands n r v) (decided : v ≠ .waits) (steps : r.step event = some r') :
    Stands n r' v := by
  cases v with
  | waits => exact absurd rfl decided
  | won w => exact Won.step stands steps
  | unanswered => exact Unanswered.step stands steps
  | left =>
      rw [Left.step stands event] at steps
      cases steps

/-- A run is its first event and the run behind it. -/
theorem run_cons {r r' : HedgeRace} {event : HedgeEvent} {events : List HedgeEvent}
    (runs : r.run (event :: events) = some r') :
    ∃ next, r.step event = some next ∧ next.run events = some r' := by
  rw [HedgeRace.run, List.foldlM_cons] at runs
  exact Option.bind_eq_some_iff.mp runs

/-- A decided race stands the same way behind any run. -/
theorem Stands.run {n : Nat} {r r' : HedgeRace} {v : Verdict} {events : List HedgeEvent}
    (stands : Stands n r v) (decided : v ≠ .waits) (runs : r.run events = some r') :
    Stands n r' v := by
  induction events generalizing r with
  | nil =>
      obtain rfl : r = r' := Option.some.inj runs
      exact stands
  | cons event events inductionHypothesis =>
      obtain ⟨next, steps, runs⟩ := run_cons runs
      exact inductionHypothesis (stands.step decided steps) runs

/-- Every run of a client that waits comes to one standing. -/
theorem Waits.run {n : Nat} {r r' : HedgeRace} {events : List HedgeEvent} (waits : Waits n r)
    (runs : r.run events = some r') : ∃ v, Stands n r' v := by
  induction events generalizing r with
  | nil =>
      obtain rfl : r = r' := Option.some.inj runs
      exact ⟨.waits, waits⟩
  | cons event events inductionHypothesis =>
      obtain ⟨next, steps, runs⟩ := run_cons runs
      obtain ⟨v, stands⟩ := waits.step steps
      by_cases still : v = .waits
      · subst still
        exact inductionHypothesis stands runs
      · exact ⟨v, stands.run still runs⟩

/-- A hedged request begins with a client that waits. -/
theorem waits_spawned (http11 keepAlive : Bool) {n : Nat} (some : 0 < n) :
    Waits n (spawned http11 keepAlive n) := by
  have at' : ∀ i, (spawned http11 keepAlive n).hedgeLegs[i]? =
      if i < n then Option.some (Option.some ({ leg := i } : HedgeConn)) else none := by
    intro i
    rw [spawned, List.getElem?_map]
    split
    · rename_i inside
      rw [List.getElem?_range inside]
      rfl
    · rename_i beyond
      rw [List.getElem?_eq_none (by simpa using beyond)]
      rfl
  constructor
  case legs => simp [spawned]
  case each =>
    intro i s there
    rw [at'] at there
    split at there
    · obtain rfl := Option.some.inj (Option.some.inj there)
      exact ⟨rfl, rfl, rfl, rfl, Or.inl ⟨rfl, rfl⟩, rfl, rfl⟩
    · cases there
  case live =>
    refine List.any_eq_true.mpr ⟨Option.some { leg := 0 }, ?_, rfl⟩
    exact List.mem_iff_getElem?.mpr ⟨0, by rw [at', if_pos some]⟩
  case isOpen => rfl
  case client => rfl
  case there => rfl
  case told => rfl
  case errors => rfl
  case cuts => rfl
  case books =>
    refine ⟨List.forall_mem_nil _, fun i small => ?_⟩
    rw [linked, at', if_pos small]
    rfl

/-- Only a race that waits is open. -/
theorem Stands.isOpen_iff {n : Nat} {r : HedgeRace} {v : Verdict} (stands : Stands n r v) :
    r.hedgeOpen = true ↔ v = .waits := by
  have decided : Settled n r → v ≠ .waits → (r.hedgeOpen = true ↔ v = .waits) := by
    intro settled other
    rw [settled.isClosed]
    exact ⟨fun no => absurd no Bool.false_ne_true, fun waits => absurd waits other⟩
  cases v with
  | waits => exact ⟨fun _ => rfl, fun _ => Waits.isOpen stands⟩
  | won w =>
      have won : Won n w r := stands
      exact decided won.settled Verdict.noConfusion
  | unanswered => exact decided (Unanswered.settled stands) Verdict.noConfusion
  | left => exact decided (Left.settled stands) Verdict.noConfusion

/-- The leg that won has no record of a loss or of a cut. -/
theorem Served.unlost {n w : Nat} {r : HedgeRace} (served : Served n w r)
    (others : ∀ entry ∈ r.records, entry.Lost ∨ entry.Cut) : r.recorded w ≠ 1 := by
  intro counted
  have some : 0 < r.recorded w := by
    rw [counted]
    exact Nat.one_pos
  obtain ⟨entry, member, same⟩ := List.countP_pos_iff.mp some
  have own := (served.own entry member (of_decide_eq_true same)).1
  rcases others entry member with lost | cut
  · exact absurd (own.symm.trans lost.won) (by decide)
  · exact absurd (own.symm.trans cut.won) (by decide)

/-- The client of an unanswered race was told, and one that left was not. -/
theorem Unanswered.stayed {n : Nat} {r : HedgeRace} (unanswered : Unanswered n r)
    (left : Left n r) : False := by
  have silent := unanswered.told.symm.trans left.told
  revert silent
  decide

/-- A race stands in one way only. -/
theorem Stands.unique {n : Nat} {r : HedgeRace} {v v' : Verdict} (stands : Stands n r v)
    (stands' : Stands n r v') : v = v' := by
  by_cases waits : v = .waits
  · exact waits.trans (stands'.isOpen_iff.mp (stands.isOpen_iff.mpr waits)).symm
  have decided : v' ≠ .waits := fun waits' =>
    waits (stands.isOpen_iff.mp (stands'.isOpen_iff.mpr waits'))
  have unlost : ∀ {w}, Won n w r → ¬ Unanswered n r ∧ ¬ Left n r := fun won =>
    ⟨fun unanswered => won.unlost (fun entry member => Or.inl (unanswered.lost entry member))
        (unanswered.counts _ won.inside),
      fun left => won.unlost left.each (left.counts _ won.inside)⟩
  cases v with
  | waits => exact absurd rfl waits
  | won w =>
      cases v' with
      | waits => exact absurd rfl decided
      | won w' =>
          have won : Won n w r := stands
          have won' : Won n w' r := stands'
          exact congrArg Verdict.won (won.leg.symm.trans won'.leg)
      | unanswered => exact absurd stands' (unlost stands).1
      | left => exact absurd stands' (unlost stands).2
  | unanswered =>
      cases v' with
      | waits => exact absurd rfl decided
      | won _ => exact absurd stands (unlost stands').1
      | unanswered => rfl
      | left => exact (Unanswered.stayed stands stands').elim
  | left =>
      cases v' with
      | waits => exact absurd rfl decided
      | won _ => exact absurd stands (unlost stands').2
      | unanswered => exact (Unanswered.stayed stands' stands).elim
      | left => rfl

/-- However a hedged request's legs and its client interleave, it comes to exactly one
standing, and once decided stays so: the client waits with nothing told while a leg is left
that can answer it; it has one leg's texts and no other's; it has the gateway's 502, every
leg having failed; or it left. Every leg that is gone has its one record. -/
theorem hedge_answers (http11 keepAlive : Bool) {n : Nat} (legs : 0 < n)
    {events : List HedgeEvent} {r : HedgeRace}
    (runs : (spawned http11 keepAlive n).run events = some r) :
    ∃ v, Stands n r v ∧ (∀ v', Stands n r v' → v' = v) ∧
      ∀ more r', v ≠ .waits → r.run more = some r' → Stands n r' v := by
  obtain ⟨v, stands⟩ := (waits_spawned http11 keepAlive legs).run runs
  exact ⟨v, stands, fun v' stands' => stands'.unique stands,
    fun more r' decided goesOn => stands.run decided goesOn⟩

/-- One leg fails, the other's first token wins. -/
def tokenRace : HedgeRace :=
  ((spawned true true 2).run
    [.replied 0 (ascii "HTTP/1.1 503 x") true .done,
      .began 1 (ascii "H") (ascii "a") true .ok [] .done]).get (by decide +kernel)

theorem hedge_answers_token :
    ∃ v, Stands 2 tokenRace v ∧ (∀ v', Stands 2 tokenRace v' → v' = v) ∧
      ∀ more r', v ≠ .waits → tokenRace.run more = some r' → Stands 2 r' v :=
  hedge_answers true true (by decide) (Option.some_get _).symm

/-- What the sink has of a hedged request that is decided: at most one record a leg, and
exactly one but for a winner whose answer is not over; the winner's is the only one that
won, a cut leg's says 0, and every other says a failure, or a stream that had no token. -/
structure SinkHas (n : Nat) (r : HedgeRace) : Prop where
  each : ∀ i < n, r.recorded i = 1 ∨
    r.recorded i = 0 ∧ r.client.leg = i ∧ r.client.hedgeWon = true ∧ r.client.phase ≠ .idle
  won : ∀ entry ∈ r.records, entry.hedgeWon = true →
    r.client.hedgeWon = true ∧ entry.hedgeLeg = r.client.leg ∧ entry.hedgeCut = false
  cut : ∀ entry ∈ r.records, entry.hedgeCut = true → entry.status = 0
  lost : ∀ entry ∈ r.records, entry.hedgeWon = false → entry.hedgeCut = false →
    entry.streamed = true ∨ ¬ (200 ≤ entry.status ∧ entry.status < 300)
  cuts : r.records.countP (fun entry => entry.hedgeCut) = r.legsCut

/-- However a hedged request was decided, the sink has its legs' records and no others. -/
theorem hedge_records (http11 keepAlive : Bool) {n : Nat} (legs : 0 < n)
    {events : List HedgeEvent} {r : HedgeRace}
    (runs : (spawned http11 keepAlive n).run events = some r) (decided : r.hedgeOpen = false) :
    SinkHas n r := by
  obtain ⟨v, stands⟩ := (waits_spawned http11 keepAlive legs).run runs
  cases v with
  | waits => exact absurd (stands.isOpen.symm.trans decided) (by decide)
  | won w =>
      have won : Won n w r := stands
      refine ⟨fun i small => ?_, fun entry member wins => ?_, fun entry member cut => ?_,
        fun entry member loses uncut => ?_, won.settled.cuts⟩
      · have count := won.counts i small
        by_cases is : i = w
        · rw [if_pos is] at count
          cases sunk : r.client.sunk with
          | true =>
              rw [sunk] at count
              exact Or.inl count
          | false =>
              rw [sunk] at count
              exact Or.inr ⟨count, won.leg.trans is.symm, won.won, won.unfinished sunk⟩
        · rw [if_neg is] at count
          exact Or.inl count
      · by_cases own : entry.hedgeLeg = w
        · exact ⟨won.won, own.trans won.leg.symm, (won.own entry member own).2⟩
        · rcases won.others entry member own with lost | cut
          · exact absurd (wins.symm.trans lost.won) (by decide)
          · exact absurd (wins.symm.trans cut.won) (by decide)
      · by_cases own : entry.hedgeLeg = w
        · exact absurd (cut.symm.trans (won.own entry member own).2) (by decide)
        · rcases won.others entry member own with lost | isCut
          · exact absurd (cut.symm.trans lost.cut) (by decide)
          · exact isCut.status
      · by_cases own : entry.hedgeLeg = w
        · exact absurd ((won.own entry member own).1.symm.trans loses) (by decide)
        · rcases won.others entry member own with lost | isCut
          · exact lost.failure
          · exact absurd (isCut.cut.symm.trans uncut) (by decide)
  | unanswered =>
      have unanswered : Unanswered n r := stands
      refine ⟨fun i small => Or.inl (unanswered.counts i small), fun entry member wins => ?_,
        fun entry member cut => ?_, fun entry member _ _ => (unanswered.lost entry member).failure,
        unanswered.settled.cuts⟩
      · exact absurd (wins.symm.trans (unanswered.lost entry member).won) (by decide)
      · exact absurd (cut.symm.trans (unanswered.lost entry member).cut) (by decide)
  | left =>
      have left : Left n r := stands
      refine ⟨fun i small => Or.inl (left.counts i small), fun entry member wins => ?_,
        fun entry member cut => ?_, fun entry member _ uncut => ?_, left.settled.cuts⟩
      · rcases left.each entry member with lost | isCut
        · exact absurd (wins.symm.trans lost.won) (by decide)
        · exact absurd (wins.symm.trans isCut.won) (by decide)
      · rcases left.each entry member with lost | isCut
        · exact absurd (cut.symm.trans lost.cut) (by decide)
        · exact isCut.status
      · rcases left.each entry member with lost | isCut
        · exact lost.failure
        · exact absurd (isCut.cut.symm.trans uncut) (by decide)

/-- The winner's client leaves in its stream: the winner has no record. -/
theorem hedge_records_left :
    SinkHas 2 (((spawned true true 2).run
      [.began 0 (ascii "H") (ascii "a") true .ok [] .done, .left]).get (by decide +kernel)) :=
  hedge_records true true (by decide) (Option.some_get _).symm (by decide +kernel)

example :
    ((spawned true true 2).run [.began 0 (ascii "H") (ascii "a") true .ok [] .done, .left]).map
      HedgeRace.records = some [⟨1, 0, false, false, true⟩] := by
  decide +kernel

end HedgeRace
end Gateway
end Llmbridge
