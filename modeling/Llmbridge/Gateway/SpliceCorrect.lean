import Llmbridge.Gateway.SpliceRanges
import Llmbridge.Provider.OverridesHeld
import Llmbridge.Provider.TranslateBody

/-!
# A streamed splice says what the held rewrite says

Whatever the cuts of an accepted body, the ranges written make up one text: the
client's root with the members of the splice put in front, the client's own of
those names dropped, and its model replaced when it was the sentinel.  The held
rewrite of `apply_overrides` has the same root members where it accepts.
-/

namespace Llmbridge
namespace Gateway

open Rfc8259
open BodyScan (Placed Config rootMembers sizeMax Scanned)
open JsonScan (rawMembers)
open Translate (modelOf Overrides applyOverrides)
open MemberEdits

/-! ## The model of a body -/

/-- The contents of a plain string value are a text exactly when the value is it
between quotes. -/
theorem plainString_eq_iff
    {v : Bytes} (some : v ≠ []) (plain : ∀ c ∈ v, isPlain c = true) (raw : Bytes) :
    JsonScan.plainString raw = v ↔ raw = quoted v := by
  have unescaped : v.contains 0x5c = false := by
    rw [Bool.eq_false_iff, Ne, List.contains_iff_mem]
    intro member
    exact Bool.noConfusion (plain _ member)
  constructor
  · intro same
    rw [JsonScan.plainString] at same
    by_cases bare : raw.length < 2 ∨ raw.head? ≠ Option.some 0x22 ∨
        raw.getLast? ≠ Option.some 0x22
    · rw [if_pos bare] at same
      exact absurd same.symm some
    · rw [if_neg bare] at same
      obtain ⟨long, first, last⟩ : 2 ≤ raw.length ∧ raw.head? = Option.some 0x22 ∧
          raw.getLast? = Option.some 0x22 := by
        rw [not_or, not_or, not_not, not_not] at bare
        exact ⟨Nat.le_of_not_lt bare.1, bare.2⟩
      dsimp only at same
      split at same
      · exact absurd same.symm some
      · match raw, first with
        | c :: rest, first =>
            obtain rfl : c = 0x22 := by simpa using first
            have nonempty : rest ≠ [] := by
              rintro rfl
              simp at long
            have split := List.dropLast_append_getLast nonempty
            rw [List.getLast?_cons_of_ne_nil nonempty,
              List.getLast?_eq_some_getLast nonempty, Option.some.injEq] at last
            rw [last] at split
            rw [quoted, ← same, substr, List.drop_succ_cons, List.drop_zero,
              List.length_cons, show rest.length + 1 - 2 = rest.length - 1 by omega,
              ← List.dropLast_eq_take, split]
  · rintro rfl
    have size : (quoted v).length = v.length + 2 := by simp [quoted]
    have inside : substr (quoted v) 1 v.length = v := by
      rw [substr, quoted, List.drop_succ_cons, List.drop_zero, List.take_left]
    rw [JsonScan.plainString, if_neg, size, Nat.add_sub_cancel, inside]
    · simp only [unescaped]
      rfl
    · rw [size]
      simp [quoted, List.getLast?_cons_of_ne_nil]

/-- `first_member` on the text of a body. -/
theorem firstMember_render (text : Text) (key : Bytes) :
    JsonScan.firstMember text.render key =
      (((rootMembers text).find? fun p => p.name = key).map fun p =>
        p.value.render).getD [] := by
  have located : Located text.render 0 (text.pre.bytes ++ text.value.render) :=
    ⟨text.post.bytes, by rw [Text.render]; simp⟩
  have named : ∀ ps : List Placed,
      JsonScan.eachMember (fun (out : Bytes) k v =>
          if k ≠ key then (out, true) else (v, false)) []
          (ps.map fun p => (p.name, p.value.render)) =
        ((ps.find? fun p => p.name = key).map fun p => p.value.render).getD [] := by
    intro ps
    induction ps with
    | nil => rfl
    | cons p ps inductionHypothesis =>
        rw [List.map_cons, JsonScan.eachMember]
        by_cases same : p.name = key
        · simp [same]
        · rw [List.find?_cons_of_neg (by simpa using same), ← inductionHypothesis]
          simp [same]
  have both := congrArg (List.map fun m => (m.1, m.2.render))
    (BodyScan.inside_members text.pre.bytes.length text.value)
  simp only [List.map_map] at both
  rw [JsonScan.firstMember, JsonScan.forEachMember_located _ text.pre text.value located]
  dsimp only
  rw [← named]
  exact congrArg _ both.symm

/-- `matches` on the text of a value. -/
theorem matches_located
    (m : ModelSplice) {body bytes : Bytes} {«at» : Nat}
    (located : Located body «at» bytes) (small : «at» + bytes.length < sizeMax)
    (inside : «at» + bytes.length ≤ body.length) :
    m.matches body «at» («at» + bytes.length) = true ↔ bytes = quoted m.sentinel := by
  rw [ModelSplice.matches, Nat.add_sub_cancel_left]
  constructor
  · intro all
    simp only [Bool.and_eq_true, beq_iff_eq, decide_eq_true_eq] at all
    obtain ⟨⟨⟨⟨⟨-, size⟩, -⟩, first⟩, contents⟩, last⟩ := all
    obtain ⟨rest, shape⟩ := located
    cases bytes with
    | nil => simp at size
    | cons c more =>
        rw [List.length_cons] at size
        have opening : c = 0x22 := by
          rw [← List.head?_drop, shape] at first
          simpa using first
        have place : body[«at» + (c :: more).length - 1]? = more[m.sentinel.length]? := by
          have final : «at» + (more.length + 1) - 1 = «at» + (m.sentinel.length + 1) := by
            omega
          rw [List.length_cons, final, ← List.getElem?_drop, shape, List.cons_append,
            List.getElem?_cons_succ, List.getElem?_append_left (by omega)]
        rw [place] at last
        have front : more.take m.sentinel.length = m.sentinel := by
          rw [← contents, substr, ← List.drop_drop, shape, List.cons_append,
            List.drop_succ_cons, List.drop_zero, List.take_append_of_le_length (by omega),
            List.length_take, Nat.min_eq_left (by omega)]
        have back : more.drop m.sentinel.length = [0x22] := by
          obtain ⟨bound, here⟩ := List.getElem?_eq_some_iff.mp last
          rw [List.drop_eq_getElem_cons bound, here, List.drop_of_length_le (by omega)]
        have whole := List.take_append_drop m.sentinel.length more
        rw [front, back] at whole
        rw [quoted, opening, whole]
  · rintro rfl
    have size : (quoted m.sentinel).length = m.sentinel.length + 2 := by simp [quoted]
    have first : body[«at»]? = some 0x22 := located.head
    have contents : substr body («at» + 1) m.sentinel.length = m.sentinel :=
      located.tail.split.1.substr
    have last : body[«at» + 1 + m.sentinel.length]? = some 0x22 :=
      located.tail.split.2.head
    rw [size] at small inside ⊢
    rw [show «at» + (m.sentinel.length + 2) - 1 = «at» + 1 + m.sentinel.length by omega,
      first, contents, last]
    simp only [beq_self_eq_true, Bool.and_true, Bool.and_eq_true, decide_eq_true_eq, ne_eq]
    omega

namespace Splice

/-- Both the sentinel and its replacement go between quotes as they are, or there
is no substitution. -/
structure Plain (s : Splice) : Prop where
  both : s.model.sentinel = [] ∧ s.model.replacement = [] ∨
    s.model.sentinel ≠ [] ∧ s.model.replacement ≠ []
  sentinel : ∀ c ∈ s.model.sentinel, isPlain c = true
  replacement : ∀ c ∈ s.model.replacement, isPlain c = true
  members : s.members.plain = true

/-- The model of the body is the one to replace. -/
def hits (s : Splice) (body : Bytes) : Bool :=
  !s.model.sentinel.isEmpty && modelOf body == s.model.sentinel

section Done

variable {s : Splice} {body : Bytes} {cfg : Config} {text : Text} {last : BodyScan}

/-- The scan of an accepted body, with what it told. -/
structure Ended (s : Splice) (body : Bytes) (cfg : Config) (text : Text)
    (last : BodyScan) : Prop where
  small : body.length < sizeMax
  plain : s.Plain
  tracked : s.model.sentinel ≠ [] → cfg.trackModel = true
  mask : cfg.members = s.members.mask
  done : (BodyScan.outcome body cfg.start.toScan).1 = .done
  marks : last.marks = BodyScan.lastMarks body cfg
  scanned : Scanned body cfg text
  top : BodyScan.Top cfg (cfg.openAt text.pre.bytes.length) (rootMembers text) last.marks

theorem Ended.substitutes (ended : Ended s body cfg text last) :
    s.substitutes body last = s.hits body := by
  rw [Splice.substitutes, hits]
  cases none : s.model.sentinel.isEmpty with
  | true => rfl
  | false =>
      have some : s.model.sentinel ≠ [] := by simpa using none
      have span := modelSpan_tracked (rootMembers text) (ended.tracked some)
      have whole := ended.scanned.whole
      rw [Bool.not_false, Bool.true_and, Bool.true_and, ended.top.modelAt,
        ended.top.modelEnd, span, modelOf, whole, firstMember_render]
      refine Bool.eq_iff_iff.mpr ?_
      rw [beq_iff_eq, plainString_eq_iff some ended.plain.sentinel]
      cases found : (rootMembers text).find? fun p => p.name = ascii "model" with
      | none =>
          simp [ModelSplice.matches, quoted]
      | some p =>
          have member := List.mem_of_find?_eq_some found
          have stands := BodyScan.inside_stands
            (whole ▸ BodyScan.text_located text) p member
          have stop := ((rootMembers_ordered text).1 p member).stop
          rw [← whole]
          have small := ended.small
          have bound : p.valueAt + p.value.render.length ≤ body.length := by
            rw [whole]
            exact stop
          have hit := matches_located s.model stands.value (by omega) bound
          exact hit

/-- The members the splice cuts are those of its names. -/
theorem mem_set_iff (s : MemberSplice) (name : Bytes) :
    BodyScan.memberBit name &&& s.mask ≠ 0 ↔ name ∈ s.set.map Prod.fst := by
  have named : name ∈ s.set.map Prod.fst ↔
      name = ascii "service_tier" ∧ s.serviceTier.isEmpty = false ∨
        name = ascii "speed" ∧ s.speed.isEmpty = false ∨
        name = ascii "inference_geo" ∧ s.inferenceGeo.isEmpty = false := by
    simp only [MemberSplice.set, MemberSplice.values, List.mem_map, List.mem_filter,
      List.mem_cons, List.not_mem_nil, or_false, Bool.not_eq_true']
    constructor
    · rintro ⟨m, ⟨rfl | rfl | rfl, some⟩, rfl⟩
      · exact Or.inl ⟨rfl, some⟩
      · exact Or.inr (Or.inl ⟨rfl, some⟩)
      · exact Or.inr (Or.inr ⟨rfl, some⟩)
    · rintro (⟨rfl, some⟩ | ⟨rfl, some⟩ | ⟨rfl, some⟩)
      · exact ⟨_, ⟨Or.inl rfl, some⟩, rfl⟩
      · exact ⟨_, ⟨Or.inr (Or.inl rfl), some⟩, rfl⟩
      · exact ⟨_, ⟨Or.inr (Or.inr rfl), some⟩, rfl⟩
  have speedTier : ascii "speed" ≠ ascii "service_tier" := by decide
  have geoTier : ascii "inference_geo" ≠ ascii "service_tier" := by decide
  have geoSpeed : ascii "inference_geo" ≠ ascii "speed" := by decide
  rw [named, MemberSplice.mask, BodyScan.memberBit]
  by_cases tier : name = ascii "service_tier"
  · subst tier
    simp only [if_true, true_and, speedTier.symm, geoTier.symm, false_and, or_false]
    cases s.serviceTier.isEmpty <;> cases s.speed.isEmpty <;>
      cases s.inferenceGeo.isEmpty <;> decide
  by_cases speed : name = ascii "speed"
  · subst speed
    simp only [speedTier, if_false, if_true, true_and, geoSpeed.symm, false_and, or_false,
      false_or]
    cases s.serviceTier.isEmpty <;> cases s.speed.isEmpty <;>
      cases s.inferenceGeo.isEmpty <;> decide
  by_cases geo : name = ascii "inference_geo"
  · subst geo
    simp only [geoTier, geoSpeed, if_false, if_true, true_and, false_and, false_or]
    cases s.serviceTier.isEmpty <;> cases s.speed.isEmpty <;>
      cases s.inferenceGeo.isEmpty <;> decide
  · simp [tier, speed, geo]

/-- The splice of an accepted body, by its members. -/
theorem Ended.edits (ended : Ended s body cfg text last) :
    s.edits body last =
      (if s.members.mask = 0 then []
        else [⟨text.pre.bytes.length + 1, text.pre.bytes.length + 1, s.inserted last⟩]) ++
      editsOf (s.change (s.hits body)) (rootMembers text) := by
  obtain ⟨within, ordered⟩ := rootMembers_ordered text
  have cuts := cuts_eq body ended.mask ended.top ended.tracked ended.scanned.root.members.model
    within ordered
  rw [Splice.edits, cuts, ended.substitutes, List.map_flatMap, editsOf]
  congr 1
  · by_cases mask : s.members.mask = 0
    · rw [if_pos mask, if_pos mask]
    · have openAt := ended.top.openAt
      rw [Config.openAt, ended.mask, if_neg mask] at openAt
      rw [if_neg mask, if_neg mask, openAt]
  · exact List.flatMap_congr fun p _ => cutOf_edits ended.plain.replacement _ p

theorem set_eq_nil_iff (s : MemberSplice) : s.set = [] ↔ s.mask = 0 := by
  rw [MemberSplice.set, MemberSplice.values, MemberSplice.mask]
  cases tier : s.serviceTier.isEmpty <;> cases speed : s.speed.isEmpty <;>
    cases geo : s.inferenceGeo.isEmpty <;> simp [tier, speed, geo]

/-- The members of a splice go as they are. -/
theorem members_plain {s : MemberSplice} (plain : s.plain = true) :
    ∀ m ∈ s.set, PlainMember m := by
  simp only [MemberSplice.plain, List.all_cons, List.all_nil, Bool.and_true,
    Bool.and_eq_true] at plain
  obtain ⟨tier, speed, geo⟩ := plain
  have names : ∀ name ∈ [ascii "service_tier", ascii "speed", ascii "inference_geo"],
      ∀ c ∈ name, isPlain c = true := by
    simp only [← List.all_eq_true]
    decide
  intro m member
  have listed := List.mem_of_mem_filter member
  simp only [MemberSplice.values, List.mem_cons, List.not_mem_nil, or_false] at listed
  rcases listed with rfl | rfl | rfl
  · exact ⟨names _ (by simp), Translate.quotable_plain tier⟩
  · exact ⟨names _ (by simp), Translate.quotable_plain speed⟩
  · exact ⟨names _ (by simp), Translate.quotable_plain geo⟩

theorem appendSet_eq
    {ms : List (Bytes × Bytes)} (plain : ∀ m ∈ ms, PlainMember m) :
    MemberSplice.appendSet true ms = membersText (ms.map Entry.plain) ∧
      MemberSplice.appendSet false ms =
        (ms.map Entry.plain).flatMap fun f => 0x2c :: f.render := by
  induction ms with
  | nil => exact ⟨rfl, rfl⟩
  | cons m ms inductionHypothesis =>
      obtain ⟨-, behind⟩ := inductionHypothesis fun n member =>
        plain n (List.mem_cons_of_mem m member)
      have first : MemberSplice.member m = (Entry.plain m).render :=
        (Entry.plain_render (plain m List.mem_cons_self)).symm
      constructor
      · rw [MemberSplice.appendSet, behind, first]
        rfl
      · rw [MemberSplice.appendSet, behind, first]
        rfl

theorem rootMembers_sep
    {text : Text} {p : Placed} {ps : List Placed} (members : rootMembers text = p :: ps) :
    p.sep = text.pre.bytes.length + 1 := by
  obtain ⟨pre, value, post⟩ := text
  match value with
  | .full .object items =>
      obtain ⟨e, rest, rfl⟩ := exists_entries items
      have placed : rootMembers ⟨pre, .full .object (ofEntries e rest), post⟩ =
          Placed.of (pre.bytes.length + 1) (pre.bytes.length + 1) e.key e.pre e.value ::
            placedFrom (pre.bytes.length + 1 + e.render.length) rest :=
        placed_ofEntries ..
      rw [placed, List.cons.injEq] at members
      rw [← members.1]
      rfl
  | .lit _ | .number _ | .string _ | .empty .array _ | .empty .object _
  | .full .array _ => simp [rootMembers, Placed.inside] at members

/-- Whether a comma goes behind the inserted members. -/
theorem Ended.inserted
    (ended : Ended s body cfg text last) (mask : s.members.mask ≠ 0) :
    s.inserted last = membersText (s.members.set.map Entry.plain) ++
      (if firstStays (s.change (s.hits body)) (rootMembers text) then [0x2c]
        else [0x20]) := by
  obtain ⟨within, ordered⟩ := rootMembers_ordered text
  have openAt := ended.top.openAt
  have hasMember := ended.top.hasMember
  have cuts := memberCuts_eq ended.mask ended.top.found
  rw [Config.openAt, ended.mask, if_neg mask] at openAt
  rw [ended.mask, decide_eq_true mask, Bool.true_and] at hasMember
  rw [Splice.inserted, MemberSplice.appendMembers,
    (appendSet_eq (members_plain ended.plain.members)).1, hasMember, openAt, cuts]
  congr 1
  cases members : rootMembers text with
  | nil => rfl
  | cons p ps =>
      rw [members] at within ordered
      have first := rootMembers_sep members
      obtain ⟨behind, -⟩ := List.pairwise_cons.mp ordered
      have others : ((ps.flatMap fun p =>
          if BodyScan.memberBit p.name &&& s.members.mask ≠ 0 then
            [(⟨p.sep, p.stop, false⟩ : Cut)] else []).any fun c =>
              c.at = text.pre.bytes.length + 1) = false := by
        rw [List.any_eq_false]
        intro c member
        rw [List.mem_flatMap] at member
        obtain ⟨q, inside, cut⟩ := member
        have after := behind q inside
        obtain ⟨-, sep, value, -⟩ := within p List.mem_cons_self
        split at cut
        · rw [List.mem_singleton] at cut
          subst cut
          simp only [decide_eq_true_eq]
          omega
        · simp at cut
      rw [List.flatMap_cons, List.any_append, others, Bool.or_false, firstStays,
        Splice.change]
      by_cases masked : BodyScan.memberBit p.name &&& s.members.mask ≠ 0
      · simp [masked, first]
      · rw [if_neg masked, if_neg masked]
        by_cases model : s.hits body = true ∧ p.name = ascii "model"
        · rw [if_pos model]
          rfl
        · rw [if_neg model]
          rfl

/-- The edits that a splice makes of the members of a root. -/
def bodyEdits (s : Splice) (text : Text) (hit : Bool) : List (Edit Byte) :=
  (if s.members.set = [] then []
    else [⟨text.pre.bytes.length + 1, text.pre.bytes.length + 1,
      membersText (s.members.set.map Entry.plain) ++
        (if firstStays (s.change hit) (rootMembers text) then [0x2c] else [0x20])⟩]) ++
  editsOf (s.change hit) (rootMembers text)

theorem Ended.edits_eq (ended : Ended s body cfg text last) :
    s.edits body last = s.bodyEdits text (s.hits body) := by
  rw [ended.edits, bodyEdits]
  congr 1
  by_cases mask : s.members.mask = 0
  · rw [if_pos mask, if_pos ((set_eq_nil_iff _).mpr mask)]
  · rw [if_neg mask, if_neg (mt (set_eq_nil_iff _).mp mask), ended.inserted mask]

/-- The edit of a member that a splice makes. -/
theorem change_inside
    {hit : Bool} {p : Placed} {i j : Nat} (within : Within p i j) {e : Edit Byte}
    (member : e ∈ (s.change hit p).edits p) :
    p.sep ≤ e.at ∧ e.at < e.stop ∧ e.stop = p.stop := by
  obtain ⟨-, sep, value, -⟩ := within
  rw [change] at member
  repeat' split at member
  all_goals simp only [Change.edits, List.mem_singleton, List.not_mem_nil] at member
  all_goals subst member
  all_goals dsimp only
  all_goals omega

/-- The edits of a splice are in order, inside the body. -/
theorem bodyEdits_ordered
    (isObject : s.members.set ≠ [] → text.value.isObject = true) (hit : Bool) :
    Edit.Ordered (s.bodyEdits text hit) ∧
      ∀ e ∈ s.bodyEdits text hit,
        e.at < text.render.length ∧ e.stop ≤ text.render.length := by
  obtain ⟨within, ordered⟩ := rootMembers_ordered text
  have own := editsOf_ordered within ordered fun p _ => change_fits s hit p
  have inside : ∀ e ∈ editsOf (s.change hit) (rootMembers text),
      text.pre.bytes.length + 1 ≤ e.at ∧ e.at < text.render.length ∧
        e.stop ≤ text.render.length := by
    intro e member
    rw [editsOf, List.mem_flatMap] at member
    obtain ⟨p, there, edit⟩ := member
    obtain ⟨sep, spans, stop⟩ := change_inside (within p there) edit
    obtain ⟨start, -, -, ends⟩ := within p there
    omega
  rw [bodyEdits]
  by_cases none : s.members.set = []
  · rw [if_pos none, List.nil_append]
    exact ⟨own, fun e member => (inside e member).2⟩
  · rw [if_neg none]
    have brace : text.pre.bytes.length + 1 < text.render.length := by
      obtain ⟨pre, value, post⟩ := text
      obtain ⟨inside, rfl⟩ | ⟨e, rest, rfl⟩ := object_cases (isObject none)
      · simp only [Text.render, Json.render, List.length_append, List.length_cons]
        omega
      · rw [object_render, List.length_append, brace_length]
        simp only [List.length_append, List.length_cons]
        omega
    refine ⟨Edit.Ordered.append ⟨by simp, List.pairwise_singleton _ _⟩ own
      (text.pre.bytes.length + 1) (by simp) fun e member => (inside e member).1, ?_⟩
    intro e member
    rw [List.mem_append, List.mem_singleton] at member
    rcases member with rfl | member
    · exact ⟨brace, Nat.le_of_lt brace⟩
    · exact (inside e member).2

/-! ## Lengths -/

/-- What the edits of members add, from what each adds. -/
theorem editsOf_lengths
    (change : Placed → Change) (ps : List Placed) (grow : Placed → List Nat)
    (each : ∀ p ∈ ps, (((change p).edits p).map fun e => e.text.length).sum =
      (((change p).edits p).map fun e => e.stop - e.at).sum + (grow p).sum) :
    ((editsOf change ps).map fun e => e.text.length).sum =
      ((editsOf change ps).map fun e => e.stop - e.at).sum + (ps.flatMap grow).sum := by
  induction ps with
  | nil => rfl
  | cons p ps inductionHypothesis =>
      have first := each p List.mem_cons_self
      have rest := inductionHypothesis fun q member =>
        each q (List.mem_cons_of_mem p member)
      rw [editsOf] at rest ⊢
      simp only [List.flatMap_cons, List.map_append, List.sum_append]
      omega

theorem appendSet_length (ms : List (Bytes × Bytes)) :
    (MemberSplice.appendSet false ms).length =
      (ms.map fun m => m.1.length + m.2.length + 6).sum := by
  induction ms with
  | nil => rfl
  | cons m ms inductionHypothesis =>
      have colon : (ascii "\":\"").length = 3 := by decide
      simp only [MemberSplice.appendSet, MemberSplice.member, List.length_append,
        List.length_cons, List.length_nil, colon, inductionHypothesis, List.map_cons,
        List.sum_cons]
      simp only [Bool.false_eq_true, if_false, List.length_singleton]
      omega

/-- The inserted members with the byte behind them. -/
theorem inserted_length
    {s : MemberSplice} (plain : s.plain = true) (some : s.set ≠ []) :
    (membersText (s.set.map Entry.plain)).length + 1 = s.grow := by
  have written := appendSet_eq (members_plain plain)
  have length := appendSet_length s.set
  rw [written.2] at length
  rw [MemberSplice.grow, ← length]
  obtain ⟨m, ms, shape⟩ := List.exists_cons_of_ne_nil some
  rw [shape, List.map_cons, membersText, List.flatMap_cons]
  simp only [List.length_append, List.length_cons]
  omega

/-- The sentinel between quotes goes as the replacement between quotes. -/
theorem Ended.hit
    (ended : Ended s body cfg text last) (hit : s.hits body = true) :
    ∃ p, (rootMembers text).find? (fun p => p.name = ascii "model") = some p ∧
      p.value.render = quoted s.model.sentinel := by
  rw [hits, Bool.and_eq_true, beq_iff_eq, modelOf, ended.scanned.whole,
    firstMember_render] at hit
  obtain ⟨some, same⟩ := hit
  have some : s.model.sentinel ≠ [] := by simpa using some
  rw [plainString_eq_iff some ended.plain.sentinel] at same
  cases found : (rootMembers text).find? fun p => p.name = ascii "model" with
  | none => simp [found, quoted] at same
  | some p => exact ⟨p, rfl, by simpa [found] using same⟩

theorem Ended.isObject (ended : Ended s body cfg text last) :
    s.members.set ≠ [] → text.value.isObject = true := by
  intro some
  refine ended.scanned.root.isObject ?_
  rw [ended.mask]
  exact mt (set_eq_nil_iff _).mpr some

/-- What the edits of the members add: the model's replacement. -/
theorem Ended.editsOf_lengths (ended : Ended s body cfg text last) :
    ((editsOf (s.change (s.hits body)) (rootMembers text)).map fun e =>
        e.text.length).sum =
      ((editsOf (s.change (s.hits body)) (rootMembers text)).map fun e =>
        e.stop - e.at).sum + if s.hits body = true then s.model.grow else 0 := by
  cases hit : s.hits body with
  | false =>
      have same := Splice.editsOf_lengths (s.change false)
        (rootMembers text) (fun _ => []) ?_
      · rw [same, List.flatMap_eq_nil_iff.mpr fun _ _ => rfl]
        rfl
      · intro p _
        rw [change]
        repeat' split
        all_goals simp_all [Change.edits, Ws.spaces]
  | true =>
      obtain ⟨p, found, quotes⟩ := ended.hit hit
      have single := flatMap_once Placed.name (fun _ => s.model.grow)
        ended.scanned.root.members.model
      have same := Splice.editsOf_lengths (s.change true)
        (rootMembers text)
        (fun p => if p.name = ascii "model" then [s.model.grow] else []) ?_
      · rw [same]
        congr 1
        refine (congrArg List.sum single).trans ?_
        rw [show (Placed.inside text.pre.bytes.length text.value) = rootMembers text from rfl,
          found]
        simp
      · intro q member
        rw [change]
        by_cases isModel : q.name = ascii "model"
        · obtain rfl : q = p :=
            eq_of_once ended.scanned.root.members.model found member isModel
          have unmasked : ¬ (BodyScan.memberBit q.name &&& s.members.mask ≠ 0) := by
            rw [isModel, show BodyScan.memberBit (ascii "model") = 0 by rfl]
            simp
          have stop : q.stop - q.valueAt = s.model.sentinel.length + 2 := by
            rw [Placed.stop, quotes, quoted]
            simp
          rw [if_neg unmasked, if_pos ⟨rfl, isModel⟩, if_pos isModel]
          simp only [Change.edits, List.map_cons, List.map_nil, List.sum_cons, List.sum_nil,
            Json.render, quoted, plainChars_bytes ended.plain.replacement, Ws.spaces,
            List.length_append, List.length_cons, List.length_replicate, List.length_nil,
            stop, ModelSplice.grow, ModelSplice.shrink]
          split <;> split <;> omega
        · rw [if_neg isModel]
          repeat' split
          all_goals simp_all [Change.edits, Ws.spaces]

/-- What goes behind the edited body. -/
theorem Ended.padding (ended : Ended s body cfg text last) :
    s.padding body last =
      spaces (if s.hits body = true then 0 else s.model.grow) := by
  rw [Splice.padding, ended.substitutes]
  cases hit : s.hits body with
  | true => simp [spaces]
  | false =>
      by_cases none : s.model.sentinel = []
      · rcases ended.plain.both with ⟨-, without⟩ | ⟨some, -⟩
        · simp [none, without, ModelSplice.grow, spaces]
        · exact absurd none some
      · simp [none]

theorem Ended.length (ended : Ended s body cfg text last) :
    (Edit.rewrite body (s.bodyEdits text (s.hits body)) 0 body.length ++
      spaces (if s.hits body = true then 0 else s.model.grow)).length =
        body.length + s.grow := by
  obtain ⟨ordered, inside⟩ := bodyEdits_ordered ended.isObject (s.hits body)
  rw [← ended.scanned.whole] at inside
  have lengths := Edit.rewrite_length ordered (fun e _ => Nat.zero_le e.at)
    (fun e member => inside e member) (Nat.zero_le body.length) (Nat.le_refl _)
  have members := ended.editsOf_lengths
  have ins : (if s.members.set = [] then 0 else
      (membersText (s.members.set.map Entry.plain)).length + 1) = s.members.grow := by
    by_cases none : s.members.set = []
    · rw [if_pos none, MemberSplice.grow, none]
      rfl
    · rw [if_neg none, inserted_length ended.plain.members none]
  have glue : ∀ first : Bool, (if first = true then [0x2c] else [0x20] : Bytes).length = 1 := by
    decide
  rw [List.length_append, spaces, List.length_replicate, grow]
  generalize Edit.rewrite body (s.bodyEdits text (s.hits body)) 0 body.length = out
    at lengths ⊢
  rw [bodyEdits, List.map_append, List.map_append, List.sum_append, List.sum_append]
    at lengths
  by_cases none : s.members.set = []
  · rw [if_pos none] at ins
    simp only [none, if_true, List.map_nil, List.sum_nil] at lengths
    cases hit : s.hits body <;> simp only [hit] at lengths members ⊢ <;> simp at members ⊢ <;>
      omega
  · rw [if_neg none] at ins
    simp only [none, if_false, List.map_cons, List.map_nil, List.sum_cons, List.sum_nil,
      List.length_append, glue] at lengths
    cases hit : s.hits body <;> simp only [hit] at lengths members ⊢ <;> simp at members ⊢ <;>
      omega

/-! ## The members -/

/-- The root's members, key and raw value, that a splice makes of these. -/
def splicedMembers (s : Splice) (hit : Bool) (members : List (Bytes × Bytes)) :
    List (Bytes × Bytes) :=
  (s.members.set.map fun m => (m.1, quoted m.2)) ++
    (members.filter fun m => !(s.members.set.map Prod.fst).contains m.1).map fun m =>
      if hit ∧ m.1 = ascii "model" then (m.1, quoted s.model.replacement) else m

theorem rawsOf_change
    (plain : ∀ c ∈ s.model.replacement, isPlain c = true) (hit : Bool)
    (ps : List Placed) :
    rawsOf (s.change hit) ps =
      ((ps.map fun p => (p.name, p.value.render)).filter fun m =>
        !(s.members.set.map Prod.fst).contains m.1).map fun m =>
          if hit ∧ m.1 = ascii "model" then (m.1, quoted s.model.replacement) else m := by
  induction ps with
  | nil => rfl
  | cons p ps inductionHypothesis =>
      rw [rawsOf, List.filterMap_cons, List.map_cons, change]
      rw [rawsOf] at inductionHypothesis
      by_cases masked : BodyScan.memberBit p.name &&& s.members.mask ≠ 0
      · have named := (mem_set_iff s.members p.name).mp masked
        rw [if_pos masked, List.filter_cons_of_neg (by simpa using named)]
        exact inductionHypothesis
      · have unnamed := mt (mem_set_iff s.members p.name).mpr masked
        rw [if_neg masked, List.filter_cons_of_pos (by simpa using unnamed), List.map_cons,
          ← inductionHypothesis]
        by_cases model : hit ∧ p.name = ascii "model"
        · rw [if_pos model, if_pos model]
          simp only [Change.raw, Json.render, plainChars_bytes plain]
        · rw [if_neg model, if_neg model]
          rfl

theorem rawMembers_placed (text : Text) :
    rawMembers text.value =
      (rootMembers text).map fun p => (p.name, p.value.render) := by
  rw [← Translate.rawsOf_keep]
  exact List.filterMap_eq_map (f := fun p : Placed => (p.name, p.value.render)) ▸ rfl

/-- What a splice writes is a text with the spliced members. -/
theorem Ended.written (ended : Ended s body cfg text last) :
    ∃ text' : Text,
      Edit.rewrite body (s.bodyEdits text (s.hits body)) 0 body.length ++
          spaces (if s.hits body = true then 0 else s.model.grow) = text'.render ∧
        rawMembers text'.value =
          s.splicedMembers (s.hits body) (rawMembers text.value) := by
  have fits : ∀ p ∈ rootMembers text, (s.change (s.hits body) p).Fits p :=
    fun p _ => change_fits s _ p
  have whole := ended.scanned.whole
  rw [splicedMembers, rawMembers_placed text,
    ← rawsOf_change ended.plain.replacement (s.hits body), bodyEdits]
  by_cases none : s.members.set = []
  · have stays : ∀ p ∈ rootMembers text, s.change (s.hits body) p ≠ .blank := by
      intro p _
      rw [change, (set_eq_nil_iff _).mp none, if_neg (by simp)]
      split <;> simp
    obtain ⟨text', written, members⟩ := edit_root fits stays
      (Ws.spaces (if s.hits body = true then 0 else s.model.grow))
    refine ⟨text', ?_, ?_⟩
    · rw [if_pos none, List.nil_append, ← written, whole]
      rfl
    · rw [members, none]
      rfl
  · obtain ⟨m, ms, shape⟩ := List.exists_cons_of_ne_nil none
    obtain ⟨glue, comma⟩ : ∃ glue : Bytes, glue =
        if firstStays (s.change (s.hits body)) (rootMembers text) then [0x2c] else [0x20] :=
      ⟨_, rfl⟩
    have glued : if firstStays (s.change (s.hits body)) (rootMembers text) then
        glue = [0x2c] else ∀ c ∈ glue, isWs c = true := by
      rw [comma]
      cases firstStays (s.change (s.hits body)) (rootMembers text) <;> simp [isWs]
    obtain ⟨text', written, members⟩ := insert_root (ended.isObject none) fits
      (Entry.plain m) (ms.map Entry.plain) glued
      (Ws.spaces (if s.hits body = true then 0 else s.model.grow))
    refine ⟨text', ?_, ?_⟩
    · rw [if_neg none, ← comma, ← written, shape, whole]
      rfl
    · rw [members, ← List.map_cons, ← shape, List.map_map]
      congr 1
      exact List.map_congr_left fun n member =>
        Entry.plain_raw (members_plain ended.plain.members n member)

/-! ## The held rewrite -/

/-- The overrides of the held rewrite that says the same. -/
def overrides (s : Splice) (hit : Bool) : Overrides where
  model := if hit then s.model.replacement else []
  serviceTier := s.members.serviceTier
  speed := s.members.speed
  inferenceGeo := s.members.inferenceGeo

theorem overrides_set
    {hit : Bool} (some : hit = true → s.model.replacement ≠ []) :
    (s.overrides hit).set =
      (if hit then [(ascii "model", s.model.replacement)] else []) ++ s.members.set := by
  rw [Overrides.set_eq]
  congr 1
  cases hit with
  | true => simp [overrides, some rfl]
  | false => simp [overrides]

/-- The members of a splice have no model. -/
theorem model_not_mem (s : MemberSplice) : ascii "model" ∉ s.set.map Prod.fst := by
  rw [← mem_set_iff, show BodyScan.memberBit (ascii "model") = 0 by rfl]
  simp

theorem set_once (s : MemberSplice) (key : Bytes) :
    s.set.Pairwise fun a b => b.1 = key → a.1 ≠ key := by
  have names : (s.values.map Prod.fst).Nodup := by
    change [ascii "service_tier", ascii "speed", ascii "inference_geo"].Nodup
    decide
  have nodup : (s.set.map Prod.fst).Nodup :=
    names.sublist (List.filter_sublist.map Prod.fst)
  refine (List.pairwise_map.mp nodup).imp ?_
  intro a b differs second first
  exact differs (first.trans second.symm)

/-- A member as the held rewrite writes it, from what the splice does with it. -/
theorem change_raw
    {hit : Bool} (plain : s.Plain) (some : hit = true → s.model.replacement ≠ [])
    (p : Placed) :
    (((s.overrides hit).change p).raw p).toList =
      (s.members.set.flatMap fun m =>
        if m.1 = p.name then [(m.1, quoted m.2)] else []) ++
      ((s.change hit p).raw p).toList := by
  rw [flatMap_once Prod.fst _ (set_once s.members p.name), Overrides.change,
    overrides_set some, List.find?_append, change]
  by_cases masked : BodyScan.memberBit p.name &&& s.members.mask ≠ 0
  · have named := (mem_set_iff s.members p.name).mp masked
    have notModel : p.name ≠ ascii "model" := by
      intro isModel
      rw [isModel] at named
      exact model_not_mem s.members named
    have front : (if hit then [(ascii "model", s.model.replacement)] else []).find?
        (fun m => m.1 = p.name) = none := by
      cases hit <;> simp [notModel.symm]
    rw [if_pos masked, front, Option.none_or]
    cases found : s.members.set.find? fun m => m.1 = p.name with
    | none =>
        obtain ⟨m, member, same⟩ := List.mem_map.mp named
        exact absurd (by simpa using same) (List.find?_eq_none.mp found m member)
    | some m =>
        have member := List.mem_of_find?_eq_some found
        have same : m.1 = p.name := by simpa using List.find?_some found
        simp [Change.raw, plainChars_bytes (members_plain plain.members m member).2, same]
  · have unnamed := mt (mem_set_iff s.members p.name).mpr masked
    have none : s.members.set.find? (fun m => m.1 = p.name) = Option.none := by
      rw [List.find?_eq_none]
      intro m member same
      exact unnamed (List.mem_map.mpr ⟨m, member, by simpa using same⟩)
    rw [none, Option.or_none, if_neg masked]
    cases hit with
    | false => simp
    | true =>
        by_cases isModel : p.name = ascii "model"
        · simp [isModel, Change.raw, Json.render, plainChars_bytes plain.replacement]
        · simp [isModel, Ne.symm isModel]

/-- The held rewrite has the members of the splice. -/
theorem Ended.perm (ended : Ended s body cfg text last) :
    ((((s.overrides (s.hits body)).absent (rootMembers text)).map fun m =>
        (m.1, quoted m.2)) ++
      rawsOf (s.overrides (s.hits body)).change (rootMembers text)).Perm
      (s.splicedMembers (s.hits body) (rawMembers text.value)) := by
  have some : s.hits body = true → s.model.replacement ≠ [] := by
    intro hit
    rw [hits, Bool.and_eq_true] at hit
    rcases ended.plain.both with ⟨none, -⟩ | ⟨-, some⟩
    · simp [none] at hit
    · exact some
  have absent : (s.overrides (s.hits body)).absent (rootMembers text) =
      s.members.set.filter fun m => !(rootMembers text).any fun p => p.name = m.1 := by
    rw [Overrides.absent, overrides_set some, List.filter_append]
    cases hit : s.hits body with
    | false => rfl
    | true =>
        obtain ⟨p, found, -⟩ := ended.hit hit
        have there : ((rootMembers text).any fun p => p.name = ascii "model") = true := by
          rw [List.any_eq_true]
          refine ⟨p, List.mem_of_find?_eq_some found, ?_⟩
          exact List.find?_some (p := fun p : Placed => decide (p.name = ascii "model")) found
        rw [if_pos rfl, List.filter_cons_of_neg (by simp [there])]
        rfl
  have once : ∀ m ∈ s.members.set, (rootMembers text).Pairwise fun a b =>
      b.name = m.1 → a.name ≠ m.1 := by
    intro m member
    refine ended.scanned.root.members.once.imp ?_
    rintro a b differs same
    rw [← same]
    refine differs ?_
    rw [Config.bit, ended.mask, mem_set_iff, same]
    exact List.mem_map_of_mem member
  have present := map_filter_named Placed.name Prod.fst
    (fun m : Bytes × Bytes => (m.1, quoted m.2)) once
  have nested := perm_flatMap_comm s.members.set (rootMembers text) fun m p =>
    if p.name = m.1 then [(m.1, quoted m.2)] else []
  rw [splicedMembers, rawMembers_placed text,
    ← rawsOf_change ended.plain.replacement (s.hits body), absent, rawsOf, rawsOf,
    List.filterMap_eq_flatMap_toList, List.filterMap_eq_flatMap_toList,
    List.flatMap_congr fun p _ => change_raw ended.plain some p]
  refine ((List.flatMap_append_perm _ _ _).symm.append_left _).trans ?_
  rw [← List.append_assoc]
  refine List.Perm.append_right _ ?_
  have split := (List.filter_append_perm
    (fun m : Bytes × Bytes => (rootMembers text).any fun p => p.name = m.1)
    s.members.set).map fun m : Bytes × Bytes => (m.1, quoted m.2)
  rw [List.map_append, present] at split
  refine (List.perm_append_comm.trans (List.Perm.append_right _ ?_)).trans split
  simpa only [eq_comm] using nested.symm

end Done

/-! ## What a splice says -/

/-- What is written for a body and its text: the spans that go replaced and what
goes for them, the members of the text written, and the held rewrite that says
the same. -/
structure Says (s : Splice) (body : Bytes) (text text' : Text) : Prop where
  whole : body = text.render
  length : text'.render.length = body.length + s.grow
  bytes : ∃ n, text'.render =
    Edit.rewrite body (s.bodyEdits text (s.hits body)) 0 body.length ++ spaces n
  members : rawMembers text'.value =
    s.splicedMembers (s.hits body) (rawMembers text.value)
  overridden : ∀ m ∈ s.members.set,
    (rawMembers text'.value).filter (fun r => r.1 = m.1) = [(m.1, quoted m.2)]
  model : (rawMembers text'.value).filter (fun r => r.1 = ascii "model") =
    ((rawMembers text.value).filter fun r => r.1 = ascii "model").map fun r =>
      if s.hits body then (r.1, quoted s.model.replacement) else r
  held : (applyOverrides body (s.overrides (s.hits body))).1 = true →
    ∃ held : Text,
      (applyOverrides body (s.overrides (s.hits body))).2.2 = held.render ∧
        (rawMembers held.value).Perm (rawMembers text'.value)

/-- Each member of a splice goes once. -/
theorem splicedMembers_once
    (s : Splice) (hit : Bool) (members : List (Bytes × Bytes)) {m : Bytes × Bytes}
    (member : m ∈ s.members.set) :
    (s.splicedMembers hit members).filter (fun r => r.1 = m.1) = [(m.1, quoted m.2)] := by
  have named : m.1 ∈ s.members.set.map Prod.fst := List.mem_map_of_mem member
  rw [splicedMembers, List.filter_append, List.filter_map, List.filter_map]
  have dropped : (members.filter fun m =>
      !(s.members.set.map Prod.fst).contains m.1).filter
        ((fun r => decide (r.1 = m.1)) ∘ fun m =>
          if hit ∧ m.1 = ascii "model" then (m.1, quoted s.model.replacement) else m) =
      [] := by
    rw [List.filter_eq_nil_iff]
    intro r inside
    have unnamed := (List.mem_filter.mp inside).2
    intro same
    have same : r.1 = m.1 := by
      rw [Function.comp_apply, decide_eq_true_eq] at same
      split at same <;> exact same
    rw [same] at unnamed
    simp [named] at unnamed
  rw [dropped, List.map_nil, List.append_nil]
  have once := flatMap_once Prod.fst (fun m : Bytes × Bytes => (m.1, quoted m.2))
    (set_once s.members m.1)
  have single : s.members.set.find? (fun n => n.1 = m.1) = some m := by
    cases found : s.members.set.find? fun n => n.1 = m.1 with
    | none => exact absurd (by simp) (List.find?_eq_none.mp found m member)
    | some n => rw [eq_of_once (set_once s.members m.1) found member rfl]
  rw [single, ← map_filter_eq_flatMap] at once
  exact once

/-- The model goes replaced, or as it was. -/
theorem splicedMembers_model
    (s : Splice) (hit : Bool) (members : List (Bytes × Bytes)) :
    (s.splicedMembers hit members).filter (fun r => r.1 = ascii "model") =
      (members.filter fun r => r.1 = ascii "model").map fun r =>
        if hit then (r.1, quoted s.model.replacement) else r := by
  have front : (s.members.set.map fun m => (m.1, quoted m.2)).filter
      (fun r => r.1 = ascii "model") = [] := by
    rw [List.filter_eq_nil_iff]
    intro r member isModel
    obtain ⟨m, inside, rfl⟩ := List.mem_map.mp member
    have named : m.1 = ascii "model" := by simpa using isModel
    exact model_not_mem s.members (named ▸ List.mem_map_of_mem inside)
  rw [splicedMembers, List.filter_append, front, List.nil_append, List.filter_map,
    List.filter_filter]
  have same : ∀ r : Bytes × Bytes, (((fun r => decide (r.1 = ascii "model")) ∘ fun m =>
      if hit ∧ m.1 = ascii "model" then (m.1, quoted s.model.replacement) else m) r &&
        !(s.members.set.map Prod.fst).contains r.1) = decide (r.1 = ascii "model") := by
    intro r
    by_cases isModel : r.1 = ascii "model"
    · have unnamed := model_not_mem s.members
      rw [← isModel] at unnamed
      cases hit <;> simp_all
    · simp [isModel]
  rw [List.filter_congr fun r _ => same r]
  refine List.map_congr_left fun r member => ?_
  have isModel : r.1 = ascii "model" := by simpa using (List.mem_filter.mp member).2
  simp [isModel]

/-- What the pass over an accepted body writes. -/
theorem Ended.meets
    {s : Splice} {body : Bytes} {cfg : Config} {text : Text} {last : BodyScan}
    (ended : Ended s body cfg text last) :
    ∃ text', Says s body text text' ∧
      Edit.rewrite body (s.edits body last) 0 body.length ++ s.padding body last =
        text'.render := by
  have length := ended.length
  obtain ⟨text', written, members⟩ := ended.written
  rw [written] at length
  rw [ended.edits_eq, ended.padding]
  refine ⟨text', ⟨ended.scanned.whole, length, ⟨_, written.symm⟩, members, ?_, ?_, ?_⟩,
    written⟩
  · intro m member
    rw [members]
    exact splicedMembers_once s _ _ member
  · rw [members]
    exact splicedMembers_model s _ _
  · intro accepted
    obtain ⟨held, same, heldMembers⟩ :=
      Translate.applyOverrides_accepted ended.scanned.whole accepted
    refine ⟨held, same, ?_⟩
    rw [members, heldMembers]
    exact ended.perm

/-- The cuts of a body into prefixes before the whole of it. -/
def Cuts (body : Bytes) (cuts : List Nat) : Prop :=
  cuts.Pairwise (· ≤ ·) ∧ ∀ k ∈ cuts, k < body.length

/-- A body spliced as it streams says what the held rewrite says, and the same for
every way to cut it. -/
theorem stream_correct
    {s : Splice} {body : Bytes} {cfg : Config} (plain : s.Plain)
    (tracked : s.model.sentinel ≠ [] → cfg.trackModel = true)
    (mask : cfg.members = s.members.mask) (small : body.length < sizeMax)
    {cuts : List Nat} (proper : Cuts body cuts)
    (done : (BodyScan.feedCuts cfg.start body cuts).verdict = .done) :
    ∃ text text' : Text, Says s body text text' ∧
      s.stream body cfg.start 0 cuts = text'.render ∧
      ∀ others, Cuts body others →
        s.stream body cfg.start 0 others = s.stream body cfg.start 0 cuts := by
  obtain ⟨verdict, scan⟩ := BodyScan.feedCuts_eq_outcome body cfg.allKeys cfg.trackModel
    cfg.members cuts
  obtain ⟨-, text, scanned, top⟩ | ⟨refused, -⟩ := BodyScan.feedCuts_scanned cfg body cuts
  swap
  · rw [refused] at done
    exact BodyScan.Verdict.noConfusion done
  have ended : Ended s body cfg text (BodyScan.feedCuts cfg.start body cuts) :=
    ⟨small, plain, tracked, mask, verdict.symm.trans done,
      congrArg BodyScan.Scan.marks scan, scanned, top⟩
  obtain ⟨text', meets, written⟩ := ended.meets
  obtain ⟨ordered, -⟩ := bodyEdits_ordered ended.isObject (s.hits body)
  obtain ⟨within, apart⟩ := rootMembers_ordered text
  obtain ⟨ascending, spans⟩ := cutOf_ascending (s := s) (s.hits body) within apart
  have cuts_eq := cuts_eq body ended.mask ended.top ended.tracked
    ended.scanned.root.members.model within apart
  rw [ended.substitutes] at cuts_eq
  have streams : ∀ others, Cuts body others →
      s.stream body cfg.start 0 others = text'.render := by
    intro others proper
    have whole := stream_eq (s := s) ended.done small ended.marks
      (ended.edits_eq ▸ ordered) (cuts_eq ▸ ascending) (cuts_eq ▸ spans) others
      (BodyScan.At.start body cfg)
      (List.pairwise_cons.mpr ⟨fun k _ => Nat.zero_le k, proper.1⟩) proper.2
    have none : cfg.start.marks.safe 0 = 0 := Nat.min_zero _
    rw [none] at whole
    rw [← written, ← whole]
  exact ⟨text, text', meets, streams cuts proper, fun others other =>
    (streams others other).trans (streams cuts proper).symm⟩

/-- A sentinel and a member of the client's replaced, the body cut inside a key. -/
theorem stream_correct_speed :
    let s : Splice := ⟨⟨ascii "auto", ascii "o3"⟩, { speed := ascii "fast" }⟩
    let body := ascii "\x7b\"speed\":\"slow\",\"model\":\"auto\"\x7d"
    ∃ text' : Text, s.stream body (Config.start ⟨true, true, 2⟩) 0 [5, 20] = text'.render ∧
      (rawMembers text'.value).filter (fun r => r.1 = ascii "speed") =
        [(ascii "speed", quoted (ascii "fast"))] := by
  intro s body
  have size : body.length = 31 := rfl
  have small : body.length < sizeMax := by
    rw [size, sizeMax]
    decide
  have plain : s.Plain :=
    ⟨Or.inr ⟨by decide, by decide⟩, List.all_eq_true.mp (by decide),
      List.all_eq_true.mp (by decide), by decide⟩
  have cuts : Cuts body [5, 20] := ⟨by decide, by decide⟩
  have mask : (⟨true, true, 2⟩ : Config).members = s.members.mask := by
    decide
  have done :
      (BodyScan.feedCuts (Config.start ⟨true, true, 2⟩) body [5, 20]).verdict = .done := by
    decide +kernel
  obtain ⟨text, text', meets, written, -⟩ :=
    @stream_correct s body ⟨true, true, 2⟩ plain (fun _ => rfl) mask small [5, 20] cuts done
  exact ⟨text', written, meets.overridden (ascii "speed", ascii "fast") (by decide)⟩

end Splice

end Gateway
end Llmbridge
