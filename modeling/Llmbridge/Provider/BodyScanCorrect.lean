import Llmbridge.Provider.BodyScanMembers

/-!
# The scan is a recogniser, whatever the cuts

The root of a body, its members with their places in the body, and the
documents the scan accepts under each configuration.  The last section puts the
cuts, the grammar and the members together.
-/

namespace Llmbridge
namespace BodyScan

open Rfc8259

/-! ## Places in the body -/

/-- A member stands where it is placed: its key between quotes, its value behind
it. -/
structure Placed.Stands (body : Bytes) (p : Placed) : Prop where
  name : Located body p.nameAt (p.name ++ [0x22])
  value : Located body p.valueAt p.value.render

theorem Placed.of_stands
    {body : Bytes} {«at» : Nat} {key : Key} {pre : Ws} {value : Json} {more : Bytes}
    (located : Located body «at»
      (key.render ++ (pre.bytes ++ (value.render ++ more)))) (sep : Nat) :
    (Placed.of sep «at» key pre value).Stands body ∧
      Located body (Placed.of sep «at» key pre value).stop more := by
  obtain ⟨keyed, rest⟩ := located.split
  obtain ⟨valued, more⟩ := rest.split.2.split
  refine ⟨⟨?_, valued⟩, more⟩
  rw [Key.render] at keyed
  have named := (keyed.split.2.split).1
  rw [quoted] at named
  exact named.tail

theorem placed_stands
    {body : Bytes} :
    ∀ (items : Items .object) (sep «at» : Nat), Located body «at» items.render →
      ∀ p ∈ placed sep «at» items, p.Stands body
  | .last key pre value post, sep, «at», located, p, member => by
      rw [Items.render] at located
      rw [placed, List.mem_singleton] at member
      rw [member]
      exact (Placed.of_stands located sep).1
  | .cons key pre value post rest, sep, «at», located, p, member => by
      rw [Items.render] at located
      rw [placed, List.mem_cons] at member
      obtain ⟨stands, more⟩ := Placed.of_stands located sep
      rcases member with rfl | member
      · exact stands
      · exact placed_stands rest _ _ more.split.2.tail p member

theorem inside_stands
    {body : Bytes} {«at» : Nat} {value : Json} (located : Located body «at» value.render) :
    ∀ p ∈ Placed.inside «at» value, p.Stands body := by
  match value with
  | .full .object items =>
      rw [Json.render] at located
      exact placed_stands items _ _ located.tail.split.1
  | .full .array _ | .empty _ _ | .lit _ | .number _ | .string _ =>
      simp [Placed.inside]

theorem named_of_stands
    {body : Bytes} {ps : List Placed} (stands : ∀ p ∈ ps, p.Stands body) :
    Named body ps :=
  fun p member => (stands p member).name.split.1.substr

theorem optionKeys_stands
    {body : Bytes} {p : Placed} (stands : p.Stands body) :
    ∀ q ∈ p.optionKeys, q.Stands body := by
  rw [Placed.optionKeys]
  split
  · exact inside_stands stands.value
  · simp

/-! ## The root -/

section Root

variable {body : Bytes} {cfg : Config} {openAt : Nat} {ps : List Placed} {m : Marks}

theorem Top.of_still {m' : Marks} (state : Top cfg openAt ps m) (still : Still m m') :
    Top cfg openAt ps m' := by
  obtain ⟨_, _, rfl⟩ := still
  exact ⟨⟨state.calm.model, state.calm.member, state.calm.options⟩,
    state.modelOpen, state.memberOpen, state.level, state.allKeys, state.trackModel,
    state.members, state.openAt, state.top, state.options, state.modelSeen,
    state.modelAt, state.modelEnd, state.seen, state.hasMember, state.found⟩

/-- A value that is no member of the root ends. -/
theorem Top.finish (state : Top cfg openAt ps m) (depth stop : Nat) :
    Top cfg openAt ps (m.valueDone depth stop) := by
  have same : m.valueDone depth stop = m ∨
      m.valueDone depth stop = { m with hold := sizeMax } := by
    simp only [Marks.valueDone, state.modelOpen, state.memberOpen,
      Bool.false_eq_true, false_and, if_false]
    split
    · exact Or.inr rfl
    · exact Or.inl rfl
  rcases same with same | same <;> rw [same]
  · exact state
  · exact ⟨⟨state.calm.model, state.calm.member, state.calm.options⟩,
      state.modelOpen, state.memberOpen, state.level, state.allKeys, state.trackModel,
      state.members, state.openAt, state.top, state.options, state.modelSeen,
      state.modelAt, state.modelEnd, state.seen, state.hasMember, state.found⟩

theorem Top.close (state : Top cfg openAt ps m) (depth stop : Nat) :
    showClose (observe body) depth stop m = some (m.valueDone depth stop) := by
  simp [showClose, observe, Marks.closed, state.level]

variable (body) in
/-- The elements of a root array. -/
theorem showItems_array :
    ∀ (items : Items .array) («at» : Nat) {m : Marks}, Top cfg openAt ps m →
      ∃ m', showItems (observe body) 1 «at» items m = some m' ∧ Top cfg openAt ps m'
  | .last head pre value _, «at», m, state => by
      obtain ⟨m', still, shown⟩ := showBody_member body state.calm state.level
        («at» + head.render.length + pre.bytes.length) value
      refine ⟨_, ?_, (state.of_still still).finish 1
        («at» + head.render.length + pre.bytes.length + value.render.length)⟩
      rw [showItems, showHead, Option.bind_some,
        start_of_calm state.calm (Or.inl (by decide)), Option.bind_some, shown]
  | .cons head pre value post rest, «at», m, state => by
      obtain ⟨m', still, shown⟩ := showBody_member body state.calm state.level
        («at» + head.render.length + pre.bytes.length) value
      have state' := (state.of_still still).finish 1
        («at» + head.render.length + pre.bytes.length + value.render.length)
      obtain ⟨m'', restShown, state''⟩ := showItems_array rest
        («at» + head.render.length + pre.bytes.length + value.render.length +
          post.bytes.length + 1) state'
      refine ⟨m'', ?_, state''⟩
      rw [showItems, showHead, Option.bind_some,
        start_of_calm state.calm (Or.inl (by decide)), Option.bind_some, shown,
        Option.bind_some, showComma, Option.bind_some, restShown]

end Root

/-- Where the mask's members may go in: the byte after the root's brace. -/
def Config.openAt (cfg : Config) («at» : Nat) : Nat :=
  if cfg.members = 0 then sizeMax else «at» + 1

/-- The state at the start. -/
theorem Config.start_top (cfg : Config) : Top cfg sizeMax [] cfg.start.marks :=
  ⟨⟨rfl, rfl, rfl⟩, rfl, rfl, rfl, rfl, rfl, rfl, rfl, by simp [start, reset],
    by simp [start, reset], rfl, rfl, rfl, rfl, by simp [start, reset], rfl⟩

/-- The state behind the brace of a root object. -/
theorem start_object (body : Bytes) (cfg : Config) («at» : Nat) :
    ∃ m, observe body (.start 0 «at» 0x7b) cfg.start.marks = some m ∧
      Top cfg (cfg.openAt «at») [] m ∧ (cfg.members ≠ 0 → m.hold = «at» + 1) := by
  by_cases mask : cfg.members = 0
  · refine ⟨cfg.start.marks, start_of_calm ⟨rfl, rfl, rfl⟩ (Or.inr mask) .., ?_,
      fun not => absurd mask not⟩
    rw [Config.openAt, if_pos mask]
    exact cfg.start_top
  · refine ⟨{ cfg.start.marks with openAt := «at» + 1, hold := «at» + 1 }, ?_, ?_,
      fun _ => rfl⟩
    · simp [observe, Marks.valueStart, Marks.opened, Config.start, reset, mask]
    · obtain start := cfg.start_top
      rw [Config.openAt, if_neg mask]
      exact ⟨⟨rfl, rfl, rfl⟩, rfl, rfl, rfl, rfl, rfl, rfl, rfl, start.top,
        start.options, rfl, rfl, rfl, rfl, start.hasMember, rfl⟩

/-- The root that the scan admits: with a mask an object, and its members
admitted. -/
structure RootAdmitted (body : Bytes) (cfg : Config) («at» : Nat) (value : Json) :
    Prop where
  isObject : cfg.members ≠ 0 → value.isObject = true
  members : Admits body cfg (Placed.inside «at» value)

/-- A root object is shown. -/
theorem showValue_object
    {body : Bytes} (cfg : Config) {«at» : Nat} {value : Json}
    (located : Located body «at» value.render) (isObject : value.isObject = true) :
    (¬ RootAdmitted body cfg «at» value →
      showValue (observe body) 0 «at» value cfg.start.marks = none) ∧
    (RootAdmitted body cfg «at» value →
      ∃ m, showValue (observe body) 0 «at» value cfg.start.marks = some m ∧
        Top cfg (cfg.openAt «at») (Placed.inside «at» value) m) := by
  have stands := inside_stands located
  have first : value.firstByte = 0x7b := value.firstByte_eq_brace.mpr isObject
  obtain ⟨m, started, state, held⟩ := start_object body cfg «at»
  rw [showValue, first, started, Option.bind_some]
  obtain ⟨inside, rfl⟩ | ⟨items, rfl⟩ := Json.isObject_cases isObject
  · refine ⟨fun not => absurd ⟨fun _ => rfl, Admits.nil body cfg⟩ not, fun _ => ?_⟩
    exact ⟨_, by rw [showBody, state.close], state.finish ..⟩
  · obtain ⟨refuses, takes⟩ := showItems_top items («at» + 1) («at» + 1) state
      (Admits.nil body cfg) held (Nat.le_refl _) (named_of_stands stands)
      (fun p member => named_of_stands (optionKeys_stands (stands p member)))
    rw [List.nil_append] at refuses takes
    rw [showBody]
    refine ⟨fun not => ?_, fun yes => ?_⟩
    · rw [refuses fun admitted => not ⟨fun _ => rfl, admitted⟩, Option.bind_none]
    · obtain ⟨m', shown, state'⟩ := takes yes.members
      exact ⟨_, by rw [shown, Option.bind_some, state'.close], state'.finish ..⟩

/-- Another root without a mask is shown. -/
theorem showValue_unmasked
    {body : Bytes} (cfg : Config) («at» : Nat) {value : Json}
    (notObject : value.isObject = false) (mask : cfg.members = 0) :
    ∃ m, showValue (observe body) 0 «at» value cfg.start.marks = some m ∧
      Top cfg (cfg.openAt «at») (Placed.inside «at» value) m := by
  have state := cfg.start_top
  rw [showValue, start_of_calm state.calm (Or.inr mask), Option.bind_some,
    inside_of_not_object «at» notObject, Config.openAt, if_pos mask]
  cases value with
  | lit | number | string => exact ⟨_, rfl, state.finish ..⟩
  | empty kind ws => exact ⟨_, by rw [showBody, state.close], state.finish ..⟩
  | full kind items =>
      cases kind with
      | object => exact Bool.noConfusion notObject
      | array =>
          obtain ⟨m', shown, state'⟩ := showItems_array body items («at» + 1) state
          exact ⟨_, by rw [showBody, shown, Option.bind_some, state'.close],
            state'.finish ..⟩

/-- The root is shown, unless it is not admitted. -/
theorem showValue_root
    {body : Bytes} (cfg : Config) {«at» : Nat} {value : Json}
    (located : Located body «at» value.render) :
    (¬ RootAdmitted body cfg «at» value →
      showValue (observe body) 0 «at» value cfg.start.marks = none) ∧
    (RootAdmitted body cfg «at» value →
      ∃ m, showValue (observe body) 0 «at» value cfg.start.marks = some m ∧
        Top cfg (cfg.openAt «at») (Placed.inside «at» value) m) := by
  cases kind : value.isObject with
  | true => exact showValue_object cfg located kind
  | false =>
      by_cases mask : cfg.members = 0
      · refine ⟨fun not => absurd ⟨fun masked => absurd mask masked, ?_⟩ not,
          fun _ => showValue_unmasked cfg «at» kind mask⟩
        rw [inside_of_not_object «at» kind]
        exact Admits.nil body cfg
      · have notBrace : value.firstByte ≠ 0x7b := by
          rw [Ne, value.firstByte_eq_brace, kind]
          exact Bool.false_ne_true
        refine ⟨fun _ => ?_, fun yes => ?_⟩
        · rw [showValue]
          simp [observe, Marks.valueStart, Config.start, reset, mask, notBrace,
            Marks.because]
        · have isObject := yes.isObject mask
          rw [kind] at isObject
          exact Bool.noConfusion isObject

/-! ## Whole bodies -/

theorem Top.of_unheld
    {cfg : Config} {openAt : Nat} {ps : List Placed} {m m' : Marks}
    (state : Top cfg openAt ps m) (same : m'.unheld = m.unheld) :
    Top cfg openAt ps m' := by
  cases m
  cases m'
  simp only [Marks.unheld, Marks.mk.injEq] at same
  obtain ⟨rfl, rfl, -, rfl, rfl, rfl, rfl, rfl, rfl, rfl, rfl, rfl, rfl, rfl, rfl, rfl,
    rfl, rfl, rfl, rfl, rfl, rfl, rfl, rfl, rfl⟩ := same
  exact ⟨⟨state.calm.model, state.calm.member, state.calm.options⟩,
    state.modelOpen, state.memberOpen, state.level, state.allKeys, state.trackModel,
    state.members, state.openAt, state.top, state.options, state.modelSeen,
    state.modelAt, state.modelEnd, state.seen, state.hasMember, state.found⟩

/-- The members of the root of a text, with their places. -/
def rootMembers (text : Text) : List Placed :=
  Placed.inside text.pre.bytes.length text.value

/-- The texts whose scan is not refused. -/
structure Scanned (body : Bytes) (cfg : Config) (text : Text) : Prop where
  whole : body = text.render
  depth : text.value.depth ≤ Json.kMaxDepth
  root : RootAdmitted body cfg text.pre.bytes.length text.value

theorem text_located (text : Text) :
    Located text.render text.pre.bytes.length text.value.render :=
  ⟨text.post.bytes, by rw [Text.render, List.drop_left]⟩

/-- Whatever the cuts, a body ends well exactly when it has a text that is
admitted, and then what is remembered is that of its root's members. -/
theorem feedCuts_scanned (cfg : Config) (body : Bytes) (cuts : List Nat) :
    ((feedCuts cfg.start body cuts).verdict = .done ∧
        ∃ text, Scanned body cfg text ∧
          Top cfg (cfg.openAt text.pre.bytes.length) (rootMembers text)
            (feedCuts cfg.start body cuts).marks) ∨
      ((feedCuts cfg.start body cuts).verdict = .refused ∧
        ∀ text, ¬ Scanned body cfg text) := by
  obtain ⟨verdict, scan⟩ :=
    feedCuts_eq_outcome body cfg.allKeys cfg.trackModel cfg.members cuts
  have shown := outcome_eq_show body cfg.allKeys cfg.trackModel cfg.members
  change (feedCuts cfg.start body cuts).verdict = _ at verdict
  change (feedCuts cfg.start body cuts).toScan = _ at scan
  rw [verdict, scan]
  cases read : readText Json.kMaxDepth body with
  | none =>
      rw [read] at shown
      refine Or.inr ⟨shown, fun text scanned => ?_⟩
      have found := readText_eq_some_iff.mpr ⟨scanned.whole, scanned.depth⟩
      rw [read] at found
      simp at found
  | some text =>
      obtain ⟨whole, depth⟩ := readText_eq_some_iff.mp read
      obtain ⟨refuses, takes⟩ := showValue_root cfg (whole ▸ text_located text)
      rw [read, Option.bind_some] at shown
      by_cases admitted : RootAdmitted body cfg text.pre.bytes.length text.value
      · obtain ⟨m, accepted, state⟩ := takes admitted
        rw [show showValue _ _ _ _ (reset _ _ _).marks = some m from accepted] at shown
        exact Or.inl ⟨shown.1, text, ⟨whole, depth, admitted⟩,
          state.of_unheld shown.2⟩
      · rw [show showValue _ _ _ _ (reset _ _ _).marks = none from refuses admitted]
          at shown
        refine Or.inr ⟨shown, fun other scanned => admitted ?_⟩
        have same : other = text :=
          Text.render_injective (scanned.whole.symm.trans whole)
        exact same ▸ scanned.root

/-! ## Accepted documents -/

/-- The keys of an object, as they are written. -/
def keyNames (value : Json) : List Bytes :=
  value.members.map fun member => member.1.bytes

/-- Keys that are checked: unescaped, distinct and at most `kMaxKeys`. -/
structure KeysOk (names : List Bytes) : Prop where
  plain : ∀ name ∈ names, 0x5c ∉ name
  distinct : names.Nodup
  few : names.length ≤ kMaxKeys

/-- The documents the scan promises to accept. -/
structure Accepts (cfg : Config) (text : Text) : Prop where
  depth : text.value.depth ≤ Json.kMaxDepth
  plain : ∀ name ∈ keyNames text.value, 0x5c ∉ name
  model : (keyNames text.value).count (ascii "model") ≤ 1
  keys : cfg.allKeys = true → KeysOk (keyNames text.value)
  options : cfg.allKeys = true → ∀ member ∈ text.value.members,
    member.1.bytes = ascii "stream_options" → KeysOk (keyNames member.2)
  object : cfg.members ≠ 0 → text.value.isObject = true
  once : ∀ name, memberBit name &&& cfg.members ≠ 0 →
    (keyNames text.value).count name ≤ 1
  strings : ∀ member ∈ text.value.members,
    memberBit member.1.bytes &&& cfg.members ≠ 0 → member.2.isString = true

theorem placed_members (sep «at» : Nat) (items : Items .object) :
    (placed sep «at» items).map (fun p => (p.name, p.value)) =
      items.members.map fun member => (member.1.bytes, member.2) := by
  match items with
  | .last key pre value post =>
      rw [placed, Items.members]
      rfl
  | .cons key pre value post rest =>
      rw [placed, Items.members, List.map_cons, List.map_cons, placed_members]
      rfl

theorem inside_members («at» : Nat) (value : Json) :
    (Placed.inside «at» value).map (fun p => (p.name, p.value)) =
      value.members.map fun member => (member.1.bytes, member.2) := by
  match value with
  | .full .object items => exact placed_members _ _ items
  | .full .array _ | .empty _ _ | .lit _ | .number _ | .string _ => rfl

theorem inside_names («at» : Nat) (value : Json) :
    (Placed.inside «at» value).map Placed.name = keyNames value := by
  have both := congrArg (List.map Prod.fst) (inside_members «at» value)
  simpa [keyNames, Function.comp_def] using both

/-- A statement about the members with their places is one about the
members. -/
theorem forall_inside
    («at» : Nat) (value : Json) (P : Bytes → Json → Prop) :
    (∀ p ∈ Placed.inside «at» value, P p.name p.value) ↔
      ∀ member ∈ value.members, P member.1.bytes member.2 := by
  have both := inside_members «at» value
  constructor
  · intro all member inside
    have found : (member.1.bytes, member.2) ∈
        (Placed.inside «at» value).map fun p => (p.name, p.value) := by
      rw [both]
      exact List.mem_map_of_mem inside
    obtain ⟨p, there, equal⟩ := List.mem_map.mp found
    rw [Prod.mk.injEq] at equal
    rw [← equal.1, ← equal.2]
    exact all p there
  · intro all p there
    have found : (p.name, p.value) ∈
        value.members.map fun member => (member.1.bytes, member.2) := by
      rw [← both]
      exact List.mem_map_of_mem there
    obtain ⟨member, inside, equal⟩ := List.mem_map.mp found
    rw [Prod.mk.injEq] at equal
    rw [← equal.1, ← equal.2]
    exact all member inside

/-- Names of a kind stand at most once. -/
theorem pairwise_iff_count
    (P : Bytes → Prop) (names : List Bytes) :
    names.Pairwise (fun a b => P b → a ≠ b) ↔
      ∀ name, P name → names.count name ≤ 1 := by
  induction names with
  | nil => simp
  | cons first names inductionHypothesis =>
      rw [List.pairwise_cons, inductionHypothesis]
      constructor
      · rintro ⟨differs, others⟩ name kind
        by_cases same : first = name
        · subst same
          have absent : first ∉ names := fun member => differs first member kind rfl
          rw [List.count_cons_self, List.count_eq_zero_of_not_mem absent]
        · rw [List.count_cons_of_ne same]
          exact others name kind
      · intro counts
        refine ⟨?_, fun name kind =>
          Nat.le_trans (List.count_le_count_cons ..) (counts name kind)⟩
        rintro name member kind rfl
        have twice := counts first kind
        have once := List.count_pos_iff.mpr member
        rw [List.count_cons_self] at twice
        omega

/-- In a body whose places fit 32 bits, a stored span is the key. -/
theorem spanMatches_iff
    {body : Bytes} (small : body.length < 2 ^ 32) {p : Placed} (stands : p.Stands body)
    (k : Bytes) : Marks.spanMatches body k p.span = true ↔ p.name = k := by
  have bound := stands.name.lt
  have place : p.nameAt % 2 ^ 32 = p.nameAt := Nat.mod_eq_of_lt (by omega)
  have size : p.name.length % 2 ^ 32 = p.name.length := Nat.mod_eq_of_lt (by omega)
  rw [Marks.spanMatches, Placed.span, place, size]
  simp only [Bool.and_eq_true, beq_iff_eq]
  constructor
  · rintro ⟨same, matched⟩
    rw [← matched, ← same, stands.name.split.1.substr]
  · rintro rfl
    exact ⟨rfl, stands.name.split.1.substr⟩

theorem tableOk_iff
    {body : Bytes} (small : body.length < 2 ^ 32) {ps : List Placed}
    (stands : ∀ p ∈ ps, p.Stands body) :
    TableOk body ps ↔ KeysOk (ps.map Placed.name) := by
  have fresh : ps.Pairwise (fun a b =>
      Marks.spanMatches body b.name a.span = false) ↔
      (ps.map Placed.name).Nodup := by
    rw [List.Nodup, List.pairwise_map]
    refine List.Pairwise.iff_of_mem ?_
    intro a b member _
    rw [← Bool.not_eq_true, spanMatches_iff small (stands a member)]
  constructor
  · rintro ⟨plain, few, matches'⟩
    exact ⟨by simpa using plain, fresh.mp matches', by simpa using few⟩
  · rintro ⟨plain, distinct, few⟩
    exact ⟨by simpa using plain, by simpa using few, fresh.mpr distinct⟩

/-- Members with distinct names have one `stream_options` at most. -/
theorem flatMap_optionKeys
    {ps : List Placed} (distinct : (ps.map Placed.name).Nodup) {p : Placed}
    (member : p ∈ ps) (isOptions : p.name = ascii "stream_options") :
    ps.flatMap Placed.optionKeys = p.optionKeys := by
  induction ps with
  | nil => simp at member
  | cons q ps inductionHypothesis =>
      rw [List.map_cons, List.nodup_cons] at distinct
      rw [List.flatMap_cons]
      rcases List.mem_cons.mp member with rfl | member
      · have others : ps.flatMap Placed.optionKeys = [] := by
          rw [List.flatMap_eq_nil_iff]
          intro other inside
          refine if_neg fun same => distinct.1 ?_
          rw [isOptions, ← same]
          exact List.mem_map_of_mem inside
        rw [others, List.append_nil]
      · have skipped : q.optionKeys = [] := by
          refine if_neg fun same => distinct.1 ?_
          rw [same, ← isOptions]
          exact List.mem_map_of_mem member
        rw [skipped, List.nil_append]
        exact inductionHypothesis distinct.2 member

/-- The checked keys below the root, when the root's are distinct. -/
theorem options_iff
    {body : Bytes} (small : body.length < 2 ^ 32) {ps : List Placed}
    (stands : ∀ p ∈ ps, p.Stands body) (distinct : (ps.map Placed.name).Nodup) :
    TableOk body (ps.flatMap Placed.optionKeys) ↔
      ∀ p ∈ ps, p.name = ascii "stream_options" → KeysOk (keyNames p.value) := by
  have below : ∀ p ∈ ps, p.name = ascii "stream_options" →
      (TableOk body (ps.flatMap Placed.optionKeys) ↔ KeysOk (keyNames p.value)) := by
    intro p member isOptions
    rw [flatMap_optionKeys distinct member isOptions,
      tableOk_iff small (optionKeys_stands (stands p member)), Placed.optionKeys,
      if_pos isOptions, inside_names]
  constructor
  · intro table p member isOptions
    exact (below p member isOptions).mp table
  · intro all
    by_cases some : ∃ p ∈ ps, p.name = ascii "stream_options"
    · obtain ⟨p, member, isOptions⟩ := some
      exact (below p member isOptions).mpr (all p member isOptions)
    · have none : ps.flatMap Placed.optionKeys = [] := by
        rw [List.flatMap_eq_nil_iff]
        intro p member
        exact if_neg fun isOptions => some ⟨p, member, isOptions⟩
      rw [none]
      exact ⟨by simp, by simp, List.Pairwise.nil⟩

/-- In a body whose places fit 32 bits, the scan admits the documents it
promises to accept. -/
theorem scanned_iff
    {body : Bytes} (small : body.length < 2 ^ 32) (cfg : Config) (text : Text) :
    Scanned body cfg text ↔ body = text.render ∧ Accepts cfg text := by
  have names := inside_names text.pre.bytes.length text.value
  have model := pairwise_iff_count (fun name => name = ascii "model")
    (keyNames text.value)
  have once := pairwise_iff_count
    (fun name => memberBit name &&& cfg.members ≠ 0) (keyNames text.value)
  rw [← names, List.pairwise_map] at model once
  have plain : (∀ p ∈ rootMembers text, 0x5c ∉ p.name) ↔
      ∀ name ∈ keyNames text.value, 0x5c ∉ name := by
    rw [← names, List.forall_mem_map]
    rfl
  have strings := forall_inside text.pre.bytes.length text.value
    fun name value => memberBit name &&& cfg.members ≠ 0 → value.isString = true
  have options := forall_inside text.pre.bytes.length text.value
    fun name value => name = ascii "stream_options" → KeysOk (keyNames value)
  have stands : body = text.render → ∀ p ∈ rootMembers text, p.Stands body := by
    intro whole
    exact inside_stands (whole ▸ text_located text)
  have sameModel : (rootMembers text).Pairwise (fun a b =>
      b.name = ascii "model" → a.name ≠ b.name) ↔
      (rootMembers text).Pairwise fun a b =>
        b.name = ascii "model" → a.name ≠ ascii "model" := by
    refine List.Pairwise.iff fun a b => ?_
    exact forall_congr' fun isModel => by rw [isModel]
  constructor
  · rintro ⟨whole, depth, isObject, members⟩
    have table := fun every => (tableOk_iff small (stands whole)).mp
      (members.table every)
    rw [rootMembers, names] at table
    refine ⟨whole, depth, plain.mp members.plain, ?_, table, ?_, isObject, ?_,
      strings.mp members.strings⟩
    · rw [← names]
      exact model.mp (sameModel.mpr members.model) _ rfl
    · intro every
      refine options.mp ((options_iff small (stands whole) ?_).mp
        (members.options every))
      rw [rootMembers, names]
      exact (table every).distinct
    · rw [← names]
      exact once.mp members.once
  · rintro ⟨whole, accepts⟩
    refine ⟨whole, accepts.depth, accepts.object, ?_, ?_, ?_, ?_, ?_, ?_⟩
    · exact plain.mpr accepts.plain
    · refine sameModel.mp (model.mpr ?_)
      rintro _ rfl
      rw [names]
      exact accepts.model
    · intro every
      refine (tableOk_iff small (stands whole)).mpr ?_
      rw [rootMembers, names]
      exact accepts.keys every
    · intro every
      refine (options_iff small (stands whole) ?_).mpr
        (options.mpr (accepts.options every))
      rw [rootMembers, names]
      exact (accepts.keys every).distinct
    · refine once.mpr ?_
      rw [names]
      exact accepts.once
    · exact strings.mpr accepts.strings

/-- The scan is a recogniser of the documents it promises to accept, whatever
the cuts: it ends well exactly on them and refuses every other body, its end is
the same for any two ways to cut, and what it tells of an accepted body are the
places of the root's members. -/
theorem feedCuts_correct
    (cfg : Config) (body : Bytes) (small : body.length < 2 ^ 32) (cuts : List Nat) :
    ((feedCuts cfg.start body cuts).verdict = .done ↔
        ∃ text, body = text.render ∧ Accepts cfg text) ∧
      ((feedCuts cfg.start body cuts).verdict ≠ .done →
        (feedCuts cfg.start body cuts).verdict = .refused) ∧
      (∀ others : List Nat,
        (feedCuts cfg.start body cuts).verdict =
            (feedCuts cfg.start body others).verdict ∧
          (feedCuts cfg.start body cuts).marks =
            (feedCuts cfg.start body others).marks) ∧
      ∀ text, body = text.render → Accepts cfg text →
        (∀ p ∈ rootMembers text, p.Stands body) ∧
        ((feedCuts cfg.start body cuts).marks.modelAt,
          (feedCuts cfg.start body cuts).marks.modelEnd) =
            cfg.modelSpan (rootMembers text) ∧
        (feedCuts cfg.start body cuts).marks.openAt =
          cfg.openAt text.pre.bytes.length ∧
        (feedCuts cfg.start body cuts).marks.hasMember =
          (decide (cfg.members ≠ 0) && !(rootMembers text).isEmpty) ∧
        (feedCuts cfg.start body cuts).marks.found =
          cfg.found (rootMembers text) := by
  have ends := feedCuts_scanned cfg body cuts
  refine ⟨?_, ?_, ?_, ?_⟩
  · rcases ends with ⟨done, text, scanned, -⟩ | ⟨refused, none⟩
    · exact ⟨fun _ => ⟨text, (scanned_iff small cfg text).mp scanned⟩, fun _ => done⟩
    · constructor
      · intro done
        rw [refused] at done
        exact Verdict.noConfusion done
      · rintro ⟨text, accepted⟩
        exact absurd ((scanned_iff small cfg text).mpr accepted) (none text)
  · intro notDone
    rcases ends with ⟨done, -⟩ | ⟨refused, -⟩
    · exact absurd done notDone
    · exact refused
  · intro others
    have left := feedCuts_eq_outcome body cfg.allKeys cfg.trackModel cfg.members cuts
    have right :=
      feedCuts_eq_outcome body cfg.allKeys cfg.trackModel cfg.members others
    exact ⟨left.1.trans right.1.symm,
      congrArg Scan.marks (left.2.trans right.2.symm)⟩
  · intro text whole accepts
    have scanned := (scanned_iff small cfg text).mpr ⟨whole, accepts⟩
    rcases ends with ⟨-, other, otherScanned, state⟩ | ⟨-, none⟩
    · have same : other = text :=
        Text.render_injective (otherScanned.whole.symm.trans whole)
      subst same
      exact ⟨inside_stands (whole ▸ text_located other),
        Prod.ext state.modelAt state.modelEnd, state.openAt, state.hasMember,
        state.found⟩
    · exact absurd scanned (none text)

/-- A body with a model and a masked member, cut inside its keys. -/
theorem feedCuts_correct_speed :
    ∃ text, ascii "\x7b\"model\":1,\"speed\":\"fast\"\x7d" = text.render ∧
      Accepts ⟨true, true, 2⟩ text ∧
      Config.modelSpan ⟨true, true, 2⟩ (rootMembers text) = (9, 10) ∧
      Config.found ⟨true, true, 2⟩ (rootMembers text) = [⟨10, 19, 25, 2⟩] := by
  obtain ⟨accepted, -, -, told⟩ := feedCuts_correct ⟨true, true, 2⟩
    (ascii "\x7b\"model\":1,\"speed\":\"fast\"\x7d") (by decide) [3, 14]
  obtain ⟨text, whole, accepts⟩ := accepted.mp (by decide +kernel)
  obtain ⟨-, model, -, -, found⟩ := told text whole accepts
  refine ⟨text, whole, accepts, model.symm.trans ?_, found.symm.trans ?_⟩
  · decide +kernel
  · decide +kernel

end BodyScan
end Llmbridge
