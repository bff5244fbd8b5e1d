import Llmbridge.Provider.BodyScanSyntax

/-!
# What the scan remembers of a body's members

The members' half of the scan, shown the tree of a body: below the members of
the root it sees nothing (but the keys of `stream_options`), so the root's
members fold into what it remembers, one at a time.
-/

namespace Llmbridge
namespace BodyScan

open Rfc8259

/-! ## Values the tracker does not look into -/

/-- Two states that differ in the place of the last key only. -/
def Still (m m' : Marks) : Prop :=
  ∃ str tracked, m' = { m with str := str, tracked := tracked }

/-- Marks are as they were. -/
theorem Still.refl (m : Marks) : Still m m :=
  ⟨m.str, m.tracked, rfl⟩

/-- As they were, twice. -/
theorem Still.trans
    {m m' m'' : Marks} (first : Still m m') (second : Still m' m'') :
    Still m m'' := by
  obtain ⟨_, _, rfl⟩ := first
  obtain ⟨str, tracked, rfl⟩ := second
  exact ⟨str, tracked, rfl⟩

/-- No key waits for its value. -/
structure Calm (m : Marks) : Prop where
  model : m.modelNext = false
  member : m.memberNext = false
  options : m.optionsNext = false

/-- Calm marks stay calm. -/
theorem Calm.of_still
    {m m' : Marks} (calm : Calm m) (still : Still m m') : Calm m' := by
  obtain ⟨_, _, rfl⟩ := still
  exact ⟨calm.model, calm.member, calm.options⟩

section Events

variable {body : Bytes} {m : Marks} {depth : Nat}

/-- A value that starts changes no calm marks. -/
theorem start_of_calm
    (calm : Calm m) (nested : depth ≠ 0 ∨ m.members = 0) («at» : Nat) (c : Byte) :
    observe body (.start depth «at» c) m = some m := by
  have started : m.valueStart depth «at» c = (true, m) := by
    obtain ⟨model, member, options⟩ := calm
    cases m
    dsimp only at model member options nested
    subst model member options
    simp only [Marks.valueStart, Bool.false_eq_true, if_false]
    split
    · next mask =>
        have inside : depth ≠ 0 := nested.resolve_right mask
        simp [inside]
    · rfl
  have outside : ¬ (m.members ≠ 0 ∧ depth + 1 = 1) := by
    rintro ⟨mask, root⟩
    exact nested.elim (fun inside => inside (by omega)) mask
  simp only [observe, started, Marks.opened, if_neg outside, calm.options,
    Bool.false_eq_true, false_and, and_false, if_false, ite_self]

variable (body) in
/-- A key at a level that is not checked. -/
theorem showHead_untracked
    (deep : 2 ≤ depth) (unchecked : m.optionsDepth < depth) («at» : Nat)
    {kind : Kind} (head : Head kind) :
    ∃ m', showHead (observe body) depth «at» m head = some m' ∧ Still m m' := by
  cases kind with
  | array => exact ⟨m, rfl, Still.refl m⟩
  | object =>
      have untracked : ¬ (depth = 1 ∨
          (m.optionsDepth ≠ 0 ∧ depth = m.optionsDepth)) := by omega
      simp only [showHead, observe, Option.bind_some, Marks.keyStart, untracked,
        decide_false, if_false, Marks.keyDone, if_true]
      exact ⟨_, rfl, _, _, rfl⟩

/-- Nor does a comma below the root. -/
theorem showComma_untracked
    (deep : 2 ≤ depth ∨ m.members = 0) («at» : Nat) (kind : Kind) :
    showComma (observe body) depth «at» m kind = some m := by
  cases kind with
  | array => rfl
  | object =>
      have outside : ¬ (m.members ≠ 0 ∧ depth = 1) := by
        rintro ⟨mask, top⟩
        exact deep.elim (fun deep => by omega) mask
      simp [showComma, observe, Marks.comma, outside]

/-- Nor does a value that ends there. -/
theorem finish_untracked (deep : 2 ≤ depth) (stop : Nat) :
    observe body (.finish depth stop) m = some m := by
  have notTop : depth ≠ 1 := by omega
  have notRoot : depth ≠ 0 := by omega
  simp [observe, Marks.valueDone, notTop, notRoot]

/-- Nor does a container that closes there. -/
theorem showClose_untracked
    (deep : 2 ≤ depth) (unchecked : m.optionsDepth ≤ depth) (stop : Nat) :
    showClose (observe body) depth stop m = some m := by
  have inside : ¬ depth < m.optionsDepth := by omega
  have closed : observe body (.close depth) m = some m := by
    simp [observe, Marks.closed, inside]
  rw [showClose, closed, Option.bind_some, finish_untracked deep]

end Events

mutual

/-- Below the checked levels nothing is remembered of a value. -/
theorem showBody_still
    (body : Bytes) {depth : Nat} (deep : 2 ≤ depth) («at» : Nat) :
    ∀ (value : Json) {m : Marks}, Calm m → m.optionsDepth ≤ depth →
      ∃ m', showBody (observe body) depth «at» value m = some m' ∧ Still m m'
  | .full kind items, m, calm, unchecked => by
      obtain ⟨m', shown, still⟩ :=
        @showItems_still body (depth + 1) (by omega) («at» + 1) _ items _ calm (by omega)
      have same : m'.optionsDepth ≤ depth := by
        obtain ⟨_, _, rfl⟩ := still
        exact unchecked
      refine ⟨m', ?_, still⟩
      rw [showBody, shown, Option.bind_some, showClose_untracked deep same]
  | .empty kind inside, m, calm, unchecked =>
      ⟨m, by rw [showBody, showClose_untracked deep unchecked], Still.refl m⟩
  | .lit l, m, _, _ =>
      ⟨m, by rw [showBody, finish_untracked deep], Still.refl m⟩
  | .number n, m, _, _ =>
      ⟨m, by rw [showBody, finish_untracked deep], Still.refl m⟩
  | .string chars, m, _, _ =>
      ⟨m, by rw [showBody, finish_untracked deep], Still.refl m⟩

/-- Below the checked levels nothing is remembered of items. -/
theorem showItems_still
    (body : Bytes) {depth : Nat} (deep : 2 ≤ depth) («at» : Nat) :
    ∀ {kind : Kind} (items : Items kind) {m : Marks}, Calm m →
      m.optionsDepth < depth →
      ∃ m', showItems (observe body) depth «at» items m = some m' ∧ Still m m'
  | _, .last head pre value _, m, calm, unchecked => by
      obtain ⟨m₁, headShown, still₁⟩ :=
        showHead_untracked body deep unchecked «at» head
      have same : m₁.optionsDepth = m.optionsDepth := by
        obtain ⟨_, _, rfl⟩ := still₁
        rfl
      obtain ⟨m₂, shown, still₂⟩ := showBody_still body deep
        («at» + head.render.length + pre.bytes.length) value
        (calm.of_still still₁) (by omega)
      refine ⟨m₂, ?_, still₁.trans still₂⟩
      rw [showItems, headShown, Option.bind_some,
        start_of_calm (calm.of_still still₁) (Or.inl (by omega)),
        Option.bind_some, shown]
  | kind, .cons head pre value post rest, m, calm, unchecked => by
      obtain ⟨m₁, headShown, still₁⟩ :=
        showHead_untracked body deep unchecked «at» head
      have same₁ : m₁.optionsDepth = m.optionsDepth := by
        obtain ⟨_, _, rfl⟩ := still₁
        rfl
      obtain ⟨m₂, shown, still₂⟩ := showBody_still body deep
        («at» + head.render.length + pre.bytes.length) value
        (calm.of_still still₁) (by omega)
      have calm₂ := (calm.of_still still₁).of_still still₂
      have same₂ : m₂.optionsDepth = m.optionsDepth := by
        obtain ⟨_, _, rfl⟩ := still₂
        exact same₁
      obtain ⟨m₃, restShown, still₃⟩ := showItems_still body deep
        («at» + head.render.length + pre.bytes.length + value.render.length +
          post.bytes.length + 1) rest calm₂ (by omega)
      refine ⟨m₃, ?_, (still₁.trans still₂).trans still₃⟩
      rw [showItems, headShown, Option.bind_some,
        start_of_calm (calm.of_still still₁) (Or.inl (by omega)),
        Option.bind_some, shown, Option.bind_some,
        showComma_untracked (Or.inl deep), Option.bind_some, restShown]

end

/-! ## Members with their places -/

/-- A member of an object: where the separator before it stands, where its
key's name and its value start. -/
structure Placed where
  sep : Nat
  nameAt : Nat
  name : Bytes
  valueAt : Nat
  value : Json

/-- The end of a member's value. -/
def Placed.stop (p : Placed) : Nat :=
  p.valueAt + p.value.render.length

/-- The span stored for a member's key. -/
def Placed.span (p : Placed) : Span :=
  ⟨p.nameAt % 2 ^ 32, p.name.length % 2 ^ 32⟩

/-- The member whose text starts at `«at»` with this key and the whitespace
after its colon. -/
def Placed.of (sep «at» : Nat) (key : Key) (pre : Ws) (value : Json) : Placed :=
  { sep := sep
    nameAt := «at» + key.pre.bytes.length + 1
    name := key.name.bytes
    valueAt := «at» + key.render.length + pre.bytes.length
    value := value }

/-- The members of an object's text that starts at `«at»`, `sep` being the
separator before the first. -/
def placed (sep «at» : Nat) : Items .object → List Placed
  | .last key pre value _ => [Placed.of sep «at» key pre value]
  | .cons key pre value post rest =>
      Placed.of sep «at» key pre value ::
      placed ((Placed.of sep «at» key pre value).stop + post.bytes.length)
        ((Placed.of sep «at» key pre value).stop + post.bytes.length + 1) rest

/-- The members of an object whose brace stands at `«at»`; none for another
value. -/
def Placed.inside («at» : Nat) : Json → List Placed
  | .full .object items => placed («at» + 1) («at» + 1) items
  | _ => []

/-- Only an object has members. -/
theorem inside_of_not_object
    («at» : Nat) {value : Json} (notObject : value.isObject = false) :
    Placed.inside «at» value = [] := by
  cases value with
  | lit | number | string => rfl
  | empty kind => cases kind <;> rfl
  | full kind =>
      cases kind with
      | array => rfl
      | object => exact Bool.noConfusion notObject

/-- The body holds every key where the list says. -/
def Named (body : Bytes) (ps : List Placed) : Prop :=
  ∀ p ∈ ps, substr body p.nameAt p.name.length = p.name

theorem Named.head
    {body : Bytes} {p : Placed} {ps : List Placed} (named : Named body (p :: ps)) :
    Named body [p] := by
  intro q member
  rw [List.mem_singleton] at member
  exact named q (member ▸ List.mem_cons_self)

theorem Named.tail
    {body : Bytes} {p : Placed} {ps : List Placed} (named : Named body (p :: ps)) :
    Named body ps :=
  fun q member => named q (List.mem_cons_of_mem p member)

/-- A table of keys: none escaped, at most `kMaxKeys`, and none that a stored
span before it matches. -/
structure TableOk (body : Bytes) (ps : List Placed) : Prop where
  plain : ∀ p ∈ ps, 0x5c ∉ p.name
  few : ps.length ≤ kMaxKeys
  fresh : ps.Pairwise fun a b => Marks.spanMatches body b.name a.span = false

/-- The table with one more key. -/
theorem tableOk_concat (body : Bytes) (ps : List Placed) (q : Placed) :
    TableOk body (ps ++ [q]) ↔ TableOk body ps ∧ 0x5c ∉ q.name ∧
      ps.length ≠ kMaxKeys ∧
      (ps.map Placed.span).any (Marks.spanMatches body q.name) = false := by
  constructor
  · rintro ⟨plain, few, fresh⟩
    rw [List.length_append, List.length_singleton] at few
    rw [List.pairwise_append] at fresh
    refine ⟨⟨fun p member => plain p (by simp [member]), by omega, fresh.1⟩,
      plain q (by simp), by omega, ?_⟩
    simpa [List.any_eq_false] using fresh.2.2
  · rintro ⟨⟨plain, few, fresh⟩, escaped, room, unmatched⟩
    refine ⟨?_, ?_, ?_⟩
    · intro p member
      rw [List.mem_append, List.mem_singleton] at member
      rcases member with member | rfl
      · exact plain p member
      · exact escaped
    · rw [List.length_append, List.length_singleton]
      omega
    · rw [List.pairwise_append]
      exact ⟨fresh, by simp, by simpa [List.any_eq_false] using unmatched⟩

/-- The table of the first keys. -/
theorem TableOk.of_append
    {body : Bytes} {ps qs : List Placed} (all : TableOk body (ps ++ qs)) :
    TableOk body ps := by
  obtain ⟨plain, few, fresh⟩ := all
  rw [List.length_append] at few
  exact ⟨fun p member => plain p (by simp [member]), by omega,
    (List.pairwise_append.mp fresh).1⟩

/-! ## Checked keys -/

/-- The checks of a key whose bytes are plain. -/
def checkKey (body : Bytes) (depth : Nat) (k : Bytes) (m : Marks) :
    Option Marks :=
  match m.keyHold depth k with
  | (false, _) => none
  | (true, m) =>
      match m.keyModel depth k with
      | (false, _) => none
      | (true, m) =>
          match m.keyTable body depth k with
          | (false, _) => none
          | (true, m) => some m

/-- A key at a checked level. -/
theorem showHead_checked
    (depth : Nat) {body : Bytes} {m : Marks}
    (checked : depth = 1 ∨ (m.optionsDepth ≠ 0 ∧ depth = m.optionsDepth))
    («at» : Nat) (key : Key)
    (named : substr body («at» + key.pre.bytes.length + 1)
      key.name.bytes.length = key.name.bytes) :
    @showHead _ (observe body) depth «at» m .object key =
      if 0x5c ∈ key.name.bytes then none
      else checkKey body depth key.name.bytes
        { m with
          tracked := true
          hold := min m.hold («at» + key.pre.bytes.length)
          str := «at» + key.pre.bytes.length + 1 } := by
  have size : ∀ n len : Nat, n + 1 + len - (n + 1) = len := by omega
  simp only [showHead, observe, Option.bind_some, Marks.keyStart, checked,
    decide_true, if_true, Marks.keyDone, Bool.true_eq_false, if_false, size,
    named, List.contains_eq_mem, decide_eq_true_eq, Marks.because, checkKey]
  by_cases escaped : 0x5c ∈ key.name.bytes
  · simp [escaped]
  · simp only [escaped, if_false]
    cases held : Marks.keyHold _ depth key.name.bytes with
    | mk ok m =>
        cases ok with
        | false => rfl
        | true =>
            dsimp only
            cases modelled : Marks.keyModel m depth key.name.bytes with
            | mk ok m =>
                cases ok with
                | false => rfl
                | true => rfl

/-! ## The keys of `stream_options` -/

/-- A state inside `stream_options` that has stored the keys of `ps`. -/
structure InOptions (m : Marks) (ps : List Placed) : Prop where
  calm : Calm m
  level : m.optionsDepth = 2
  allKeys : m.allKeys = true
  stored : m.options = ps.map Placed.span

/-- Two states that differ in `stream_options`' keys, in what is held and in the
place of the last key. -/
def OptionsOnly (m m' : Marks) : Prop :=
  ∃ options hold str tracked, m' =
    { m with options := options, hold := hold, str := str, tracked := tracked }

/-- Only the options change, twice. -/
theorem OptionsOnly.trans
    {m m' m'' : Marks} (first : OptionsOnly m m') (second : OptionsOnly m' m'') :
    OptionsOnly m m'' := by
  obtain ⟨_, _, _, _, rfl⟩ := first
  obtain ⟨options, hold, str, tracked, rfl⟩ := second
  exact ⟨options, hold, str, tracked, rfl⟩

/-- Where nothing changes only the options do. -/
theorem Still.optionsOnly {m m' : Marks} (still : Still m m') :
    OptionsOnly m m' := by
  obtain ⟨str, tracked, rfl⟩ := still
  exact ⟨m.options, m.hold, str, tracked, rfl⟩

/-- The options' keys of marks that are as they were. -/
theorem InOptions.of_still
    {m m' : Marks} {ps : List Placed} (inside : InOptions m ps)
    (still : Still m m') : InOptions m' ps := by
  have calm := inside.calm.of_still still
  obtain ⟨_, _, rfl⟩ := still
  exact ⟨calm, inside.level, inside.allKeys, inside.stored⟩

/-- A key below the root goes to the table of `stream_options`. -/
theorem checkKey_options
    {body : Bytes} {m : Marks} (allKeys : m.allKeys = true) (k : Bytes) :
    checkKey body 2 k m =
      if m.options.length = kMaxKeys ∨
          m.options.any (Marks.spanMatches body k) = true then none
      else some { m with
        hold := sizeMax
        options := m.options ++ [⟨m.str % 2 ^ 32, k.length % 2 ^ 32⟩] } := by
  have below : ¬ (2 = 1) := by decide
  by_cases full : m.options.length = kMaxKeys
  · simp [checkKey, Marks.keyHold, Marks.keyModel, Marks.keyTable, allKeys, below,
      full, Marks.because]
  by_cases repeated : m.options.any (Marks.spanMatches body k) = true
  · simp [checkKey, Marks.keyHold, Marks.keyModel, Marks.keyTable, allKeys, below,
      full, repeated, Marks.because]
  · simp [checkKey, Marks.keyHold, Marks.keyModel, Marks.keyTable, allKeys, below,
      full, repeated]

/-- A key of `stream_options` is stored, unless it is refused. -/
theorem showHead_options
    {body : Bytes} {m : Marks} {ps : List Placed} (inside : InOptions m ps)
    (admitted : TableOk body ps) (sep «at» : Nat) (key : Key) (pre : Ws)
    (value : Json) (named : Named body [Placed.of sep «at» key pre value]) :
    (¬ TableOk body (ps ++ [Placed.of sep «at» key pre value]) →
      @showHead _ (observe body) 2 «at» m .object key = none) ∧
    (TableOk body (ps ++ [Placed.of sep «at» key pre value]) →
      ∃ m', @showHead _ (observe body) 2 «at» m .object key = some m' ∧
        InOptions m' (ps ++ [Placed.of sep «at» key pre value]) ∧
        OptionsOnly m m') := by
  obtain ⟨calm, level, allKeys, stored⟩ := inside
  have head := showHead_checked 2 (m := m)
    (Or.inr (by simp [level])) «at» key (named _ (List.mem_singleton_self _))
  rw [checkKey_options (by exact allKeys)] at head
  dsimp only at head
  rw [stored, List.length_map] at head
  rw [tableOk_concat, head]
  dsimp only [Placed.of]
  by_cases escaped : 0x5c ∈ key.name.bytes
  · simp [escaped]
  by_cases refused : ps.length = kMaxKeys ∨ (ps.map Placed.span).any
      (Marks.spanMatches body key.name.bytes) = true
  · rw [if_neg escaped, if_pos refused]
    refine ⟨fun _ => rfl, ?_⟩
    rintro ⟨-, -, room, fresh⟩
    exact absurd refused (by simp [room, fresh])
  · rw [if_neg escaped, if_neg refused]
    rw [not_or, Bool.not_eq_true] at refused
    refine ⟨fun not => absurd ⟨admitted, escaped, refused⟩ not, fun _ => ?_⟩
    refine ⟨_, rfl, ⟨⟨calm.model, calm.member, calm.options⟩, level, allKeys, ?_⟩,
      _, _, _, _, rfl⟩
    simp [Placed.span]

/-- The members of `stream_options` are stored, unless one is refused. -/
theorem showItems_options
    {body : Bytes} :
    ∀ (items : Items .object) (sep «at» : Nat) {m : Marks} {ps : List Placed},
      InOptions m ps → TableOk body ps → Named body (placed sep «at» items) →
      (¬ TableOk body (ps ++ placed sep «at» items) →
        showItems (observe body) 2 «at» items m = none) ∧
      (TableOk body (ps ++ placed sep «at» items) →
        ∃ m', showItems (observe body) 2 «at» items m = some m' ∧
          InOptions m' (ps ++ placed sep «at» items) ∧ OptionsOnly m m')
  | .last key pre value post, sep, «at», m, ps, inside, admitted, named => by
      rw [placed] at named ⊢
      obtain ⟨refuses, takes⟩ :=
        showHead_options inside admitted sep «at» key pre value named
      rw [showItems]
      refine ⟨fun not => by rw [refuses not, Option.bind_none], fun ok => ?_⟩
      obtain ⟨m₁, headShown, inside₁, only₁⟩ := takes ok
      obtain ⟨m₂, shown, still⟩ := showBody_still body (Nat.le_refl 2)
        («at» + (@Head.render .object key).length + pre.bytes.length)
        value inside₁.calm (Nat.le_of_eq inside₁.level)
      refine ⟨m₂, ?_, inside₁.of_still still, only₁.trans still.optionsOnly⟩
      rw [headShown, Option.bind_some, start_of_calm inside₁.calm (Or.inl (by decide)),
        Option.bind_some, shown]
  | .cons key pre value post rest, sep, «at», m, ps, inside, admitted, named => by
      rw [placed] at named ⊢
      obtain ⟨refuses, takes⟩ := showHead_options inside admitted sep «at» key pre
        value named.head
      rw [showItems, List.append_cons]
      by_cases ok : TableOk body (ps ++ [Placed.of sep «at» key pre value])
      · obtain ⟨m₁, headShown, inside₁, only₁⟩ := takes ok
        obtain ⟨m₂, shown, still⟩ := showBody_still body (Nat.le_refl 2)
          («at» + (@Head.render .object key).length + pre.bytes.length)
          value inside₁.calm (Nat.le_of_eq inside₁.level)
        obtain ⟨restRefuses, restTakes⟩ := showItems_options rest
          ((Placed.of sep «at» key pre value).stop + post.bytes.length)
          ((Placed.of sep «at» key pre value).stop + post.bytes.length + 1)
          (inside₁.of_still still) ok
          named.tail
        rw [headShown, Option.bind_some,
          start_of_calm inside₁.calm (Or.inl (by decide)), Option.bind_some, shown,
          Option.bind_some, showComma_untracked (Or.inl (Nat.le_refl 2)),
          Option.bind_some]
        refine ⟨restRefuses, fun all => ?_⟩
        obtain ⟨m₃, restShown, inside₃, only₃⟩ := restTakes all
        exact ⟨m₃, restShown, inside₃,
          (only₁.trans still.optionsOnly).trans only₃⟩
      · rw [refuses ok]
        refine ⟨fun _ => Option.bind_none _, fun all => absurd ?_ ok⟩
        exact all.of_append

/-! ## The members of the root -/

/-- What `reset` is told. -/
structure Config where
  allKeys : Bool
  trackModel : Bool
  members : UInt8
  deriving DecidableEq, Repr

/-- A scan at its start. -/
def Config.start (cfg : Config) : BodyScan :=
  reset cfg.allKeys cfg.trackModel cfg.members

/-- The bit of a member that the mask names; zero for the others. -/
def Config.bit (cfg : Config) (p : Placed) : UInt8 :=
  memberBit p.name &&& cfg.members

/-- The checked keys below a member: those of an object `stream_options`. -/
def Placed.optionKeys (p : Placed) : List Placed :=
  if p.name = ascii "stream_options" then Placed.inside p.valueAt p.value else []

/-- A member as it is told once closed. -/
def Config.told (cfg : Config) (p : Placed) : Member :=
  ⟨p.sep, p.valueAt, p.stop, cfg.bit p⟩

/-- The members the mask names, in body order. -/
def Config.found (cfg : Config) (ps : List Placed) : List Member :=
  (ps.filter fun p => cfg.bit p ≠ 0).map cfg.told

/-- The place of the tracked model, if there is one. -/
def Config.modelSpan (cfg : Config) (ps : List Placed) : Nat × Nat :=
  match ps.find? fun p => cfg.trackModel && decide (p.name = ascii "model") with
  | some p => (p.valueAt, p.stop)
  | none => (sizeMax, sizeMax)

/-- The members the scan admits. -/
structure Admits (body : Bytes) (cfg : Config) (ps : List Placed) : Prop where
  plain : ∀ p ∈ ps, 0x5c ∉ p.name
  model : ps.Pairwise fun a b =>
    b.name = ascii "model" → a.name ≠ ascii "model"
  table : cfg.allKeys = true → TableOk body ps
  options : cfg.allKeys = true → TableOk body (ps.flatMap Placed.optionKeys)
  once : ps.Pairwise fun a b => cfg.bit b ≠ 0 → a.name ≠ b.name
  strings : ∀ p ∈ ps, cfg.bit p ≠ 0 → p.value.isString = true

/-- The checks of one member behind others. -/
structure AdmitsNext (body : Bytes) (cfg : Config) (ps : List Placed)
    (q : Placed) : Prop where
  plain : 0x5c ∉ q.name
  model : q.name = ascii "model" → ∀ p ∈ ps, p.name ≠ ascii "model"
  table : cfg.allKeys = true → TableOk body (ps ++ [q])
  options : cfg.allKeys = true →
    TableOk body (ps.flatMap Placed.optionKeys ++ q.optionKeys)
  once : cfg.bit q ≠ 0 → ∀ p ∈ ps, p.name ≠ q.name
  strings : cfg.bit q ≠ 0 → q.value.isString = true

/-- No member is refused. -/
theorem Admits.nil (body : Bytes) (cfg : Config) : Admits body cfg [] :=
  ⟨by simp, List.Pairwise.nil, fun _ => ⟨by simp, by simp, List.Pairwise.nil⟩,
    fun _ => ⟨by simp, by simp, List.Pairwise.nil⟩, List.Pairwise.nil, by simp⟩

/-- The first members are admitted where all are. -/
theorem Admits.of_append
    {body : Bytes} {cfg : Config} {ps qs : List Placed}
    (all : Admits body cfg (ps ++ qs)) : Admits body cfg ps where
  plain p member := all.plain p (List.mem_append_left qs member)
  model := (List.pairwise_append.mp all.model).1
  table every := (all.table every).of_append
  options every := by
    have flat := all.options every
    rw [List.flatMap_append] at flat
    exact flat.of_append
  once := (List.pairwise_append.mp all.once).1
  strings p member := all.strings p (List.mem_append_left qs member)

/-- The members with one more. -/
theorem admits_concat
    (body : Bytes) (cfg : Config) (ps : List Placed) (q : Placed) :
    Admits body cfg (ps ++ [q]) ↔ Admits body cfg ps ∧ AdmitsNext body cfg ps q := by
  constructor
  · intro all
    refine ⟨all.of_append, ⟨all.plain q (by simp), ?_, all.table, ?_, ?_,
      all.strings q (by simp)⟩⟩
    · intro isModel p member
      exact (List.pairwise_append.mp all.model).2.2 p member q (by simp) isModel
    · intro every
      simpa using all.options every
    · intro masked p member
      exact (List.pairwise_append.mp all.once).2.2 p member q (by simp) masked
  · rintro ⟨front, next⟩
    refine ⟨?_, ?_, next.table, ?_, ?_, ?_⟩
    · intro p member
      rw [List.mem_append, List.mem_singleton] at member
      rcases member with member | rfl
      · exact front.plain p member
      · exact next.plain
    · refine List.pairwise_append.mpr ⟨front.model, by simp, ?_⟩
      intro p member r last isModel
      rw [List.mem_singleton] at last
      subst last
      exact next.model isModel p member
    · intro every
      simpa using next.options every
    · refine List.pairwise_append.mpr ⟨front.once, by simp, ?_⟩
      intro p member r last masked
      rw [List.mem_singleton] at last
      subst last
      exact next.once masked p member
    · intro p member
      rw [List.mem_append, List.mem_singleton] at member
      rcases member with member | rfl
      · exact front.strings p member
      · exact next.strings

/-! ## The mask -/

/-- The bits of the members before. -/
def Config.seen (cfg : Config) (ps : List Placed) : UInt8 :=
  ps.foldl (fun seen p => seen ||| cfg.bit p) 0

/-- A masked key has a bit of its own. -/
theorem memberBit_cases (k : Bytes) :
    memberBit k = 0 ∨ memberBit k = 1 ∨ memberBit k = 2 ∨ memberBit k = 4 := by
  rw [memberBit]
  repeat' split
  all_goals simp

/-- Names with one bit are the same name. -/
theorem memberBit_inj
    {j k : Bytes} (same : memberBit j = memberBit k) (named : memberBit k ≠ 0) :
    j = k := by
  simp only [memberBit] at same named
  repeat' split at same
  all_goals simp_all

/-- Two masked bits meet when they are those of one name. -/
theorem bit_meets (j k : Bytes) (members : UInt8)
    (masked : memberBit k &&& members ≠ 0) :
    (memberBit j &&& members) &&& (memberBit k &&& members) ≠ 0 ↔ j = k := by
  have named : memberBit k ≠ 0 := by
    intro zero
    simp [zero] at masked
  constructor
  · intro meets
    refine memberBit_inj ?_ named
    have shared : memberBit j &&& memberBit k ≠ 0 := by
      intro zero
      apply meets
      calc (memberBit j &&& members) &&& (memberBit k &&& members)
          = (memberBit j &&& memberBit k) &&& members := by
            rw [UInt8.and_assoc, ← UInt8.and_assoc members,
              UInt8.and_comm members, UInt8.and_assoc (memberBit k),
              UInt8.and_self, UInt8.and_assoc]
        _ = 0 := by rw [zero, UInt8.zero_and]
    rcases memberBit_cases j with bit | bit | bit | bit <;>
      rcases memberBit_cases k with other | other | other | other <;>
      rw [bit, other] at shared ⊢ <;> revert shared <;> decide
  · rintro rfl
    rwa [UInt8.and_self]

/-- A bit was seen when a member of that name went before. -/
theorem seen_meets
    (cfg : Config) (ps : List Placed) (q : Placed) (masked : cfg.bit q ≠ 0) :
    cfg.seen ps &&& cfg.bit q ≠ 0 ↔ ∃ p ∈ ps, p.name = q.name := by
  induction ps using List.reverseRecOn with
  | nil => simp [Config.seen]
  | append_singleton ps p inductionHypothesis =>
      have spread : cfg.seen (ps ++ [p]) &&& cfg.bit q =
          (cfg.seen ps &&& cfg.bit q) ||| (cfg.bit p &&& cfg.bit q) := by
        simp only [Config.seen, List.foldl_append, List.foldl_cons, List.foldl_nil]
        simp [← UInt8.toBitVec_inj, BitVec.and_or_distrib_right]
      have meets := bit_meets p.name q.name cfg.members masked
      rw [spread, Ne, UInt8.or_eq_zero_iff, not_and_or]
      rw [Ne] at inductionHypothesis meets
      rw [inductionHypothesis, Config.bit, Config.bit, meets]
      simp

/-! ## One member of the root -/

/-- What is remembered between members of the root, those of `ps` having gone
before. -/
structure Top (cfg : Config) (openAt : Nat) (ps : List Placed) (m : Marks) :
    Prop where
  calm : Calm m
  modelOpen : m.modelOpen = false
  memberOpen : m.memberOpen = false
  level : m.optionsDepth = 0
  allKeys : m.allKeys = cfg.allKeys
  trackModel : m.trackModel = cfg.trackModel
  members : m.members = cfg.members
  openAt : m.openAt = openAt
  top : m.top = if cfg.allKeys then ps.map Placed.span else []
  options : m.options =
    if cfg.allKeys then (ps.flatMap Placed.optionKeys).map Placed.span else []
  modelSeen : m.modelSeen = ps.any fun p => decide (p.name = ascii "model")
  modelAt : m.modelAt = (cfg.modelSpan ps).1
  modelEnd : m.modelEnd = (cfg.modelSpan ps).2
  seen : m.membersSeen = cfg.seen ps
  hasMember : m.hasMember = (decide (cfg.members ≠ 0) && !ps.isEmpty)
  found : m.found = cfg.found ps

/-- The state behind a key of the root. -/
def Marks.afterKey (m : Marks) (k : Bytes) : Marks :=
  let bit := BodyScan.memberBit k &&& m.members
  { m with
    hasMember := m.hasMember || decide (m.members ≠ 0)
    membersSeen := m.membersSeen ||| bit
    memberBit := if bit = 0 then m.memberBit else bit
    memberAt := if bit = 0 then m.memberAt else m.hold
    memberNext := m.memberNext || decide (bit ≠ 0)
    hold := if bit = 0 then sizeMax else m.hold
    modelSeen := m.modelSeen || decide (k = ascii "model")
    modelNext := if k = ascii "model" then m.trackModel else m.modelNext
    top := if m.allKeys then m.top ++ [⟨m.str % 2 ^ 32, k.length % 2 ^ 32⟩]
      else m.top
    optionsNext := if m.allKeys then decide (k = ascii "stream_options")
      else m.optionsNext }

/-- What a masked key of the root holds back. -/
theorem keyHold_top (m : Marks) (k : Bytes) :
    let bit := memberBit k &&& m.members
    m.keyHold 1 k =
      if bit ≠ 0 ∧ m.membersSeen &&& bit ≠ 0 then
        Marks.because { m with hasMember := true } "repeated top-level key"
      else
        (true, { m with
          hasMember := m.hasMember || decide (m.members ≠ 0)
          membersSeen := m.membersSeen ||| bit
          memberBit := if bit = 0 then m.memberBit else bit
          memberAt := if bit = 0 then m.memberAt else m.hold
          memberNext := m.memberNext || decide (bit ≠ 0)
          hold := if bit = 0 then sizeMax else m.hold }) := by
  intro bit
  by_cases mask : m.members = 0
  · have none : bit = 0 := by simp [bit, mask]
    simp [Marks.keyHold, mask, none]
  · simp only [Marks.keyHold, mask, ne_eq, not_false_eq_true, and_self, if_true]
    by_cases zero : bit = 0
    · have zero' : memberBit k &&& m.members = 0 := zero
      simp [zero, zero']
    · have some : memberBit k &&& m.members ≠ 0 := zero
      simp only [some, zero, not_false_eq_true, if_true, true_and]
      by_cases seen : m.membersSeen &&& bit = 0
      · simp [seen, bit]
      · have seen' : m.membersSeen &&& (memberBit k &&& m.members) ≠ 0 := seen
        simp [seen, seen']

/-- What the model's key does to the marks. -/
theorem keyModel_top (m : Marks) (k : Bytes) :
    m.keyModel 1 k =
      if k = ascii "model" ∧ m.modelSeen = true then
        m.because "repeated top-level key"
      else
        (true, { m with
          modelSeen := m.modelSeen || decide (k = ascii "model")
          modelNext := if k = ascii "model" then m.trackModel else m.modelNext }) := by
  by_cases isModel : k = ascii "model"
  · by_cases seen : m.modelSeen = true
    · simp [Marks.keyModel, isModel, seen]
    · simp [Marks.keyModel, isModel, seen]
  · simp [Marks.keyModel, isModel]

/-- What the table of keys does with one of the root's. -/
theorem keyTable_top (body : Bytes) (m : Marks) (k : Bytes) :
    (match m.keyTable body 1 k with
      | (false, _) => none
      | (true, m) => some m) =
      if m.allKeys = true ∧ (m.top.length = kMaxKeys ∨
          m.top.any (Marks.spanMatches body k) = true) then none
      else some { m with
        top := if m.allKeys then m.top ++ [⟨m.str % 2 ^ 32, k.length % 2 ^ 32⟩]
          else m.top
        optionsNext := if m.allKeys then decide (k = ascii "stream_options")
          else m.optionsNext } := by
  by_cases every : m.allKeys = true
  · by_cases full : m.top.length = kMaxKeys
    · simp [Marks.keyTable, every, full, Marks.because]
    · by_cases repeated : m.top.any (Marks.spanMatches body k) = true
      · simp [Marks.keyTable, every, full, repeated, Marks.because]
      · simp [Marks.keyTable, every, full, repeated]
  · cases m
    simp_all [Marks.keyTable]

/-- The checks of a key of the root. -/
theorem checkKey_top (body : Bytes) (m : Marks) (k : Bytes) :
    checkKey body 1 k m =
      if (memberBit k &&& m.members ≠ 0 ∧
            m.membersSeen &&& (memberBit k &&& m.members) ≠ 0) ∨
          (k = ascii "model" ∧ m.modelSeen = true) ∨
          (m.allKeys = true ∧ (m.top.length = kMaxKeys ∨
            m.top.any (Marks.spanMatches body k) = true)) then none
      else some (m.afterKey k) := by
  rw [checkKey, keyHold_top]
  by_cases repeats : memberBit k &&& m.members ≠ 0 ∧
      m.membersSeen &&& (memberBit k &&& m.members) ≠ 0
  · rw [if_pos repeats, if_pos (Or.inl repeats)]
    rfl
  rw [if_neg repeats]
  dsimp only
  rw [keyModel_top]
  dsimp only
  by_cases again : k = ascii "model" ∧ m.modelSeen = true
  · rw [if_pos again, if_pos (Or.inr (Or.inl again))]
    rfl
  rw [if_neg again]
  dsimp only
  rw [keyTable_top]
  dsimp only
  by_cases refused : m.allKeys = true ∧ (m.top.length = kMaxKeys ∨
      m.top.any (Marks.spanMatches body k) = true)
  · rw [if_pos refused, if_pos (Or.inr (Or.inr refused))]
  · rw [if_neg refused,
      if_neg (not_or.mpr ⟨repeats, not_or.mpr ⟨again, refused⟩⟩)]
    rfl

/-- The state behind the first byte of a member's value, before the kind of the
value is looked at. -/
def Marks.afterStart (m : Marks) («at» : Nat) : Marks :=
  { m with
    optionsNext := false
    modelNext := false
    modelOpen := m.modelOpen || m.modelNext
    modelAt := if m.modelNext then «at» else m.modelAt
    hold := if m.modelNext then «at» else m.hold
    memberNext := false
    memberOpen := m.memberOpen || m.memberNext
    memberValue := if m.memberNext then «at» else m.memberValue }

/-- A member's value starts. -/
theorem valueStart_top
    (m : Marks) («at» : Nat) (c : Byte)
    (masked : m.memberNext = true → m.members ≠ 0) :
    (match m.valueStart 1 «at» c with
      | (false, _) => none
      | (true, m) => some m) =
      if m.memberNext = true ∧ c ≠ 0x22 then none
      else some (m.afterStart «at») := by
  cases next : m.modelNext <;> cases member : m.memberNext <;>
    by_cases mask : m.members = 0 <;> by_cases quote : c = 0x22 <;>
    simp [Marks.valueStart, Marks.afterStart, next, member, mask, quote,
      Marks.because] at masked ⊢

/-- The rest of a member's value, when its keys are not checked. -/
theorem showBody_member
    (body : Bytes) {m : Marks} (calm : Calm m) (level : m.optionsDepth = 0)
    («at» : Nat) (value : Json) :
    ∃ m', Still m m' ∧ showBody (observe body) 1 «at» value m =
      some (m'.valueDone 1 («at» + value.render.length)) := by
  have closes : ∀ {m' : Marks} (stop : Nat), m'.optionsDepth = 0 →
      showClose (observe body) 1 stop m' = some (m'.valueDone 1 stop) := by
    intro m' stop level
    simp [showClose, observe, Marks.closed, level]
  cases value with
  | full kind items =>
      obtain ⟨m', shown, still⟩ := showItems_still body (Nat.le_refl 2)
        («at» + 1) items calm (by omega)
      refine ⟨m', still, ?_⟩
      have level' : m'.optionsDepth = 0 := by
        obtain ⟨_, _, rfl⟩ := still
        exact level
      rw [showBody, shown, Option.bind_some, closes _ level']
  | empty kind inside =>
      exact ⟨m, Still.refl m, by rw [showBody, closes _ level]⟩
  | lit l => exact ⟨m, Still.refl m, rfl⟩
  | number n => exact ⟨m, Still.refl m, rfl⟩
  | string chars => exact ⟨m, Still.refl m, rfl⟩

/-- An object-valued `stream_options`, behind its brace. -/
theorem showBody_options
    {body : Bytes} {m : Marks} {ps : List Placed} (inside : InOptions m ps)
    (admitted : TableOk body ps) («at» : Nat) (value : Json)
    (isObject : value.isObject = true)
    (named : Named body (Placed.inside «at» value)) :
    (¬ TableOk body (ps ++ Placed.inside «at» value) →
      showBody (observe body) 1 «at» value m = none) ∧
    (TableOk body (ps ++ Placed.inside «at» value) →
      ∃ m', InOptions m' (ps ++ Placed.inside «at» value) ∧ OptionsOnly m m' ∧
        showBody (observe body) 1 «at» value m =
          some (Marks.valueDone { m' with optionsDepth := 0 } 1
            («at» + value.render.length))) := by
  have closes : ∀ {m' : Marks} (stop : Nat), m'.optionsDepth = 2 →
      showClose (observe body) 1 stop m' =
        some (Marks.valueDone { m' with optionsDepth := 0 } 1 stop) := by
    intro m' stop level
    simp [showClose, observe, Marks.closed, level]
  obtain ⟨ws, rfl⟩ | ⟨items, rfl⟩ := Json.isObject_cases isObject
  · simp only [Placed.inside, List.append_nil, admitted, not_true_eq_false,
      false_implies, true_and, forall_const]
    exact ⟨m, inside, ⟨_, _, _, _, rfl⟩, by rw [showBody, closes _ inside.level]⟩
  · obtain ⟨refuses, takes⟩ :=
      showItems_options items («at» + 1) («at» + 1) inside admitted named
    rw [showBody]
    refine ⟨fun not => by rw [refuses not, Option.bind_none], fun ok => ?_⟩
    obtain ⟨m', shown, inside', only⟩ := takes ok
    exact ⟨m', inside', only, by rw [shown, Option.bind_some, closes _ inside'.level]⟩

/-- The state behind a member's value. -/
theorem valueDone_top (m : Marks) (stop : Nat) :
    m.valueDone 1 stop =
      { m with
        modelOpen := false
        modelEnd := if m.modelOpen then stop else m.modelEnd
        memberOpen := false
        found := if m.memberOpen then
          m.found ++ [⟨m.memberAt, m.memberValue, stop, m.memberBit⟩] else m.found
        hold := if m.modelOpen || m.memberOpen then sizeMax else m.hold } := by
  cases m with
  | mk top options hold str modelAt modelEnd openAt memberAt memberValue found
      members membersSeen memberBit hasMember memberNext memberOpen optionsDepth
      tracked optionsNext allKeys trackModel modelNext modelOpen modelSeen why =>
      cases modelOpen <;> cases memberOpen <;> simp [Marks.valueDone]

/-- What a key of the root must be for the scan to go on. -/
structure KeyAdmitted (body : Bytes) (cfg : Config) (ps : List Placed)
    (q : Placed) : Prop where
  plain : 0x5c ∉ q.name
  model : q.name = ascii "model" → ∀ p ∈ ps, p.name ≠ ascii "model"
  table : cfg.allKeys = true → TableOk body (ps ++ [q])
  once : cfg.bit q ≠ 0 → ∀ p ∈ ps, p.name ≠ q.name

section Member

variable {body : Bytes} {cfg : Config} {openAt : Nat} {ps : List Placed}
  {m : Marks}

/-- The state at the closing quote of a key of the root. -/
def Marks.atKey (m : Marks) (hold nameAt : Nat) : Marks :=
  { m with tracked := true, hold := hold, str := nameAt }

/-- A key of the root. -/
theorem showHead_top
    (state : Top cfg openAt ps m) (admitted : Admits body cfg ps)
    (sep «at» : Nat) (key : Key) (pre : Ws) (value : Json)
    (named : Named body [Placed.of sep «at» key pre value]) :
    (¬ KeyAdmitted body cfg ps (Placed.of sep «at» key pre value) →
      @showHead _ (observe body) 1 «at» m .object key = none) ∧
    (KeyAdmitted body cfg ps (Placed.of sep «at» key pre value) →
      @showHead _ (observe body) 1 «at» m .object key =
        some ((m.atKey (min m.hold («at» + key.pre.bytes.length))
          («at» + key.pre.bytes.length + 1)).afterKey key.name.bytes)) := by
  have head := showHead_checked 1 (m := m) (Or.inl rfl) «at» key
    (named _ (List.mem_singleton_self _))
  rw [checkKey_top] at head
  generalize after : Marks.afterKey _ key.name.bytes = next at head
  dsimp only at head
  rw [state.members, state.seen, state.allKeys, state.top, state.modelSeen] at head
  have meets := seen_meets cfg ps (Placed.of sep «at» key pre value)
  have bit : cfg.bit (Placed.of sep «at» key pre value) =
      memberBit key.name.bytes &&& cfg.members := rfl
  rw [bit] at meets
  by_cases escaped : 0x5c ∈ key.name.bytes
  · rw [if_pos escaped] at head
    exact ⟨fun _ => head, fun ok => absurd escaped ok.plain⟩
  rw [if_neg escaped] at head
  by_cases ok : KeyAdmitted body cfg ps (Placed.of sep «at» key pre value)
  · refine ⟨fun not => absurd ok not, fun _ => ?_⟩
    rw [head, if_neg]
    · rw [← after]
      rfl
    rintro (⟨masked, seen⟩ | ⟨isModel, seen⟩ | ⟨every, refused⟩)
    · obtain ⟨p, member, same⟩ := (meets masked).mp seen
      exact ok.once masked p member same
    · rw [List.any_eq_true] at seen
      obtain ⟨p, member, same⟩ := seen
      exact ok.model isModel p member (by simpa using same)
    · obtain ⟨-, -, room, fresh⟩ := (tableOk_concat ..).mp (ok.table every)
      rw [if_pos every, List.length_map] at refused
      rcases refused with full | repeated
      · exact room full
      · rw [show key.name.bytes = (Placed.of sep «at» key pre value).name from rfl,
          fresh] at repeated
        exact Bool.noConfusion repeated
  · refine ⟨fun _ => ?_, fun isOk => absurd isOk ok⟩
    rw [head, if_pos]
    by_contra allowed
    rw [not_or, not_or] at allowed
    obtain ⟨once, model, table⟩ := allowed
    refine ok ⟨escaped, ?_, ?_, ?_⟩
    · intro isModel p member same
      refine model ⟨isModel, ?_⟩
      rw [List.any_eq_true]
      exact ⟨p, member, by simpa using same⟩
    · intro every
      rw [tableOk_concat]
      rw [if_pos every, List.length_map] at table
      refine ⟨admitted.table every, escaped, fun full => table ⟨every, Or.inl full⟩,
        ?_⟩
      rw [← Bool.not_eq_true]
      exact fun repeated => table ⟨every, Or.inr repeated⟩
    · intro masked p member same
      exact once ⟨masked, (meets masked).mpr ⟨p, member, same⟩⟩

variable (body) in
/-- The first byte of a member's value. -/
theorem start_top
    (next : m.memberNext = true → m.members ≠ 0) (level : m.optionsDepth = 0)
    («at» : Nat) (value : Json) :
    observe body (.start 1 «at» value.firstByte) m =
      if m.memberNext = true ∧ value.isString = false then none
      else some { m.afterStart «at» with
        optionsDepth := if m.optionsNext && value.isObject then 2 else 0 } := by
  have started := valueStart_top m «at» value.firstByte next
  have quote := value.firstByte_eq_quote
  have brace := value.firstByte_eq_brace
  simp only [observe]
  cases begun : m.valueStart 1 «at» value.firstByte with
  | mk ok m' =>
      rw [begun] at started
      cases ok with
      | false =>
          dsimp only at started ⊢
          by_cases refused : m.memberNext = true ∧ value.firstByte ≠ 0x22
          · rw [if_pos ⟨refused.1, by simpa [quote] using refused.2⟩]
          · rw [if_neg refused] at started
            simp at started
      | true =>
          dsimp only at started ⊢
          by_cases refused : m.memberNext = true ∧ value.firstByte ≠ 0x22
          · rw [if_pos refused] at started
            simp at started
          · rw [if_neg refused, Option.some.injEq] at started
            subst started
            have allowed : ¬ (m.memberNext = true ∧ value.isString = false) := by
              simpa [quote] using refused
            rw [if_neg allowed]
            have same : m.afterStart «at» =
                { m.afterStart «at» with optionsDepth := 0 } := by
              rw [← level]
              rfl
            by_cases isObject : value.isObject = true
            · have first := brace.mpr isObject
              cases options : m.optionsNext with
              | false => simpa [first, isObject, Marks.opened] using same
              | true => simp [first, isObject, Marks.opened]
            · have notBrace : value.firstByte ≠ 0x7b := by simpa [brace] using isObject
              simp only [isObject, notBrace, false_or, decide_false, Marks.opened]
              rw [Bool.not_eq_true] at isObject
              simpa [isObject] using same

/-- The place of the model goes to the member that closes. -/
theorem modelSpan_concat (cfg : Config) (ps : List Placed) (q : Placed)
    (first : q.name = ascii "model" → ∀ p ∈ ps, p.name ≠ ascii "model") :
    cfg.modelSpan (ps ++ [q]) =
      if cfg.trackModel = true ∧ q.name = ascii "model" then (q.valueAt, q.stop)
      else cfg.modelSpan ps := by
  by_cases isModel : cfg.trackModel = true ∧ q.name = ascii "model"
  · have none : (ps.find? fun p =>
        cfg.trackModel && decide (p.name = ascii "model")) = none := by
      rw [List.find?_eq_none]
      intro p member
      simp [first isModel.2 p member]
    rw [if_pos isModel, Config.modelSpan, List.find?_append, none]
    simp [isModel]
  · have skipped : ([q].find? fun p =>
        cfg.trackModel && decide (p.name = ascii "model")) = none := by
      simpa using isModel
    rw [if_neg isModel, Config.modelSpan, List.find?_append, skipped, Option.or_none,
      Config.modelSpan]

/-- A member of the root went by. -/
theorem Top.next
    (state : Top cfg openAt ps m) {q : Placed} (ok : KeyAdmitted body cfg ps q)
    {hold nameAt : Nat} (separated : cfg.bit q ≠ 0 → hold = q.sep)
    (name : nameAt = q.nameAt) {options : List Span} (held str : Nat) (tracked : Bool)
    (stored : options = if cfg.allKeys then
      ((ps ++ [q]).flatMap Placed.optionKeys).map Placed.span else []) :
    Top cfg openAt (ps ++ [q])
      (Marks.valueDone
        { ((m.atKey hold nameAt).afterKey q.name).afterStart q.valueAt with
          options := options, hold := held, str := str, tracked := tracked
          optionsDepth := 0 } 1 q.stop) := by
  have span := modelSpan_concat cfg ps q ok.model
  have bit : memberBit q.name &&& m.members = cfg.bit q := by
    rw [state.members]
    rfl
  obtain ⟨modelNext, memberNext, -⟩ := state.calm
  rw [valueDone_top]
  simp only [Marks.afterStart, Marks.afterKey, Marks.atKey, bit, modelNext,
    memberNext, state.modelOpen, state.memberOpen, Bool.false_or]
  refine ⟨⟨rfl, rfl, rfl⟩, rfl, rfl, rfl, state.allKeys, state.trackModel,
    state.members, state.openAt, ?_, stored, ?_, ?_, ?_, ?_, ?_, ?_⟩
  · simp only [state.allKeys, state.top]
    split
    · simp [Placed.span, name]
    · rfl
  · rw [state.modelSeen]
    simp
  · rw [span, state.modelAt, state.trackModel]
    by_cases isModel : q.name = ascii "model" <;> cases cfg.trackModel <;>
      simp [isModel]
  · rw [span, state.modelEnd, state.trackModel]
    by_cases isModel : q.name = ascii "model" <;> cases cfg.trackModel <;>
      simp [isModel]
  · rw [state.seen]
    simp [Config.seen]
  · rw [state.hasMember, state.members]
    have more : (ps ++ [q]).isEmpty = false := by simp
    rw [more]
    cases decide (cfg.members ≠ 0) <;> simp
  · rw [state.found]
    by_cases masked : cfg.bit q = 0
    · simp [Config.found, masked]
    · simp [Config.found, masked, Config.told, separated masked]

/-- A member's value behind its first byte, the state at the key being that of
`Top.next`. -/
theorem showBody_top
    (state : Top cfg openAt ps m) (admitted : Admits body cfg ps) {q : Placed}
    (ok : KeyAdmitted body cfg ps q) {hold nameAt : Nat}
    (separated : cfg.bit q ≠ 0 → hold = q.sep) (name : nameAt = q.nameAt)
    (named : Named body q.optionKeys) :
    let keyed := (m.atKey hold nameAt).afterKey q.name
    let started := { keyed.afterStart q.valueAt with
      optionsDepth := if keyed.optionsNext && q.value.isObject then 2 else 0 }
    let options := ps.flatMap Placed.optionKeys ++ q.optionKeys
    (cfg.allKeys = true ∧ ¬ TableOk body options →
      showBody (observe body) 1 q.valueAt q.value started = none) ∧
    ((cfg.allKeys = true → TableOk body options) →
      ∃ m', showBody (observe body) 1 q.valueAt q.value started = some m' ∧
        Top cfg openAt (ps ++ [q]) m') := by
  intro keyed started options
  have next : keyed.optionsNext =
      (cfg.allKeys && decide (q.name = ascii "stream_options")) := by
    simp only [keyed, Marks.afterKey, Marks.atKey, state.allKeys,
      state.calm.options]
    cases cfg.allKeys <;> simp
  by_cases inside : keyed.optionsNext = true ∧ q.value.isObject = true
  · obtain ⟨isNext, isObject⟩ := inside
    have every : cfg.allKeys = true := by
      rw [next, Bool.and_eq_true] at isNext
      exact isNext.1
    have isOptions : q.name = ascii "stream_options" := by
      rw [next, Bool.and_eq_true] at isNext
      exact of_decide_eq_true isNext.2
    have keys : q.optionKeys = Placed.inside q.valueAt q.value := by
      rw [Placed.optionKeys, if_pos isOptions]
    have entered : InOptions started (ps.flatMap Placed.optionKeys) := by
      refine ⟨⟨rfl, rfl, rfl⟩, by simp [started, isNext, isObject], ?_, ?_⟩
      · exact state.allKeys.trans every
      · have options := state.options
        rw [if_pos every] at options
        exact options
    obtain ⟨refuses, takes⟩ := showBody_options entered (admitted.options every)
      q.valueAt q.value isObject (keys ▸ named)
    rw [← keys] at refuses takes
    refine ⟨fun ⟨_, not⟩ => refuses not, fun all => ?_⟩
    obtain ⟨m', inOptions, ⟨_, held, str, tracked, rfl⟩, shown⟩ := takes (all every)
    refine ⟨_, shown, ?_⟩
    refine state.next ok separated name held str tracked ?_
    rw [if_pos every, List.flatMap_append, List.flatMap_singleton]
    exact inOptions.stored
  · have outside : (keyed.optionsNext && q.value.isObject) = false := by
      simpa using inside
    have none : cfg.allKeys = true → q.optionKeys = [] := by
      intro every
      rw [Placed.optionKeys]
      split
      · next isOptions =>
          have notObject : q.value.isObject = false := by
            simpa [next, every, isOptions] using inside
          exact inside_of_not_object q.valueAt notObject
      · rfl
    have level : started.optionsDepth = 0 := by simp [started, outside]
    obtain ⟨m', ⟨str, tracked, rfl⟩, shown⟩ := showBody_member body
      (m := started) ⟨rfl, rfl, rfl⟩ level q.valueAt q.value
    refine ⟨?_, fun _ => ?_⟩
    · rintro ⟨every, not⟩
      exact absurd (by simpa [options, none every] using admitted.options every) not
    · refine ⟨_, shown, ?_⟩
      have reset : started = { keyed.afterStart q.valueAt with optionsDepth := 0 } := by
        simp [started, outside]
      rw [reset]
      refine state.next ok separated name _ str tracked ?_
      have options := state.options
      cases every : cfg.allKeys with
      | false =>
          rw [every] at options
          exact options
      | true =>
          rw [every] at options
          rw [List.flatMap_append, List.flatMap_singleton, none every,
            List.append_nil]
          exact options

/-- A member of the root, from its key through its value. -/
theorem showMember_top
    (state : Top cfg openAt ps m) (admitted : Admits body cfg ps)
    {sep «at» : Nat} (held : cfg.members ≠ 0 → m.hold = sep) (before : sep ≤ «at»)
    (key : Key) (pre : Ws) (value : Json)
    (named : Named body [Placed.of sep «at» key pre value])
    (inside : Named body (Placed.of sep «at» key pre value).optionKeys) :
    let q := Placed.of sep «at» key pre value
    let shown := (@showHead _ (observe body) 1 «at» m .object key).bind
      fun m => (observe body (.start 1 q.valueAt value.firstByte) m).bind
        fun m => showBody (observe body) 1 q.valueAt value m
    (¬ AdmitsNext body cfg ps q → shown = none) ∧
    (AdmitsNext body cfg ps q →
      ∃ m', shown = some m' ∧ Top cfg openAt (ps ++ [q]) m') := by
  intro q shown
  obtain ⟨refuses, takes⟩ := showHead_top state admitted sep «at» key pre value named
  have separated : cfg.bit q ≠ 0 →
      min m.hold («at» + key.pre.bytes.length) = q.sep := by
    intro masked
    have mask : cfg.members ≠ 0 := by
      intro zero
      simp [Config.bit, zero] at masked
    rw [held mask]
    exact Nat.min_eq_left (by omega)
  by_cases keyOk : KeyAdmitted body cfg ps q
  · have bit : memberBit key.name.bytes &&& m.members = cfg.bit q := by
      rw [state.members]
      rfl
    have next : ((m.atKey (min m.hold («at» + key.pre.bytes.length))
        («at» + key.pre.bytes.length + 1)).afterKey key.name.bytes).memberNext =
        decide (cfg.bit q ≠ 0) := by
      simp only [Marks.afterKey, Marks.atKey, bit, state.calm.member,
        Bool.false_or]
    have started := start_top body
      (m := (m.atKey (min m.hold («at» + key.pre.bytes.length))
        («at» + key.pre.bytes.length + 1)).afterKey key.name.bytes)
      (fun isNext => by
        rw [next] at isNext
        intro zero
        have zero' : cfg.members = 0 := state.members.symm.trans zero
        simp [Config.bit, zero'] at isNext)
      state.level q.valueAt value
    have body' := showBody_top state admitted keyOk separated rfl inside
    simp only [shown, takes keyOk, Option.bind_some, started]
    by_cases refused : cfg.bit q ≠ 0 ∧ value.isString = false
    · rw [if_pos (by rw [next]; simpa using refused)]
      refine ⟨fun _ => rfl, fun ok => ?_⟩
      have isString : value.isString = true := ok.strings refused.1
      simp [isString] at refused
    · rw [if_neg (by rw [next]; simpa using refused), Option.bind_some]
      refine ⟨fun not => body'.1 ?_, fun ok => body'.2 ok.options⟩
      by_contra allowed
      refine not ⟨keyOk.plain, keyOk.model, keyOk.table, ?_, keyOk.once, ?_⟩
      · intro every
        by_contra table
        exact allowed ⟨every, table⟩
      · intro masked
        by_contra notString
        rw [Bool.not_eq_true] at notString
        exact refused ⟨masked, notString⟩
  · have none : shown = none := by simp only [shown, refuses keyOk, Option.bind_none]
    exact ⟨fun _ => none,
      fun ok => absurd ⟨ok.plain, ok.model, ok.table, ok.once⟩ keyOk⟩

/-- A comma of the root holds the member behind it. -/
theorem Top.comma (state : Top cfg openAt ps m) («at» : Nat) :
    Top cfg openAt ps (m.comma 1 «at») ∧
      (cfg.members ≠ 0 → (m.comma 1 «at»).hold = «at») := by
  rw [← state.members, Marks.comma]
  split
  · refine ⟨⟨⟨state.calm.model, state.calm.member, state.calm.options⟩,
      state.modelOpen, state.memberOpen, state.level, state.allKeys, state.trackModel,
      state.members, state.openAt, state.top, state.options, state.modelSeen,
      state.modelAt, state.modelEnd, state.seen, state.hasMember, state.found⟩,
      fun _ => rfl⟩
  · next unmasked => exact ⟨state, fun mask => absurd ⟨mask, rfl⟩ unmasked⟩

/-- Items behind a first member. -/
theorem showItems_cons
    (sep «at» : Nat) (key : Head .object) (pre : Ws) (value : Json) (post : Ws)
    (rest : Items .object) :
    let q := Placed.of sep «at» key pre value
    showItems (observe body) 1 «at» (.cons key pre value post rest) m =
      ((showHead (observe body) 1 «at» m key).bind
        fun m => (observe body (.start 1 q.valueAt value.firstByte) m).bind
          fun m => showBody (observe body) 1 q.valueAt value m).bind
      fun m => showItems (observe body) 1 (q.stop + post.bytes.length + 1) rest
        (m.comma 1 (q.stop + post.bytes.length)) := by
  intro q
  rw [showItems]
  simp only [Option.bind_assoc]
  rfl

end Member

/-- The body holds the checked keys below the members too. -/
def NamedBelow (body : Bytes) (ps : List Placed) : Prop :=
  ∀ p ∈ ps, Named body p.optionKeys

/-- The members of the root are remembered, unless one is refused. -/
theorem showItems_top
    {body : Bytes} {cfg : Config} {openAt : Nat} :
    ∀ (items : Items .object) (sep «at» : Nat) {m : Marks} {ps : List Placed},
      Top cfg openAt ps m → Admits body cfg ps →
      (cfg.members ≠ 0 → m.hold = sep) → sep ≤ «at» →
      Named body (placed sep «at» items) → NamedBelow body (placed sep «at» items) →
      (¬ Admits body cfg (ps ++ placed sep «at» items) →
        showItems (observe body) 1 «at» items m = none) ∧
      (Admits body cfg (ps ++ placed sep «at» items) →
        ∃ m', showItems (observe body) 1 «at» items m = some m' ∧
          Top cfg openAt (ps ++ placed sep «at» items) m')
  | .last key pre value post, sep, «at», m, ps, state, admitted, held, before,
      named, below => by
      rw [placed] at named below ⊢
      rw [admits_concat, showItems]
      obtain ⟨refuses, takes⟩ := showMember_top state admitted held before key pre
        value named (below _ (List.mem_singleton_self _))
      exact ⟨fun not => refuses fun next => not ⟨admitted, next⟩,
        fun ok => takes ok.2⟩
  | .cons key pre value post rest, sep, «at», m, ps, state, admitted, held, before,
      named, below => by
      rw [placed] at named below ⊢
      rw [List.append_cons]
      obtain ⟨refuses, takes⟩ := showMember_top state admitted held before key pre
        value named.head (below _ List.mem_cons_self)
      by_cases ok : AdmitsNext body cfg ps (Placed.of sep «at» key pre value)
      · obtain ⟨m₁, shown, state₁⟩ := takes ok
        have front := (admits_concat ..).mpr ⟨admitted, ok⟩
        obtain ⟨state₂, held₂⟩ := state₁.comma
          ((Placed.of sep «at» key pre value).stop + post.bytes.length)
        have rest' := showItems_top rest
          ((Placed.of sep «at» key pre value).stop + post.bytes.length)
          ((Placed.of sep «at» key pre value).stop + post.bytes.length + 1)
          state₂ front held₂ (Nat.le_succ _) named.tail
          (fun p member => below p (List.mem_cons_of_mem _ member))
        rw [showItems_cons sep, shown, Option.bind_some]
        exact rest'
      · rw [showItems_cons sep, refuses ok, Option.bind_none]
        exact ⟨fun _ => rfl, fun all =>
          absurd ((admits_concat ..).mp all.of_append).2 ok⟩

end BodyScan
end Llmbridge
