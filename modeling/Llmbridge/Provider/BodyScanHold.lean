import Llmbridge.Provider.BodyScanCorrect
import Llmbridge.Rfc8259.Phases

/-!
# What the scan holds back

The hold mark of the scan guards three kinds of span at once: a key that is not
closed, the tracked model's value and a masked member with the separator before
it.  The invariant `Holding` ties the mark to the span that is still open, and
`Onward` says what a state tells of the states after it: what may be forwarded
only grows, and a span told later starts behind it.
-/

namespace Llmbridge
namespace BodyScan

open Rfc8259

/-- What may be forwarded when the scan is at `i`. -/
def Marks.safe (m : Marks) (i : Nat) : Nat :=
  min m.hold i

/-- A key of the root closed and its value is due. -/
def AtValue (phase : Phase) (depth : Nat) : Prop :=
  depth = 1 ∧ (phase = .colon ∨ phase = .value)

/-- The invariant of the marks, the scan being at `i` inside `depth`
containers. -/
structure Holding (phase : Phase) (depth i : Nat) (m : Marks) : Prop where
  /-- The members that were told ended inside what may be forwarded. -/
  found : ∀ x ∈ m.found, x.end ≤ m.safe i
  /-- So did the model. -/
  model : m.modelEnd ≠ sizeMax → m.modelEnd ≤ m.safe i
  closed : m.modelEnd ≠ sizeMax → m.modelSeen = true
  pending : m.modelNext = true ∨ m.modelOpen = true →
    m.modelSeen = true ∧ m.modelEnd = sizeMax
  modelNext : m.modelNext = true → AtValue phase depth ∧ m.memberNext = false ∧
    m.optionsNext = false
  /-- While the model is open the scan is held at it. -/
  modelOpen : m.modelOpen = true → m.hold = m.modelAt ∧ m.optionsDepth = 0 ∧
    m.memberOpen = false ∧ m.memberNext = false ∧ m.optionsNext = false ∧
    (2 ≤ depth ∨ depth = 1 ∧ phase = .inScalar)
  /-- From a masked key through its value the scan is held at the separator. -/
  memberNext : m.memberNext = true → AtValue phase depth ∧ m.hold = m.memberAt ∧
    m.members ≠ 0
  memberOpen : m.memberOpen = true → depth = 1 ∧ phase = .inScalar ∧
    m.hold = m.memberAt
  optionsNext : m.optionsNext = true → AtValue phase depth
  level : m.optionsDepth ≠ 0 → m.optionsDepth = 2 ∧ 2 ≤ depth
  tracked : phase = .inKey → m.tracked = decide
    (depth = 1 ∨ (m.optionsDepth ≠ 0 ∧ depth = m.optionsDepth))
  masked : m.openAt ≠ sizeMax → m.members ≠ 0
  /-- Until a key of the root closed the scan is held at the root's brace. -/
  waiting : m.openAt ≠ sizeMax → m.hasMember = false →
    (depth = 0 ∧ phase = .next) ∨
      (depth = 1 ∧ (phase = .first .object ∨ phase = .inKey) ∧ m.hold = m.openAt)
  root : depth = 0 → phase = .value → m.openAt = sizeMax
  inside : depth = 0 → phase = .value ∨ phase = .next ∨ phase = .inScalar
  passed : m.hold ≠ sizeMax → m.hold ≤ i
  /-- Only an open span holds anything back. -/
  held : m.hold ≠ sizeMax → (phase = .inKey ∧ m.tracked = true) ∨
    m.modelOpen = true ∨ m.memberNext = true ∨ m.memberOpen = true ∨
    (depth = 1 ∧ (phase = .first .object ∨ phase = .key) ∧ m.members ≠ 0)

/-- What a state at `i` tells of a state at `j` after it. -/
structure Onward (i : Nat) (m : Marks) (j : Nat) (m' : Marks) : Prop where
  safe : m.safe i ≤ m'.safe j
  found : ∃ more, m'.found = m.found ++ more ∧ ∀ x ∈ more, m.safe i ≤ x.at
  modelKept : m.modelEnd ≠ sizeMax →
    m'.modelAt = m.modelAt ∧ m'.modelEnd = m.modelEnd
  modelLater : m.modelEnd = sizeMax → m'.modelEnd ≠ sizeMax →
    m.safe i ≤ m'.modelAt
  openKept : m.openAt ≠ sizeMax → m'.openAt = m.openAt
  openLater : m.openAt = sizeMax → m'.openAt ≠ sizeMax → m.safe i ≤ m'.openAt
  hasMember : m.openAt ≠ sizeMax → m.openAt < m.safe i →
    m'.hasMember = m.hasMember

theorem Onward.refl (i : Nat) (m : Marks) : Onward i m i m where
  safe := Nat.le_refl _
  found := ⟨[], by simp⟩
  modelKept _ := ⟨rfl, rfl⟩
  modelLater none some := absurd none some
  openKept _ := rfl
  openLater none some := absurd none some
  hasMember _ _ := rfl

theorem Onward.trans
    {i j k : Nat} {m m' m'' : Marks} (first : Onward i m j m')
    (second : Onward j m' k m'') : Onward i m k m'' where
  safe := Nat.le_trans first.safe second.safe
  found := by
    obtain ⟨more, told, behind⟩ := first.found
    obtain ⟨more', told', behind'⟩ := second.found
    refine ⟨more ++ more', by rw [told', told, List.append_assoc], ?_⟩
    intro x member
    rcases List.mem_append.mp member with member | member
    · exact behind x member
    · exact Nat.le_trans first.safe (behind' x member)
  modelKept closed := by
    obtain ⟨at', end'⟩ := first.modelKept closed
    obtain ⟨at'', end''⟩ := second.modelKept (end' ▸ closed)
    exact ⟨at''.trans at', end''.trans end'⟩
  modelLater none some := by
    by_cases between : m'.modelEnd = sizeMax
    · exact Nat.le_trans first.safe (second.modelLater between some)
    · rw [(second.modelKept between).1]
      exact first.modelLater none between
  openKept some := by
    have kept := first.openKept some
    exact (second.openKept (kept ▸ some)).trans kept
  openLater none some := by
    by_cases between : m'.openAt = sizeMax
    · exact Nat.le_trans first.safe (second.openLater between some)
    · rw [second.openKept between]
      exact first.openLater none between
  hasMember some before := by
    rw [← first.hasMember some before]
    have kept := first.openKept some
    refine second.hasMember (kept ▸ some) ?_
    rw [kept]
    exact Nat.lt_of_lt_of_le before first.safe

section Turns

variable {phase : Phase} {depth i : Nat} {m m' : Marks}

theorem Holding.mono
    {j : Nat} (holding : Holding phase depth i m) (le : i ≤ j) :
    Holding phase depth j m := by
  have grows : m.safe i ≤ m.safe j := by
    simp only [Marks.safe]
    omega
  exact { holding with
    found := fun x member => Nat.le_trans (holding.found x member) grows
    model := fun closed => Nat.le_trans (holding.model closed) grows
    passed := fun some => Nat.le_trans (holding.passed some) le }

/-- Marks that are the same but for the place of the last key. -/
theorem Onward.stay (i : Nat) (m : Marks) : Onward i m (i + 1) m where
  safe := by
    simp only [Marks.safe]
    omega
  found := ⟨[], by simp⟩
  modelKept _ := ⟨rfl, rfl⟩
  modelLater none some := absurd none some
  openKept _ := rfl
  openLater none some := absurd none some
  hasMember _ _ := rfl

/-- A value starts: what the marks become. -/
theorem valueStart_eq
    {c : Byte} (masked : m.memberNext = true → m.members ≠ 0)
    (started : m.valueStart depth i c = (true, m')) :
    m' = m.afterStart i ∧ (m.members ≠ 0 → depth = 0 → c = 0x7b) ∧
      (m.memberNext = true → c = 0x22) := by
  cases next : m.modelNext <;> cases member : m.memberNext <;>
    by_cases mask : m.members = 0 <;> by_cases quote : c = 0x22 <;>
    by_cases brace : depth = 0 ∧ c ≠ 0x7b <;>
    simp_all [Marks.valueStart, Marks.afterStart, Marks.because]

/-- A scalar starts. -/
theorem Holding.scalar
    (holding : Holding phase depth i m)
    (before : phase = .value ∨ phase = .first .array) :
    Holding .inScalar depth (i + 1) (m.afterStart i) ∧
      Onward i m (i + 1) (m.afterStart i) := by
  obtain ⟨found, model, closed, pending, modelNext, modelOpen, memberNext, memberOpen,
    optionsNext, level, tracked, masked, waiting, root, inside, passed, held⟩ := holding
  constructor
  · constructor <;> grind -ring -linarith [Marks.afterStart, Marks.safe, AtValue]
  · refine ⟨?_, ⟨[], by simp [Marks.afterStart]⟩, ?_, ?_, ?_, ?_, ?_⟩ <;>
      grind -ring -linarith [Marks.afterStart, Marks.safe, AtValue]

theorem opened_eq (m : Marks) (depth stop : Nat) (isObject options : Bool) :
    m.opened depth stop isObject options =
      { m with
        openAt := if m.members ≠ 0 ∧ depth = 1 then stop else m.openAt
        hold := if m.members ≠ 0 ∧ depth = 1 then stop else m.hold
        optionsDepth := if isObject ∧ options ∧ depth = 2 then 2
          else m.optionsDepth } := by
  simp only [Marks.opened]
  split <;> split <;> rfl

/-- A container opens. -/
theorem Holding.opens
    (holding : Holding phase depth i m) (kind : Kind)
    (before : phase = .value ∨ phase = .first .array)
    (object : m.members ≠ 0 → depth = 0 → kind = .object)
    (notString : m.memberNext = false) :
    let m' := (m.afterStart i).opened (depth + 1) (i + 1) (kind.opens = 0x7b)
      m.optionsNext
    Holding (.first kind) (depth + 1) (i + 1) m' ∧ Onward i m (i + 1) m' := by
  intro m'
  have equal : m' = _ := opened_eq ..
  rw [equal]
  obtain ⟨found, model, closed, pending, modelNext, modelOpen, memberNext, memberOpen,
    optionsNext, level, tracked, masked, waiting, root, inside, passed, held⟩ := holding
  constructor
  · constructor <;>
      grind -ring -linarith [Marks.afterStart, Marks.safe, AtValue, Kind.opens]
  · refine ⟨?_, ⟨[], ?_⟩, ?_, ?_, ?_, ?_, ?_⟩ <;>
      grind -ring -linarith [Marks.afterStart, Marks.safe, AtValue]

/-- A key opens. -/
theorem Holding.keyStart
    (holding : Holding phase depth i m)
    (before : phase = .first .object ∨ phase = .key) :
    Holding .inKey depth (i + 1) (m.keyStart depth i) ∧
      Onward i m (i + 1) (m.keyStart depth i) := by
  obtain ⟨found, model, closed, pending, modelNext, modelOpen, memberNext, memberOpen,
    optionsNext, level, tracked, masked, waiting, root, inside, passed, held⟩ := holding
  constructor
  · constructor <;> grind -ring -linarith [Marks.keyStart, Marks.safe, AtValue]
  · refine ⟨?_, ⟨[], ?_⟩, ?_, ?_, ?_, ?_, ?_⟩ <;>
      grind -ring -linarith [Marks.keyStart, Marks.safe, AtValue]

/-- A key below the root closes: what the marks become. -/
theorem keyDone_below
    {body : Bytes} (deep : depth ≠ 1) (tracked : m.tracked = true)
    (done : m.keyDone body depth i = (true, m')) :
    ∃ options, m' =
      { m with hold := sizeMax, options := options, tracked := true } := by
  simp only [Marks.keyDone, Marks.keyHold, Marks.keyModel, Marks.keyTable,
    Marks.because, tracked, deep, false_and, if_false, Bool.true_eq_false] at done
  repeat' split at done
  all_goals first
    | exact ⟨_, (congrArg Prod.snd done).symm⟩
    | exact absurd (congrArg Prod.fst done) (by simp)

/-- A key of the root closes: what the marks become. -/
theorem keyDone_root
    {body : Bytes} (tracked : m.tracked = true)
    (done : m.keyDone body 1 i = (true, m')) :
    ∃ k, m' = m.afterKey k ∧ (k = ascii "model" →
      m.modelSeen = false ∧ memberBit k = 0 ∧ k ≠ ascii "stream_options") := by
  rw [Marks.keyDone, if_neg (by simp [tracked])] at done
  dsimp only at done
  split at done
  · exact absurd (congrArg Prod.fst done) (by simp [Marks.because])
  · have checked : checkKey body 1 (substr body m.str (i - m.str)) m = some m' := by
      rw [checkKey]
      cases held : m.keyHold 1 (substr body m.str (i - m.str)) with
      | mk ok kept =>
          rw [held] at done
          cases ok with
          | false => exact absurd (congrArg Prod.fst done) (by simp)
          | true =>
              dsimp only at done ⊢
              cases modelled : kept.keyModel 1 (substr body m.str (i - m.str)) with
              | mk ok named =>
                  rw [modelled] at done
                  cases ok with
                  | false => exact absurd (congrArg Prod.fst done) (by simp)
                  | true =>
                      dsimp only at done ⊢
                      rw [done]
    rw [checkKey_top] at checked
    split at checked
    · simp at checked
    · next allowed =>
        rw [Option.some.injEq] at checked
        refine ⟨_, checked.symm, fun isModel => ⟨?_, ?_, ?_⟩⟩
        · simpa [isModel] using (not_or.mp (not_or.mp allowed).2).1
        · rw [isModel]
          rfl
        · rw [isModel]
          decide

/-- A key closes. -/
theorem Holding.keyEnd
    {body : Bytes} (small : i < sizeMax) (holding : Holding .inKey depth i m)
    (done : m.keyDone body depth i = (true, m')) :
    Holding .colon depth (i + 1) m' ∧ Onward i m (i + 1) m' := by
  cases isTracked : m.tracked with
  | false =>
      have same : m' = m := by
        rw [Marks.keyDone, if_pos isTracked] at done
        exact (congrArg Prod.snd done).symm
      subst same
      refine ⟨?_, Onward.stay i m'⟩
      obtain ⟨found, model, closed, pending, modelNext, modelOpen, memberNext,
        memberOpen, optionsNext, level, tracked, masked, waiting, root, inside, passed,
        held⟩ := holding
      constructor <;> grind -ring -linarith [Marks.safe, AtValue]
  | true =>
      by_cases isRoot : depth = 1
      · subst isRoot
        obtain ⟨k, rfl, fresh⟩ := keyDone_root isTracked done
        obtain ⟨found, model, closed, pending, modelNext, modelOpen, memberNext,
          memberOpen, optionsNext, level, tracked, masked, waiting, root, inside, passed,
          held⟩ := holding
        constructor
        · constructor <;>
            grind -ring -linarith [Marks.afterKey, Marks.safe, AtValue, UInt8.zero_and,
              UInt8.and_zero]
        · refine ⟨?_, ⟨[], ?_⟩, ?_, ?_, ?_, ?_, ?_⟩ <;>
            grind -ring -linarith [Marks.afterKey, Marks.safe, AtValue]
      · obtain ⟨options, rfl⟩ := keyDone_below isRoot isTracked done
        obtain ⟨found, model, closed, pending, modelNext, modelOpen, memberNext,
          memberOpen, optionsNext, level, tracked, masked, waiting, root, inside, passed,
          held⟩ := holding
        constructor
        · constructor <;> grind -ring -linarith [Marks.safe, AtValue]
        · refine ⟨?_, ⟨[], ?_⟩, ?_, ?_, ?_, ?_, ?_⟩ <;>
            grind -ring -linarith [Marks.safe, AtValue]

/-- A colon. -/
theorem Holding.colon
    (holding : Holding .colon depth i m) : Holding .value depth (i + 1) m := by
  obtain ⟨found, model, closed, pending, modelNext, modelOpen, memberNext, memberOpen,
    optionsNext, level, tracked, masked, waiting, root, inside, passed, held⟩ := holding
  constructor <;> grind -ring -linarith [Marks.safe, AtValue]

/-- A comma between elements. -/
theorem Holding.element
    (holding : Holding .next depth i m) (nested : depth ≠ 0) :
    Holding .value depth (i + 1) m := by
  obtain ⟨found, model, closed, pending, modelNext, modelOpen, memberNext, memberOpen,
    optionsNext, level, tracked, masked, waiting, root, inside, passed, held⟩ := holding
  constructor <;> grind -ring -linarith [Marks.safe, AtValue]

/-- A comma between members. -/
theorem Holding.comma
    (small : i < sizeMax) (holding : Holding .next depth i m) (nested : depth ≠ 0) :
    Holding .key depth (i + 1) (m.comma depth i) ∧
      Onward i m (i + 1) (m.comma depth i) := by
  obtain ⟨found, model, closed, pending, modelNext, modelOpen, memberNext, memberOpen,
    optionsNext, level, tracked, masked, waiting, root, inside, passed, held⟩ := holding
  constructor
  · constructor <;> grind -ring -linarith [Marks.comma, Marks.safe, AtValue]
  · refine ⟨?_, ⟨[], ?_⟩, ?_, ?_, ?_, ?_, ?_⟩ <;>
      grind -ring -linarith [Marks.comma, Marks.safe, AtValue]

/-- A value ends: what the marks become inside the root, and at the root. -/
theorem valueDone_eq (m : Marks) (depth stop : Nat) :
    m.valueDone depth stop =
      if depth = 1 then m.valueDone 1 stop
      else if depth = 0 ∧ m.members ≠ 0 then { m with hold := sizeMax }
      else m := by
  by_cases top : depth = 1
  · rw [if_pos top, top]
  · simp [Marks.valueDone, top]

/-- A value ends at `stop`, the scan being at `i` with it. -/
theorem Holding.finish
    {stop j : Nat} (small : j ≤ sizeMax) (holding : Holding .inScalar depth i m)
    (place : i ≤ stop ∧ stop ≤ j) :
    Holding .next depth j (m.valueDone depth stop) ∧
      Onward i m j (m.valueDone depth stop) := by
  obtain ⟨found, model, closed, pending, modelNext, modelOpen, memberNext, memberOpen,
    optionsNext, level, tracked, masked, waiting, root, inside, passed, held⟩ := holding
  rw [valueDone_eq m depth stop]
  by_cases top : depth = 1
  · rw [if_pos top, valueDone_top]
    constructor
    · constructor <;> grind -ring -linarith [Marks.safe, AtValue]
    · refine ⟨?_, ?_, ?_, ?_, ?_, ?_, ?_⟩
      rotate_left
      · cases isOpen : m.memberOpen
        · exact ⟨[], by simp⟩
        · refine ⟨_, rfl, ?_⟩
          grind -ring -linarith [Marks.safe, AtValue]
      all_goals grind -ring -linarith [Marks.safe, AtValue]
  · rw [if_neg top]
    split
    · constructor
      · constructor <;> grind -ring -linarith [Marks.safe, AtValue]
      · refine ⟨?_, ⟨[], ?_⟩, ?_, ?_, ?_, ?_, ?_⟩ <;>
          grind -ring -linarith [Marks.safe, AtValue]
    · constructor
      · constructor <;> grind -ring -linarith [Marks.safe, AtValue]
      · refine ⟨?_, ⟨[], ?_⟩, ?_, ?_, ?_, ?_, ?_⟩ <;>
          grind -ring -linarith [Marks.safe, AtValue]

/-- A container closes: its value ends behind the bracket. -/
theorem Holding.close
    (small : i < sizeMax) (holding : Holding phase (depth + 1) i m) (kind : Kind)
    (before : phase = .first kind ∨ phase = .next) :
    Holding .next depth (i + 1) ((m.closed depth).valueDone depth (i + 1)) ∧
      Onward i m (i + 1) ((m.closed depth).valueDone depth (i + 1)) := by
  have equal : m.closed depth = { m with
      optionsDepth := if depth < m.optionsDepth then 0 else m.optionsDepth } := by
    simp only [Marks.closed]
    split <;> rfl
  obtain ⟨found, model, closed, pending, modelNext, modelOpen, memberNext, memberOpen,
    optionsNext, level, tracked, masked, waiting, root, inside, passed, held⟩ := holding
  rw [valueDone_eq _ depth (i + 1), equal]
  by_cases top : depth = 1
  · rw [if_pos top, valueDone_top]
    constructor
    · constructor <;> grind -ring -linarith [Marks.safe, AtValue]
    · refine ⟨?_, ⟨[], ?_⟩, ?_, ?_, ?_, ?_, ?_⟩ <;>
        grind -ring -linarith [Marks.safe, AtValue]
  · rw [if_neg top]
    by_cases masks : depth = 0 ∧ m.members ≠ 0
    · rw [if_pos (by exact masks)]
      constructor
      · constructor <;> grind -ring -linarith [Marks.safe, AtValue]
      · refine ⟨?_, ⟨[], ?_⟩, ?_, ?_, ?_, ?_, ?_⟩ <;>
          grind -ring -linarith [Marks.safe, AtValue]
    · rw [if_neg (by exact masks)]
      constructor
      · constructor <;> grind -ring -linarith [Marks.safe, AtValue]
      · refine ⟨?_, ⟨[], ?_⟩, ?_, ?_, ?_, ?_, ?_⟩ <;>
          grind -ring -linarith [Marks.safe, AtValue]

end Turns

/-! ## Runs -/

section Runs

variable {body : Bytes} {phase phase' : Phase} {stack stack' : List Kind} {i : Nat}
  {m m' : Marks}

/-- Whatever turn a byte does, the marks stay tied to the open span. -/
theorem Holding.turn
    (small : i < sizeMax) (holding : Holding phase stack.length i m)
    (turn : Turn (observe body) i phase stack m phase' stack' m') :
    Holding phase' stack'.length (i + 1) m' ∧ Onward i m (i + 1) m' := by
  cases turn with
  | stay => exact ⟨holding.mono (Nat.le_succ i), Onward.stay i m⟩
  | @scalar _ _ _ _ c before notBrace notBracket told =>
      simp only [observe, notBrace, notBracket, or_self, if_false] at told
      split at told
      · simp at told
      · next started =>
          rw [Option.some.injEq] at told
          subst told
          rw [(valueStart_eq (fun next => (holding.memberNext next).2.2) started).1]
          exact holding.scalar before
  | opens kind before told =>
      have bracket : kind.opens = 0x7b ∨ kind.opens = 0x5b := by cases kind <;> decide
      simp only [observe, bracket, if_true] at told
      split at told
      · simp at told
      · next started =>
          rw [Option.some.injEq] at told
          subst told
          obtain ⟨equal, object, string⟩ :=
            valueStart_eq (fun next => (holding.memberNext next).2.2) started
          rw [equal]
          refine holding.opens kind before (fun mask root => ?_) ?_
          · have brace := object mask root
            cases kind with
            | object => rfl
            | array => exact absurd brace (by decide)
          · rw [← Bool.not_eq_true]
            intro next
            have quote := string next
            cases kind <;> exact absurd quote (by decide)
  | keyStart before told =>
      rw [observe, Option.some.injEq] at told
      exact told ▸ holding.keyStart before
  | keyEnd told =>
      simp only [observe] at told
      split at told
      · simp at told
      · next done =>
          rw [Option.some.injEq] at told
          exact holding.keyEnd small (told ▸ done)
  | colon => exact ⟨holding.colon, Onward.stay i m⟩
  | element => exact ⟨holding.element (by simp), Onward.stay i m⟩
  | comma told =>
      rw [observe, Option.some.injEq] at told
      exact told ▸ holding.comma small (by simp)
  | @close _ kind _ _ _ _ before closed told =>
      simp only [observe, Option.some.injEq] at closed told
      subst closed told
      exact holding.close small kind before
  | finish told =>
      rw [observe, Option.some.injEq] at told
      exact told ▸ holding.finish (by omega) ⟨by omega, Nat.le_refl _⟩

/-- A state of the scan at `i` whose marks are tied to the open span. -/
structure Held (machine : Machine) (i : Nat) (s : Scan) : Prop where
  matched : Matches machine s.syn
  nested : machine.Nested
  holding : Holding machine.place.phase machine.stack.length i s.marks

/-- One byte. -/
theorem Held.step
    {machine : Machine} {s s' : Scan} (held : Held machine i s) (small : i < sizeMax)
    {c : Byte} (stepped : byteStep body s i c = (true, s')) :
    ∃ machine', Held machine' (i + 1) s' ∧ Onward i s.marks (i + 1) s'.marks := by
  have simulated := byteStep_simulates body held.matched i c
  rw [stepped] at simulated
  cases next : Rfc8259.stepByte Json.kMaxDepth (observe body) machine i c s.marks with
  | none =>
      rw [next] at simulated
      exact Bool.noConfusion simulated
  | some found =>
      obtain ⟨machine', marks⟩ := found
      rw [next] at simulated
      obtain ⟨-, marked, matched⟩ := simulated
      dsimp only at marked matched
      subst marked
      obtain ⟨nested, turn | ⟨scalar, between, ended, turn⟩⟩ :=
        stepByte_turn held.nested next
      · obtain ⟨holding, onward⟩ := held.holding.turn small turn
        exact ⟨machine', ⟨matched, nested, holding⟩, onward⟩
      · -- The byte behind a number: the number ends before it is looked at.
        have holding := held.holding
        rw [scalar] at holding
        rw [observe, Option.some.injEq] at ended
        subst ended
        obtain ⟨holding₁, onward₁⟩ := holding.finish (Nat.le_of_lt small)
          ⟨Nat.le_refl i, Nat.le_refl i⟩
        obtain ⟨holding₂, onward₂⟩ := holding₁.turn small turn
        exact ⟨machine', ⟨matched, nested, holding₂⟩, onward₁.trans onward₂⟩

/-- A run of bytes. -/
theorem Held.run
    {machine : Machine} {s s' : Scan} (held : Held machine i s) (rest : Bytes)
    (small : i + rest.length ≤ sizeMax)
    (ran : BodyScan.run body s i rest = (true, s')) :
    ∃ machine', Held machine' (i + rest.length) s' ∧
      Onward i s.marks (i + rest.length) s'.marks := by
  induction rest generalizing machine s i with
  | nil =>
      rw [BodyScan.run, Prod.mk.injEq] at ran
      obtain ⟨-, rfl⟩ := ran
      exact ⟨machine, held, Onward.refl i s.marks⟩
  | cons c rest inductionHypothesis =>
      rw [List.length_cons] at small
      rw [run_cons] at ran
      cases stepped : byteStep body s i c with
      | mk ok s₁ =>
          rw [stepped] at ran
          cases ok with
          | false => exact absurd (congrArg Prod.fst ran) (by simp)
          | true =>
              obtain ⟨machine₁, held₁, onward₁⟩ := held.step (by omega) stepped
              obtain ⟨machine', held', onward'⟩ :=
                inductionHypothesis held₁ (by omega) ran
              rw [List.length_cons, Nat.add_comm rest.length, ← Nat.add_assoc]
              exact ⟨machine', held', onward₁.trans onward'⟩

/-- The start is held. -/
theorem Config.start_held (cfg : Config) : Held ⟨.value, []⟩ 0 cfg.start.toScan := by
  refine ⟨reset_matches .., fun kind first => by simp at first, ?_⟩
  constructor <;> simp [Config.start, reset, Place.phase]

/-- At the end of a body nothing is held back. -/
theorem Held.ended
    {machine : Machine} {s : Scan} (held : Held machine i s)
    (ended : (endsNumber s).syn.st = .end) : s.marks.hold = sizeMax := by
  obtain ⟨⟨stack, st, -⟩, -, holding⟩ := held
  have root : machine.stack = [] ∧
      (machine.place.phase = .next ∨ machine.place.phase = .inScalar) := by
    obtain ⟨place, kinds⟩ := machine
    dsimp only at st stack ⊢
    have depth := stack.depth
    rw [endsNumber, st] at ended
    cases kinds with
    | nil =>
        cases place with
        | first kind => cases kind <;> simp [stOf, st] at ended
        | _ => simp_all [stOf, Place.phase]
    | cons kind outer =>
        rw [if_neg (by rw [depth]; simp)] at ended
        rw [st] at ended
        cases place with
        | first inner => cases inner <;> simp [stOf] at ended
        | next => cases kind <;> simp [stOf] at ended
        | _ => simp [stOf] at ended
  obtain ⟨empty, phase⟩ := root
  rw [empty] at holding
  by_contra some
  have last := holding.held some
  have modelOpen := holding.modelOpen
  have memberNext := holding.memberNext
  have memberOpen := holding.memberOpen
  simp only [List.length_nil, AtValue] at last modelOpen memberNext memberOpen
  grind

end Runs

/-! ## Prefixes of an accepted body -/

/-- The scan of the body's first `n` bytes, not refused. -/
structure At (body : Bytes) (cfg : Config) (n : Nat) (s : BodyScan) : Prop where
  more : s.verdict = .more
  pos : s.pos = n
  inside : n ≤ body.length
  ran : BodyScan.run body cfg.start.toScan 0 (body.take n) = (true, s.toScan)

/-- The marks a scan of the whole body ends with. -/
def lastMarks (body : Bytes) (cfg : Config) : Marks :=
  (outcome body cfg.start.toScan).2.marks

section Prefixes

variable {body : Bytes} {cfg : Config} {n : Nat} {s : BodyScan}

theorem Config.start_bounded (cfg : Config) : Bounded cfg.start.marks 0 :=
  reset_bounded ..

theorem At.start (body : Bytes) (cfg : Config) : At body cfg 0 cfg.start :=
  ⟨rfl, rfl, Nat.zero_le _, rfl⟩

/-- An accepted body is not refused on any prefix. -/
theorem run_of_done
    (done : (outcome body cfg.start.toScan).1 = .done) :
    ∃ scan, BodyScan.run body cfg.start.toScan 0 body = (true, scan) ∧
      (endsNumber scan).syn.st = .end ∧
      (outcome body cfg.start.toScan).2 = endsNumber scan := by
  rw [outcome] at done ⊢
  cases ran : BodyScan.run body cfg.start.toScan 0 body with
  | mk ok scan =>
      rw [ran] at done
      cases ok with
      | false => exact Verdict.noConfusion done
      | true =>
          dsimp only at done ⊢
          by_cases ended : (endsNumber scan).syn.st = .end
          · exact ⟨scan, rfl, ended, by rw [if_pos ended]⟩
          · rw [if_neg ended] at done
            exact Verdict.noConfusion done

/-- A feed of a longer prefix of an accepted body. -/
theorem At.feed
    (here : At body cfg n s) (done : (outcome body cfg.start.toScan).1 = .done)
    {k : Nat} (le : n ≤ k) (inside : k ≤ body.length) :
    At body cfg k (s.feed (body.take k) false) := by
  obtain ⟨more, rfl, -, ran⟩ := here
  have agrees := feedLoop_of_reached cfg.start_bounded le inside ran
  obtain ⟨last, whole, -⟩ := run_of_done done
  rw [BodyScan.feed, if_neg (by simp [more])]
  cases looped : feedLoop (body.take k) (2 * (body.take k).length) s.toScan s.pos with
  | mk ok result =>
      obtain ⟨scan, i⟩ := result
      rw [looped] at agrees
      obtain ⟨flag, scanned, stop⟩ := agrees
      dsimp only at flag scanned stop
      have ran' : BodyScan.run body cfg.start.toScan 0 (body.take k) = (ok, scan) :=
        Prod.ext flag.symm scanned.symm
      cases ok with
      | false =>
          have refused := run_refused_of_prefix ran'
          rw [whole] at refused
          exact absurd (congrArg Prod.fst refused) (by simp)
      | true => exact ⟨more, stop (by rw [ran']), inside, ran'⟩

/-- The last feed of an accepted body has seen all of it. -/
theorem At.last
    (here : At body cfg n s) (done : (outcome body cfg.start.toScan).1 = .done) :
    (s.feed body true).pos = body.length ∧
      (s.feed body true).marks = lastMarks body cfg := by
  obtain ⟨more, rfl, inside, ran⟩ := here
  have same := (feed_last cfg.start_bounded (Or.inl ⟨more, inside, ran⟩)).2
  refine ⟨?_, congrArg Scan.marks same⟩
  have agrees := feedLoop_of_reached cfg.start_bounded inside (Nat.le_refl _) ran
  obtain ⟨last, whole, -⟩ := run_of_done done
  rw [List.take_length, whole] at agrees
  rw [BodyScan.feed, if_neg (by simp [more])]
  cases looped : feedLoop body (2 * body.length) s.toScan s.pos with
  | mk ok result =>
      obtain ⟨scan, i⟩ := result
      rw [looped] at agrees
      obtain ⟨flag, -, stop⟩ := agrees
      dsimp only at flag stop
      subst flag
      dsimp only [BodyScan.finish]
      rw [if_pos rfl]
      split <;> exact stop rfl

/-- The marks of a prefix are tied to its open span. -/
theorem At.held
    (here : At body cfg n s) (small : body.length ≤ sizeMax) :
    ∃ machine, Held machine n s.toScan := by
  obtain ⟨-, -, inside, ran⟩ := here
  have size : (body.take n).length = n := by
    rw [List.length_take]
    omega
  obtain ⟨machine, held, -⟩ := cfg.start_held.run (body.take n)
    (by rw [size]; omega) ran
  rw [size, Nat.zero_add] at held
  exact ⟨machine, held⟩

/-- What a prefix tells of a longer one. -/
theorem At.onward
    (here : At body cfg n s) (small : body.length ≤ sizeMax) {k : Nat} (le : n ≤ k)
    (inside : k ≤ body.length) {scan : Scan}
    (ran : BodyScan.run body cfg.start.toScan 0 (body.take k) = (true, scan)) :
    Onward n s.marks k scan.marks := by
  obtain ⟨machine, held⟩ := here.held small
  have rest := run_take_of_le le here.inside here.ran
  rw [ran] at rest
  have size : ((body.take k).drop n).length = k - n := by
    rw [List.length_drop, List.length_take]
    omega
  obtain ⟨-, -, onward⟩ := held.run _ (by rw [size]; omega) rest.symm
  rwa [size, Nat.add_sub_cancel' le] at onward

/-- What a prefix of an accepted body tells of the whole. -/
theorem At.onward_last
    (here : At body cfg n s) (done : (outcome body cfg.start.toScan).1 = .done)
    (small : body.length ≤ sizeMax) :
    Onward n s.marks body.length (lastMarks body cfg) := by
  obtain ⟨last, whole, -, same⟩ := run_of_done done
  have marks : lastMarks body cfg = last.marks := by
    rw [lastMarks, same, endsNumber]
    split <;> rfl
  rw [marks]
  exact here.onward small here.inside (Nat.le_refl _) (by rwa [List.take_length])

/-- At the end of an accepted body nothing is held back. -/
theorem lastMarks_hold
    (done : (outcome body cfg.start.toScan).1 = .done) (small : body.length ≤ sizeMax) :
    (lastMarks body cfg).hold = sizeMax := by
  obtain ⟨last, whole, ended, same⟩ := run_of_done done
  obtain ⟨machine, held, -⟩ := cfg.start_held.run body (by omega) whole
  have marks : lastMarks body cfg = last.marks := by
    rw [lastMarks, same, endsNumber]
    split <;> rfl
  rw [marks]
  exact held.ended ended

theorem At.safe (here : At body cfg n s) : s.safe = s.marks.safe n := by
  rw [BodyScan.safe, here.pos, Marks.safe]
  split <;> omega

end Prefixes

end BodyScan
end Llmbridge
