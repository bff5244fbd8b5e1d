import Llmbridge.Net.ParseResponse
import Llmbridge.Provider.Venues

/-!
# Gemini targets sent on

`gemini_forward_target` writes a client's target for a venue.  The model stands between
the last `/models/` of the path and its last colon, and what the function writes ahead
of it ends in `/models/` too, so the output names its model at the same place and the
function finds it again.
-/

namespace Llmbridge
namespace Provider

open Rfc8259 (Byte Bytes ascii)
open Http1 (find)

/-! ## The last occurrence -/

/-- Nowhere in the text. -/
theorem rfind_eq_none_iff {needle hay : Bytes} (some_byte : needle ≠ []) :
    rfind needle hay = none ↔ ∀ m, ¬ needle <+: hay.drop m := by
  induction hay with
  | nil => simp [rfind, some_byte]
  | cons c hay inductionHypothesis =>
      unfold rfind
      cases found : rfind needle hay with
      | some n =>
          have later : ¬ ∀ m, ¬ needle <+: hay.drop m := by
            rw [← inductionHypothesis, found]
            simp
          simp only [reduceCtorEq, false_iff]
          intro all
          exact later fun m => all (m + 1)
      | none =>
          have later := inductionHypothesis.mp found
          dsimp only
          constructor
          · intro missing m
            cases m with
            | zero =>
                intro starts
                rw [List.drop_zero] at starts
                rw [if_pos (List.isPrefixOf_iff_prefix.mpr starts)] at missing
                exact absurd missing (by simp)
            | succ m => exact later m
          · intro all
            exact if_neg fun starts => all 0 (List.isPrefixOf_iff_prefix.mp starts)

/-- At this place, and at no later one. -/
theorem rfind_eq_some_iff {needle hay : Bytes} (some_byte : needle ≠ []) {n : Nat} :
    rfind needle hay = some n ↔
      needle <+: hay.drop n ∧ ∀ m, n < m → ¬ needle <+: hay.drop m := by
  induction hay generalizing n with
  | nil => simp [rfind, some_byte]
  | cons c hay inductionHypothesis =>
      unfold rfind
      cases found : rfind needle hay with
      | some k =>
          obtain ⟨here, later⟩ := inductionHypothesis.mp found
          dsimp only
          rw [Option.some.injEq]
          constructor
          · rintro rfl
            refine ⟨here, fun m above => ?_⟩
            obtain ⟨m, rfl⟩ :=
              Nat.exists_eq_succ_of_ne_zero (Nat.ne_of_gt (Nat.zero_lt_of_lt above))
            exact later m (Nat.lt_of_succ_lt_succ above)
          · rintro ⟨starts, none⟩
            rcases Nat.lt_trichotomy n (k + 1) with below | same | above
            · exact absurd here (none (k + 1) below)
            · exact same.symm
            · obtain ⟨n, rfl⟩ := Nat.exists_eq_succ_of_ne_zero
                (Nat.ne_of_gt (Nat.zero_lt_of_lt above))
              exact absurd starts (later n (Nat.lt_of_succ_lt_succ above))
      | none =>
          have later := (rfind_eq_none_iff some_byte).mp found
          dsimp only
          constructor
          · intro here
            split at here
            · next starts =>
              obtain rfl := Option.some.inj here
              refine ⟨List.isPrefixOf_iff_prefix.mp starts, fun m above => ?_⟩
              obtain ⟨m, rfl⟩ := Nat.exists_eq_succ_of_ne_zero (Nat.ne_of_gt above)
              exact later m
            · exact absurd here (by simp)
          · rintro ⟨starts, -⟩
            cases n with
            | zero => exact if_pos (List.isPrefixOf_iff_prefix.mpr starts)
            | succ n => exact absurd starts (later n)

/-! ## The place of the model -/

/-- `kModels`. -/
def kModels : Bytes := ascii "/models/"

/-- `kPublisher`. -/
def kPublisher : Bytes := ascii "/publishers/google/models/"

/-- Behind `/models/`, no second one begins in it or in the model. -/
def Last (model : Bytes) : Prop :=
  ∀ m, 0 < m → ¬ kModels <+: (kModels ++ model).drop m

/-- A target taken apart around its model. -/
structure NamesModel (target front own rest : Bytes) : Prop where
  shape : target = front ++ kModels ++ (own ++ rest)
  /-- The path ends the model with its last colon. -/
  colon : ∃ method, pathOf target = front ++ kModels ++ (own ++ 0x3a :: method) ∧
    (0x3a : Byte) ∉ method
  last : Last own

theorem geminiPathModel_eq {target front own rest : Bytes}
    (names : NamesModel target front own rest) :
    geminiPathModel target = { «at» := some (front.length + 8), model := own } := by
  obtain ⟨method, path, noColon⟩ := names.colon
  have colonAt : rfind [0x3a] (pathOf target) = some (front ++ kModels ++ own).length := by
    rw [path, ← List.append_assoc]
    apply (rfind_eq_some_iff (by simp)).mpr
    constructor
    · rw [List.drop_left]
      exact ⟨method, rfl⟩
    · intro m above starts
      obtain ⟨d, rfl⟩ := Nat.exists_eq_add_of_lt above
      rw [Nat.add_assoc, ← List.drop_drop, List.drop_left, List.drop_succ_cons] at starts
      obtain ⟨more, shape⟩ := starts
      have member : (0x3a : Byte) ∈ method.drop d := by
        rw [← shape]
        exact List.mem_cons_self
      exact noColon (List.mem_of_mem_drop member)
  have taken : (pathOf target).take (front ++ kModels ++ own).length =
      front ++ (kModels ++ own) := by
    rw [path, ← List.append_assoc, List.take_left, List.append_assoc]
  have modelsAt : rfind (ascii "/models/") (front ++ (kModels ++ own)) = some front.length := by
    apply (rfind_eq_some_iff (by decide)).mpr
    constructor
    · rw [List.drop_left]
      exact List.prefix_append kModels own
    · intro m above
      obtain ⟨d, rfl⟩ := Nat.exists_eq_add_of_lt above
      rw [Nat.add_assoc, ← List.drop_drop, List.drop_left]
      exact names.last (d + 1) (Nat.succ_pos d)
  have ahead : front.length + 8 = (front ++ kModels).length := by
    rw [List.length_append]
    rfl
  have size : (front ++ kModels ++ own).length - (front.length + 8) = own.length := by
    rw [ahead, List.length_append, Nat.add_sub_cancel_left]
  unfold geminiPathModel
  dsimp only
  rw [colonAt]
  dsimp only
  rw [taken, modelsAt]
  dsimp only
  rw [size]
  unfold Rfc8259.substr
  rw [path, ahead, List.drop_left, List.take_left]

/-- A target that names a model, taken apart. -/
theorem namesModel_of_geminiPathModel {target own : Bytes} {n : Nat}
    (found : geminiPathModel target = { «at» := some n, model := own }) :
    ∃ front rest, NamesModel target front own rest ∧ n = front.length + 8 := by
  unfold geminiPathModel at found
  dsimp only at found
  cases colonAt : rfind [0x3a] (pathOf target) with
  | none =>
      rw [colonAt] at found
      exact absurd found (by simp)
  | some colon =>
      rw [colonAt] at found
      dsimp only at found
      cases modelsAt : rfind (ascii "/models/") ((pathOf target).take colon) with
      | none =>
          rw [modelsAt] at found
          exact absurd found (by simp)
      | some m =>
          rw [modelsAt] at found
          dsimp only at found
          rw [PathModel.mk.injEq, Option.some.injEq] at found
          obtain ⟨rfl, ownShape⟩ := found
          obtain ⟨⟨method, colonStarts⟩, noLater⟩ :=
            (rfind_eq_some_iff (by simp)).mp colonAt
          obtain ⟨⟨tail, starts⟩, last⟩ := (rfind_eq_some_iff (by decide)).mp modelsAt
          have path : pathOf target = (pathOf target).take colon ++ 0x3a :: method := by
            rw [← List.singleton_append, colonStarts, List.take_append_drop]
          have before : (pathOf target).take colon =
              ((pathOf target).take colon).take m ++ (kModels ++ tail) := by
            rw [show kModels ++ tail = _ from starts, List.take_append_drop]
          have mBound : m + 8 ≤ ((pathOf target).take colon).length := by
            have size := congrArg List.length starts
            rw [List.length_append, List.length_drop] at size
            have eight : (ascii "/models/").length = 8 := rfl
            omega
          have lengths : (((pathOf target).take colon).take m).length = m := by
            rw [List.length_take]
            omega
          have colonBound : colon ≤ (pathOf target).length := by
            have size := congrArg List.length colonStarts
            rw [List.length_append, List.length_drop, List.length_singleton] at size
            omega
          have cut : ((pathOf target).take colon).length = colon := by
            rw [List.length_take]
            omega
          have ownSame : own = tail := by
            have ahead : m + 8 = (((pathOf target).take colon).take m ++ kModels).length := by
              rw [List.length_append, lengths]
              rfl
            have rest : colon - (m + 8) = tail.length := by
              have size := congrArg List.length before
              rw [cut, List.length_append, lengths, List.length_append] at size
              have eight : kModels.length = 8 := rfl
              omega
            rw [← ownShape, Rfc8259.substr, rest]
            conv_lhs => rw [path, before, ← List.append_assoc, List.append_assoc _ tail]
            rw [ahead, List.drop_left, List.take_left]
          subst ownSame
          have suffix : pathOf target <+: target := List.takeWhile_prefix _
          obtain ⟨query, whole⟩ := suffix
          refine ⟨((pathOf target).take colon).take m, 0x3a :: method ++ query, ⟨?_, ?_, ?_⟩,
            by rw [lengths]⟩
          · conv_lhs => rw [← whole, path, before]
            simp only [List.append_assoc]
          · refine ⟨method, ?_, ?_⟩
            · conv_lhs => rw [path, before]
              simp only [List.append_assoc]
            · intro member
              obtain ⟨d, bound, byte⟩ := List.getElem_of_mem member
              apply noLater (colon + (d + 1)) (by omega)
              rw [← List.drop_drop, ← colonStarts, List.singleton_append, List.drop_succ_cons,
                List.drop_eq_getElem_cons bound, byte]
              exact ⟨_, rfl⟩
          · intro d positive again
            apply last (m + d) (by omega)
            rw [← List.drop_drop, ← starts]
            exact again

/-- A target is taken apart around its model in one way. -/
theorem NamesModel.unique {target front own rest front' own' rest' : Bytes}
    (names : NamesModel target front own rest) (names' : NamesModel target front' own' rest') :
    front = front' ∧ own = own' ∧ rest = rest' := by
  have same := (geminiPathModel_eq names).symm.trans (geminiPathModel_eq names')
  rw [PathModel.mk.injEq, Option.some.injEq] at same
  obtain ⟨place, rfl⟩ := same
  have shapes := names.shape.symm.trans names'.shape
  obtain ⟨ahead, behind⟩ := List.append_inj shapes (by
    rw [List.length_append, List.length_append]
    omega)
  exact ⟨List.append_cancel_right ahead, rfl, List.append_cancel_left behind⟩

/-! ## The path -/

/-- Bytes without a question mark belong to the path. -/
theorem pathOf_append {front : Bytes} (path : (0x3f : Byte) ∉ front) (rest : Bytes) :
    pathOf (front ++ rest) = front ++ pathOf rest := by
  unfold pathOf
  apply List.takeWhile_append_of_pos
  intro c member
  rw [bne_iff_ne]
  rintro rfl
  exact path member

/-- No byte of a path is a question mark. -/
theorem not_mem_pathOf (target : Bytes) : (0x3f : Byte) ∉ pathOf target := by
  intro member
  have kept := List.mem_takeWhile_imp member
  exact absurd kept (by decide)

theorem NamesModel.path {target front own rest : Bytes}
    (names : NamesModel target front own rest) :
    (0x3f : Byte) ∉ front ++ kModels ∧ (0x3f : Byte) ∉ own ∧
      ∃ method, pathOf rest = 0x3a :: method ∧ (0x3a : Byte) ∉ method := by
  obtain ⟨method, path, noColon⟩ := names.colon
  have inside : ∀ c ∈ front ++ kModels ++ own, c ∈ pathOf target := by
    intro c member
    rw [path, ← List.append_assoc]
    exact List.mem_append_left _ member
  have noMark : (0x3f : Byte) ∉ front ++ kModels ++ own :=
    fun member => not_mem_pathOf target (inside _ member)
  refine ⟨fun member => noMark (List.mem_append_left _ member),
    fun member => noMark (List.mem_append_right _ member), method, ?_, noColon⟩
  have shape := path
  rw [names.shape, ← List.append_assoc, pathOf_append noMark, ← List.append_assoc] at shape
  exact List.append_cancel_left shape

/-- A model without a slash. -/
theorem last_of_noSlash {model : Bytes} (noSlash : (0x2f : Byte) ∉ model) : Last model := by
  intro m positive starts
  obtain ⟨tail, shape⟩ := starts
  have slash : ∀ i, (i = 0 ∨ i = 7) → (kModels ++ model)[m + i]? = some 0x2f := by
    intro i ends
    have byte : (kModels ++ tail)[i]? = some 0x2f := by
      rcases ends with rfl | rfl <;> rfl
    rwa [shape, List.getElem?_drop] at byte
  have inModel : ∀ i, 8 ≤ i → (kModels ++ model)[i]? ≠ some 0x2f := by
    intro i beyond byte
    rw [List.getElem?_append_right (show kModels.length ≤ i from beyond)] at byte
    exact noSlash (List.mem_of_getElem? byte)
  have small : m < 8 := by
    by_contra beyond
    exact inModel (m + 0) (by omega) (slash 0 (Or.inl rfl))
  exact inModel (m + 7) (by omega) (slash 7 (Or.inr rfl))

/-- An override has neither a slash nor a question mark. -/
theorem pathModel_bytes {model : Bytes} (ok : pathModelOk model = true) :
    (0x2f : Byte) ∉ model ∧ (0x3f : Byte) ∉ model := by
  rw [pathModelOk, Bool.and_eq_true, List.all_eq_true] at ok
  exact ⟨fun member => absurd (ok.2 _ member) (by decide),
    fun member => absurd (ok.2 _ member) (by decide)⟩

/-- A project holds digits, lower-case letters and hyphens, six at least. -/
theorem vertexProject_chars {project : Bytes} (ok : vertexProjectOk project = true) :
    6 ≤ project.length ∧
      project.all (fun c => isDigit c || isLower c || c == 0x2d) = true := by
  unfold vertexProjectOk at ok
  split at ok
  · exact absurd ok (by decide)
  next sized =>
  dsimp only at ok
  split at ok
  · exact absurd ok (by decide)
  split at ok
  · exact absurd ok (by decide)
  refine ⟨Nat.not_lt.mp (not_or.mp sized).1, List.all_eq_true.mpr fun c member => ?_⟩
  have kept := List.all_eq_true.mp ok c member
  split at kept
  · rw [kept]
    rfl
  · exact kept

theorem vertexProject_bytes {project : Bytes} (ok : vertexProjectOk project = true) :
    (0x3f : Byte) ∉ project := fun member =>
  absurd (List.all_eq_true.mp (vertexProject_chars ok).2 _ member) (by decide)

theorem geminiVertexScoped_iff (target : Bytes) :
    geminiVertexScoped target = true ↔
      ascii "/projects/" <:+: pathOf target ∧ ascii "/locations/" <:+: pathOf target := by
  rw [geminiVertexScoped, Bool.and_eq_true, Http.find_isSome_iff, Http.find_isSome_iff]

/-! ## The output -/

/-- The model that is sent: the override, or the target's own. -/
def sentModel (own model : Bytes) : Bytes :=
  if model = [] then own else model

/-- What stands ahead of it, `head` being that of the target. -/
def sentHead (venue : Venue) (project : Bytes) (inProject : Bool) (head : Bytes) : Bytes :=
  if venue = .vertex ∧ project ≠ [] ∧ inProject = false then
    (if kPublisher.isSuffixOf head then head.take (head.length - kPublisher.length)
      else ascii "/v1") ++
      ascii "/projects/" ++ project ++ ascii "/locations/global" ++ kPublisher
  else if venue = .vertex ∧ kPublisher.isSuffixOf head = false then
    ascii "/v1/publishers/google/models/"
  else if venue = .gemini ∧ kPublisher.isSuffixOf head then ascii "/v1beta/models/"
  else head

theorem geminiForwardTarget_named {target front own rest : Bytes}
    (names : NamesModel target front own rest) (model : Bytes) (venue : Venue)
    {project : Bytes} (projectOk : project = [] ∨ vertexProjectOk project = true) :
    geminiForwardTarget target model venue project =
      some (sentHead venue project (geminiVertexScoped target) (front ++ kModels) ++
        (sentModel own model ++ rest)) := by
  have ok : ¬ (project ≠ [] ∧ vertexProjectOk project = false) := by
    rintro ⟨given, bad⟩
    rcases projectOk with none | good
    · exact given none
    · rw [good] at bad
      exact absurd bad (by decide)
  have ahead : front.length + 8 = (front ++ kModels).length := by
    rw [List.length_append]
    rfl
  have head : target.take (front.length + 8) = front ++ kModels := by
    rw [names.shape, ahead, List.take_left]
  have after : target.drop (front.length + 8 + own.length) = rest := by
    rw [names.shape, ahead, ← List.drop_drop, List.drop_left, List.drop_left]
  unfold geminiForwardTarget
  rw [if_neg ok, geminiPathModel_eq names]
  dsimp only
  rw [head, after, List.append_assoc]
  rfl

/-- What is written ahead of the model ends in `/models/`, in the path. -/
theorem sentHead_ends (venue : Venue) {project : Bytes} (inProject : Bool) {front : Bytes}
    (projectBytes : (0x3f : Byte) ∉ project) (noMark : (0x3f : Byte) ∉ front ++ kModels) :
    ∃ sent, sentHead venue project inProject (front ++ kModels) = sent ++ kModels ∧
      (0x3f : Byte) ∉ sent ++ kModels := by
  unfold sentHead
  split
  · refine ⟨(if kPublisher.isSuffixOf (front ++ kModels) then
        (front ++ kModels).take ((front ++ kModels).length - kPublisher.length)
      else ascii "/v1") ++ ascii "/projects/" ++ project ++ ascii "/locations/global" ++
        ascii "/publishers/google", ?_, ?_⟩
    · rw [List.append_assoc _ (ascii "/publishers/google") kModels]
      rfl
    · have version : (0x3f : Byte) ∉ (if kPublisher.isSuffixOf (front ++ kModels) then
          (front ++ kModels).take ((front ++ kModels).length - kPublisher.length)
          else ascii "/v1") := by
        split
        · exact fun member => noMark (List.mem_of_mem_take member)
        · decide
      simp only [List.mem_append, not_or]
      exact ⟨⟨⟨⟨⟨version, by decide⟩, projectBytes⟩, by decide⟩, by decide⟩, by decide⟩
  · split
    · exact ⟨ascii "/v1/publishers/google", rfl, by decide⟩
    · split
      · exact ⟨ascii "/v1beta", rfl, by decide⟩
      · exact ⟨front, rfl, noMark⟩

/-- The output names the model that is sent, and goes on as the target does. -/
theorem NamesModel.sent {target front own rest sent model : Bytes}
    (names : NamesModel target front own rest)
    (modelOk : model = [] ∨ pathModelOk model = true) (noMark : (0x3f : Byte) ∉ sent ++ kModels) :
    NamesModel (sent ++ kModels ++ (sentModel own model ++ rest)) sent (sentModel own model)
      rest := by
  obtain ⟨-, ownPath, method, restPath, noColon⟩ := names.path
  have modelPath : (0x3f : Byte) ∉ sentModel own model ∧ Last (sentModel own model) := by
    unfold sentModel
    split
    · exact ⟨ownPath, names.last⟩
    · next given =>
      obtain ⟨noSlash, noMark⟩ := pathModel_bytes (modelOk.resolve_left given)
      exact ⟨noMark, last_of_noSlash noSlash⟩
  refine ⟨rfl, ⟨method, ?_, noColon⟩, modelPath.2⟩
  rw [pathOf_append noMark, pathOf_append modelPath.1, restPath]

theorem sentModel_again (own model : Bytes) :
    sentModel (sentModel own model) model = sentModel own model := by
  unfold sentModel
  split
  · rfl
  · rfl

theorem isPublisher_append (front : Bytes) : kPublisher.isSuffixOf (front ++ kPublisher) = true :=
  List.isSuffixOf_iff_suffix.mpr (List.suffix_append front kPublisher)

/-- What `gemini_forward_target` is to do: the target keeps all but its model and the
layout ahead of it, a path in a project keeps that too, a path in none gets the venue's,
and the function is done in one step. -/
structure Readdressed (target model : Bytes) (venue : Venue) (project out : Bytes) : Prop where
  named : ∀ front own rest, NamesModel target front own rest →
    ∃ sent, NamesModel out sent (sentModel own model) rest
  asWritten : venue = .vertex → geminiVertexScoped target = true →
    ∀ front own rest, NamesModel target front own rest →
      out = front ++ kModels ++ (sentModel own model ++ rest)
  placed : venue = .vertex → project ≠ [] → geminiVertexScoped target = false →
    ∀ front own rest, NamesModel target front own rest → ∃ version,
      out = version ++ ascii "/projects/" ++ project ++ ascii "/locations/global" ++ kPublisher ++
        (sentModel own model ++ rest)
  unnamed : (geminiPathModel target).at = none → out = target
  again : geminiForwardTarget out model venue project = some out

/-- A target in a project that goes to Vertex, where what stands ahead of its model is not
Google's publisher path, or where the override takes the last sign of the project. -/
def LosesScope (target model : Bytes) (venue : Venue) (project : Bytes) : Prop :=
  venue = .vertex ∧ geminiVertexScoped target = true ∧
    ∃ front own rest, NamesModel target front own rest ∧
      (kPublisher.isSuffixOf (front ++ kModels) = false ∨
        (project ≠ [] ∧
          geminiVertexScoped (front ++ kModels ++ (sentModel own model ++ rest)) = false))

/-- A target that names no model goes as it is. -/
theorem readdressed_unnamed {target model out : Bytes} {venue : Venue} {project : Bytes}
    (unnamed : (geminiPathModel target).at = none)
    (sent : geminiForwardTarget target model venue project = some out) :
    Readdressed target model venue project out := by
  have same : out = target := by
    have passed := sent
    unfold geminiForwardTarget at passed
    split at passed
    · exact absurd passed (by simp)
    · dsimp only at passed
      rw [unnamed] at passed
      dsimp only at passed
      split at passed
      · exact absurd passed (by simp)
      · exact (Option.some.inj passed).symm
  have none : ∀ front own rest, ¬ NamesModel target front own rest := by
    intro front own rest names
    rw [geminiPathModel_eq names] at unnamed
    exact absurd unnamed (by simp)
  exact ⟨fun _ _ _ names => absurd names (none _ _ _),
    fun _ _ _ _ _ names => absurd names (none _ _ _),
    fun _ _ _ _ _ _ names => absurd names (none _ _ _), fun _ => same, by rwa [same] at sent ⊢⟩

section Named

variable {target front own rest model : Bytes} {venue : Venue} {project : Bytes}

/-- The path is in a project once it was sent to one. -/
theorem scoped_sent {version : Bytes} (noMark : (0x3f : Byte) ∉ version ++ ascii "/projects/" ++
      project ++ ascii "/locations/global" ++ kPublisher) (tail : Bytes) :
    geminiVertexScoped (version ++ ascii "/projects/" ++ project ++ ascii "/locations/global" ++
      kPublisher ++ tail) = true := by
  rw [geminiVertexScoped_iff, pathOf_append noMark]
  constructor
  · refine ⟨version, project ++ ascii "/locations/global" ++ kPublisher ++ pathOf tail, ?_⟩
    simp only [List.append_assoc]
  · refine ⟨version ++ ascii "/projects/" ++ project, ascii "global" ++ kPublisher ++
      pathOf tail, ?_⟩
    rw [show ascii "/locations/global" = ascii "/locations/" ++ ascii "global" from rfl]
    simp only [List.append_assoc]

/-- What stands ahead of the model stays when the output is sent on again. -/
theorem sentHead_again {inProject : Bool} {tail : Bytes}
    (noMark : (0x3f : Byte) ∉ sentHead venue project inProject (front ++ kModels))
    (keeps : venue = .vertex → inProject = true →
      kPublisher.isSuffixOf (front ++ kModels) = true ∧
        (project = [] ∨ geminiVertexScoped (front ++ kModels ++ tail) = true)) :
    sentHead venue project
        (geminiVertexScoped (sentHead venue project inProject (front ++ kModels) ++ tail))
        (sentHead venue project inProject (front ++ kModels)) =
      sentHead venue project inProject (front ++ kModels) := by
  -- A publisher path that is not moved into a project stays on Vertex.
  have stays : ∀ {head : Bytes} {again : Bool}, venue = .vertex →
      kPublisher.isSuffixOf head = true → (project = [] ∨ again = true) →
        sentHead venue project again head = head := by
    intro head again vertex publisher settled
    have here : ¬ (venue = .vertex ∧ project ≠ [] ∧ again = false) := by
      rintro ⟨-, given, unscoped⟩
      rcases settled with none | is
      · exact given none
      · rw [is] at unscoped
        exact absurd unscoped (by decide)
    unfold sentHead
    rw [if_neg here, publisher, if_neg (by simp), if_neg (by simp [vertex])]
  by_cases vertex : venue = .vertex
  · by_cases moved : project ≠ [] ∧ inProject = false
    · have shape : sentHead venue project inProject (front ++ kModels) =
          (if kPublisher.isSuffixOf (front ++ kModels) then
            (front ++ kModels).take ((front ++ kModels).length - kPublisher.length)
          else ascii "/v1") ++
          ascii "/projects/" ++ project ++ ascii "/locations/global" ++ kPublisher :=
        if_pos ⟨vertex, moved⟩
      rw [shape] at noMark ⊢
      apply stays vertex (isPublisher_append _)
      exact Or.inr (scoped_sent noMark tail)
    · have unmoved : ¬ (venue = .vertex ∧ project ≠ [] ∧ inProject = false) :=
        fun h => moved h.2
      cases publisher : kPublisher.isSuffixOf (front ++ kModels) with
      | false =>
          have shape : sentHead venue project inProject (front ++ kModels) =
              ascii "/v1/publishers/google/models/" := by
            unfold sentHead
            rw [if_neg unmoved, if_pos ⟨vertex, publisher⟩]
          have free : project = [] := by
            by_contra given
            have is : inProject = true := by
              rcases Bool.eq_false_or_eq_true inProject with is | no
              · exact is
              · exact absurd ⟨given, no⟩ moved
            rw [(keeps vertex is).1] at publisher
            exact absurd publisher (by decide)
          rw [shape]
          exact stays vertex rfl (Or.inl free)
      | true =>
          have shape : sentHead venue project inProject (front ++ kModels) =
              front ++ kModels := by
            unfold sentHead
            rw [if_neg unmoved, publisher, if_neg (by simp), if_neg (by simp [vertex])]
          rw [shape]
          apply stays vertex publisher
          by_cases free : project = []
          · exact Or.inl free
          · have is : inProject = true := by
              rcases Bool.eq_false_or_eq_true inProject with is | no
              · exact is
              · exact absurd ⟨free, no⟩ moved
            exact (keeps vertex is).2
  · -- Elsewhere only the Gemini API's layout is written.
    have other : ∀ again head, sentHead venue project again head =
        if venue = .gemini ∧ kPublisher.isSuffixOf head then ascii "/v1beta/models/" else head := by
      intro again head
      unfold sentHead
      rw [if_neg (fun h => vertex h.1), if_neg (fun h => vertex h.1)]
    rw [other, other]
    by_cases moved : venue = .gemini ∧ kPublisher.isSuffixOf (front ++ kModels) = true
    · rw [if_pos moved]
      exact if_neg fun h => absurd h.2 (by decide)
    · rw [if_neg moved]
      exact if_neg moved

/-- A target that names a model is sent on as it should be, unless it loses its scope. -/
theorem readdressed_named (names : NamesModel target front own rest)
    (modelOk : model = [] ∨ pathModelOk model = true)
    (projectOk : project = [] ∨ vertexProjectOk project = true)
    (keeps : ¬ LosesScope target model venue project) :
    Readdressed target model venue project
      (sentHead venue project (geminiVertexScoped target) (front ++ kModels) ++
        (sentModel own model ++ rest)) := by
  have projectBytes : (0x3f : Byte) ∉ project := by
    rcases projectOk with rfl | ok
    · simp
    · exact vertexProject_bytes ok
  obtain ⟨sent, ends, noMark⟩ := sentHead_ends venue (geminiVertexScoped target) projectBytes
    names.path.1
  have out := names.sent modelOk noMark
  have kept : venue = .vertex → geminiVertexScoped target = true →
      kPublisher.isSuffixOf (front ++ kModels) = true ∧
        (project = [] ∨ geminiVertexScoped
          (front ++ kModels ++ (sentModel own model ++ rest)) = true) := by
    intro vertex inProject
    constructor
    · by_contra other
      exact keeps ⟨vertex, inProject, front, own, rest, names,
        Or.inl (Bool.not_eq_true _ ▸ other)⟩
    · by_contra other
      obtain ⟨given, lost⟩ := not_or.mp other
      exact keeps ⟨vertex, inProject, front, own, rest, names,
        Or.inr ⟨given, Bool.not_eq_true _ ▸ lost⟩⟩
  constructor
  · intro front' own' rest' names'
    obtain ⟨rfl, rfl, rfl⟩ := names.unique names'
    rw [ends]
    exact ⟨sent, out⟩
  · intro vertex inProject front' own' rest' names'
    obtain ⟨rfl, rfl, rfl⟩ := names.unique names'
    have publisher := (kept vertex inProject).1
    have head : sentHead venue project (geminiVertexScoped target) (front ++ kModels) =
        front ++ kModels := by
      unfold sentHead
      rw [inProject, publisher, if_neg (by simp), if_neg (by simp), if_neg (by simp [vertex])]
    rw [head]
  · intro vertex given noProject front' own' rest' names'
    obtain ⟨rfl, rfl, rfl⟩ := names.unique names'
    refine ⟨if kPublisher.isSuffixOf (front ++ kModels) then
      (front ++ kModels).take ((front ++ kModels).length - kPublisher.length)
      else ascii "/v1", ?_⟩
    rw [sentHead, if_pos ⟨vertex, given, noProject⟩]
  · intro unnamed
    rw [geminiPathModel_eq names] at unnamed
    exact absurd unnamed (by simp)
  · have again := geminiForwardTarget_named out model venue projectOk
    rw [← ends, sentModel_again] at again
    rw [again, sentHead_again (ends ▸ noMark) kept]

/-- A target that loses its scope is not sent on as it should be. -/
theorem not_readdressed (modelOk : model = [] ∨ pathModelOk model = true)
    (projectOk : project = [] ∨ vertexProjectOk project = true) {out : Bytes}
    (sent : geminiForwardTarget target model venue project = some out)
    (loses : LosesScope target model venue project) :
    ¬ Readdressed target model venue project out := by
  obtain ⟨vertex, inProject, front, own, rest, names, how⟩ := loses
  intro right
  have written := right.asWritten vertex inProject front own rest names
  rw [geminiForwardTarget_named names model venue projectOk, Option.some.injEq, written] at sent
  have head := List.append_cancel_right sent
  cases publisher : kPublisher.isSuffixOf (front ++ kModels) with
  | false =>
      -- It goes to the publisher path of no project.
      rw [sentHead, inProject, if_neg (by simp), if_pos ⟨vertex, publisher⟩] at head
      rw [← head] at publisher
      exact absurd publisher (by decide)
  | true =>
      -- It goes as written, and the second time to the venue's own project.
      obtain ⟨given, lost⟩ := how.resolve_left (by rw [publisher]; decide)
      have out := names.sent modelOk names.path.1
      have again := right.again
      rw [written, geminiForwardTarget_named out model venue projectOk, Option.some.injEq,
        sentModel_again] at again
      have same := List.append_cancel_right again
      rw [lost, sentHead, if_pos ⟨vertex, given, rfl⟩, publisher, if_pos rfl] at same
      have sizes := congrArg List.length same
      have fits : kPublisher.length ≤ (front ++ kModels).length :=
        (List.isSuffixOf_iff_suffix.mp publisher).length_le
      have word : (ascii "/projects/").length = 10 := rfl
      simp only [List.length_append, List.length_take] at sizes fits
      omega

end Named

/-- `gemini_forward_target` re-addresses a target as it should exactly when a path in a
project does not lose it. -/
theorem geminiForwardTarget_iff {target model project out : Bytes} {venue : Venue}
    (modelOk : model = [] ∨ pathModelOk model = true)
    (projectOk : project = [] ∨ vertexProjectOk project = true)
    (sent : geminiForwardTarget target model venue project = some out) :
    Readdressed target model venue project out ↔ ¬ LosesScope target model venue project := by
  constructor
  · intro right loses
    exact not_readdressed modelOk projectOk sent loses right
  · intro keeps
    cases place : (geminiPathModel target).at with
    | none => exact readdressed_unnamed place sent
    | some n =>
        have found : geminiPathModel target =
            { «at» := some n, model := (geminiPathModel target).model } := by
          rw [← place]
        obtain ⟨front, rest, names, -⟩ := namesModel_of_geminiPathModel found
        have shape := geminiForwardTarget_named names model venue projectOk
        rw [sent] at shape
        rw [Option.some.inj shape]
        exact readdressed_named names modelOk projectOk keeps

/-- A path in a project, of another publisher. -/
def partnerTarget : Bytes :=
  ascii "/v1/projects/team-a/locations/us-east5/publishers/anthropic/models/m:generateContent"

/-- That path goes to Vertex without its project. -/
theorem partnerTarget_unscoped :
    geminiForwardTarget partnerTarget [] .vertex [] =
        some (ascii "/v1/publishers/google/models/m:generateContent") ∧
      ¬ Readdressed partnerTarget [] .vertex []
        (ascii "/v1/publishers/google/models/m:generateContent") := by
  have names : NamesModel partnerTarget
      (ascii "/v1/projects/team-a/locations/us-east5/publishers/anthropic") (ascii "m")
      (ascii ":generateContent") :=
    ⟨by decide, ⟨ascii "generateContent", by decide, by decide⟩,
      last_of_noSlash (by decide)⟩
  refine ⟨by decide, fun right => ?_⟩
  exact absurd (right.asWritten rfl (by decide) _ _ _ names) (by decide)

/-- The same of a Gemini API path with an override, for Vertex under a project. -/
theorem geminiForwardTarget_iff_override :
    Readdressed (ascii "/v1beta/models/a:generateContent?alt=sse") (ascii "b") .vertex
        (ascii "team-a")
        (ascii ("/v1/projects/team-a/locations/global/publishers/google/models/" ++
          "b:generateContent?alt=sse")) ↔
      ¬ LosesScope (ascii "/v1beta/models/a:generateContent?alt=sse") (ascii "b") .vertex
        (ascii "team-a") :=
  geminiForwardTarget_iff (Or.inr (by decide)) (Or.inr (by decide)) (by decide)

end Provider
end Llmbridge
