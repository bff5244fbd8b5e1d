import Llmbridge.Provider.JsonCount
import Llmbridge.Provider.OpenAi

/-!
# The record of a request

`record_of` of `gateway/src/core/sink.cpp` and `RequestRecord` of
`gateway/include/gateway/sink.hpp`, as far as the venue's usage reaches them: counts
of 64 bits are copied into fields of 32.  The stamps, the identity of the request and
what else the connection holds are left out.
-/

namespace Llmbridge
namespace Gateway

open Rfc8259 (Bytes ascii)
open OpenAi (Usage atLeastZero)
open JsonScan (count)

/-! ## Records -/

/-- `RequestRecord`, the members that a usage fills. -/
structure RequestRecord where
  tokensIn : Int32 := -1
  tokensOut : Int32 := -1
  cachedTokens : Int32 := -1
  cacheWriteTokens : Int32 := -1
  cacheWrite5mTokens : Int32 := -1
  cacheWrite1hTokens : Int32 := -1
  reasoningTokens : Int32 := -1
  audioInTokens : Int32 := -1
  audioOutTokens : Int32 := -1
  acceptedPredictionTokens : Int32 := -1
  rejectedPredictionTokens : Int32 := -1
  toolPromptTokens : Int32 := -1
  imageInTokens : Int32 := -1
  webSearchRequests : Int32 := -1
  webFetchRequests : Int32 := -1
  codeExecRequests : Int32 := -1
  fileSearchCalls : Int32 := -1
  venueCostPdollars : Int := -1
  compactionInTokens : Int32 := -1
  compactionOutTokens : Int32 := -1
  compactionCachedTokens : Int32 := -1
  priorInTokens : Int32 := -1
  priorOutTokens : Int32 := -1
  priorCachedTokens : Int32 := -1
  priorCacheWriteTokens : Int32 := -1
  priorAttempts : Int32 := -1
  priorBilledAttempts : Int32 := -1
  priorUnverifiedAttempts : Int32 := -1
  priorModel : Bytes := []
  servedSpeed : Bytes := []
  servedGeo : Bytes := []
  deriving DecidableEq, Repr

/-- `record_of`: the record of a usage `u` and of the request's `search_queries`. -/
def recordOf (u : Usage) (searchQueries : Int32) : RequestRecord where
  tokensIn := u.input.toInt32
  tokensOut := u.out.toInt32
  cachedTokens := u.cached.toInt32
  cacheWriteTokens := u.cacheWrite.toInt32
  cacheWrite5mTokens := u.cacheWrite5m.toInt32
  cacheWrite1hTokens := u.cacheWrite1h.toInt32
  reasoningTokens := u.reasoning.toInt32
  audioInTokens := u.audioIn.toInt32
  audioOutTokens := u.audioOut.toInt32
  acceptedPredictionTokens := u.acceptedPrediction.toInt32
  rejectedPredictionTokens := u.rejectedPrediction.toInt32
  toolPromptTokens := u.toolPrompt.toInt32
  imageInTokens := u.imageIn.toInt32
  webSearchRequests := if 0 ≤ searchQueries then searchQueries else u.webSearch.toInt32
  webFetchRequests := u.webFetch.toInt32
  codeExecRequests := u.codeExec.toInt32
  fileSearchCalls := u.fileSearch.toInt32
  venueCostPdollars := u.venueCostPdollars
  compactionInTokens := u.compactionIn.toInt32
  compactionOutTokens := u.compactionOut.toInt32
  compactionCachedTokens := u.compactionCached.toInt32
  priorInTokens := u.priorIn.toInt32
  priorOutTokens := u.priorOut.toInt32
  priorCachedTokens := u.priorCached.toInt32
  priorCacheWriteTokens := u.priorCacheWrite.toInt32
  priorAttempts := u.priorAttempts.toInt32
  priorBilledAttempts := if 0 ≤ u.priorAttempts then (atLeastZero u.priorBilled).toInt32 else -1
  priorUnverifiedAttempts :=
    if 0 ≤ u.priorAttempts then
      (atLeastZero u.priorUnverified + u.priorHeld.length).toInt32
    else -1
  priorModel := u.priorModel
  servedSpeed := u.speed
  servedGeo := u.inferenceGeo

/-! ## Count fields -/

/-- The count fields of a record. -/
inductive CountField
  | tokensIn
  | tokensOut
  | cachedTokens
  | cacheWriteTokens
  | cacheWrite5mTokens
  | cacheWrite1hTokens
  | reasoningTokens
  | audioInTokens
  | audioOutTokens
  | acceptedPredictionTokens
  | rejectedPredictionTokens
  | toolPromptTokens
  | imageInTokens
  | webSearchRequests
  | webFetchRequests
  | codeExecRequests
  | fileSearchCalls
  | compactionInTokens
  | compactionOutTokens
  | compactionCachedTokens
  | priorInTokens
  | priorOutTokens
  | priorCachedTokens
  | priorCacheWriteTokens
  | priorAttempts
  | priorBilledAttempts
  | priorUnverifiedAttempts
  deriving DecidableEq, Repr

namespace CountField

/-- The count in a record. -/
def inRecord (r : RequestRecord) : CountField → Int32
  | tokensIn => r.tokensIn
  | tokensOut => r.tokensOut
  | cachedTokens => r.cachedTokens
  | cacheWriteTokens => r.cacheWriteTokens
  | cacheWrite5mTokens => r.cacheWrite5mTokens
  | cacheWrite1hTokens => r.cacheWrite1hTokens
  | reasoningTokens => r.reasoningTokens
  | audioInTokens => r.audioInTokens
  | audioOutTokens => r.audioOutTokens
  | acceptedPredictionTokens => r.acceptedPredictionTokens
  | rejectedPredictionTokens => r.rejectedPredictionTokens
  | toolPromptTokens => r.toolPromptTokens
  | imageInTokens => r.imageInTokens
  | webSearchRequests => r.webSearchRequests
  | webFetchRequests => r.webFetchRequests
  | codeExecRequests => r.codeExecRequests
  | fileSearchCalls => r.fileSearchCalls
  | compactionInTokens => r.compactionInTokens
  | compactionOutTokens => r.compactionOutTokens
  | compactionCachedTokens => r.compactionCachedTokens
  | priorInTokens => r.priorInTokens
  | priorOutTokens => r.priorOutTokens
  | priorCachedTokens => r.priorCachedTokens
  | priorCacheWriteTokens => r.priorCacheWriteTokens
  | priorAttempts => r.priorAttempts
  | priorBilledAttempts => r.priorBilledAttempts
  | priorUnverifiedAttempts => r.priorUnverifiedAttempts

/-- The count of that field in a usage. -/
def inUsage (u : Usage) : CountField → Int
  | tokensIn => u.input
  | tokensOut => u.out
  | cachedTokens => u.cached
  | cacheWriteTokens => u.cacheWrite
  | cacheWrite5mTokens => u.cacheWrite5m
  | cacheWrite1hTokens => u.cacheWrite1h
  | reasoningTokens => u.reasoning
  | audioInTokens => u.audioIn
  | audioOutTokens => u.audioOut
  | acceptedPredictionTokens => u.acceptedPrediction
  | rejectedPredictionTokens => u.rejectedPrediction
  | toolPromptTokens => u.toolPrompt
  | imageInTokens => u.imageIn
  | webSearchRequests => u.webSearch
  | webFetchRequests => u.webFetch
  | codeExecRequests => u.codeExec
  | fileSearchCalls => u.fileSearch
  | compactionInTokens => u.compactionIn
  | compactionOutTokens => u.compactionOut
  | compactionCachedTokens => u.compactionCached
  | priorInTokens => u.priorIn
  | priorOutTokens => u.priorOut
  | priorCachedTokens => u.priorCached
  | priorCacheWriteTokens => u.priorCacheWrite
  | priorAttempts => u.priorAttempts
  | priorBilledAttempts => u.priorBilled
  | priorUnverifiedAttempts => u.priorUnverified

@[simp] theorem inUsage_webSearchRequests (u : Usage) :
    webSearchRequests.inUsage u = u.webSearch := rfl

@[simp] theorem inUsage_priorBilledAttempts (u : Usage) :
    priorBilledAttempts.inUsage u = u.priorBilled := rfl

@[simp] theorem inUsage_priorUnverifiedAttempts (u : Usage) :
    priorUnverifiedAttempts.inUsage u = u.priorUnverified := rfl

/-- The count that a field reports: the usage's, but a reply's grounding queries are its
searches, and where attempts are stated, none billed is zero and an attempt still held is
unverified. -/
def reported (u : Usage) (searchQueries : Int32) (f : CountField) : Int :=
  match f with
  | webSearchRequests => if 0 ≤ searchQueries then searchQueries.toInt else u.webSearch
  | priorBilledAttempts => if 0 ≤ u.priorAttempts then max u.priorBilled 0 else -1
  | priorUnverifiedAttempts =>
      if 0 ≤ u.priorAttempts then max u.priorUnverified 0 + u.priorHeld.length else -1
  | f => f.inUsage u

@[simp] theorem reported_webSearchRequests (u : Usage) (searchQueries : Int32) :
    webSearchRequests.reported u searchQueries =
      if 0 ≤ searchQueries then searchQueries.toInt else u.webSearch := rfl

@[simp] theorem reported_priorBilledAttempts (u : Usage) (searchQueries : Int32) :
    priorBilledAttempts.reported u searchQueries =
      if 0 ≤ u.priorAttempts then max u.priorBilled 0 else -1 := rfl

@[simp] theorem reported_priorUnverifiedAttempts (u : Usage) (searchQueries : Int32) :
    priorUnverifiedAttempts.reported u searchQueries =
      if 0 ≤ u.priorAttempts then max u.priorUnverified 0 + u.priorHeld.length else -1 := rfl

end CountField

/-! ## Narrowing -/

/-- A number that is at least the least of 32 bits is unchanged exactly when it fits. -/
theorem toInt32_iff {v : Int} (least : -2 ^ 31 ≤ v) : v.toInt32.toInt = v ↔ v < 2 ^ 31 := by
  constructor
  · intro same
    have fits := Int32.toInt_lt v.toInt32
    rwa [same] at fits
  · intro fits
    exact Int32.toInt_ofInt_of_le least fits

theorem atLeastZero_eq (v : Int) : atLeastZero v = max v 0 := by
  unfold atLeastZero
  split <;> omega

/-- Each field of a record is what it reports, narrowed. -/
theorem inRecord_recordOf (u : Usage) (searchQueries : Int32) (f : CountField) :
    f.inRecord (recordOf u searchQueries) = (f.reported u searchQueries).toInt32 := by
  cases f with
  | webSearchRequests =>
      rw [CountField.reported_webSearchRequests, apply_ite Int.toInt32, Int.toInt32,
        Int32.ofInt_toInt]
      rfl
  | priorBilledAttempts =>
      rw [CountField.reported_priorBilledAttempts, apply_ite Int.toInt32, ← atLeastZero_eq]
      rfl
  | priorUnverifiedAttempts =>
      rw [CountField.reported_priorUnverifiedAttempts, apply_ite Int.toInt32,
        ← atLeastZero_eq]
      rfl
  | _ => rfl

/-! ## Counts that reach the sink -/

/-- The usages whose counts are -1 or what `count` returns; `prior_held_n` is a byte. -/
structure Counted (u : Usage) : Prop where
  stated : ∀ f : CountField, f.inUsage u = -1 ∨ 0 ≤ f.inUsage u ∧ f.inUsage u < 10 ^ 18
  held : u.priorHeld.length < 256

/-- Every field of the record is the count it reports. -/
def Reported (u : Usage) (searchQueries : Int32) : Prop :=
  ∀ f : CountField, (f.inRecord (recordOf u searchQueries)).toInt = f.reported u searchQueries

/-- Every field of the record is the usage's count of that name. -/
def Unchanged (u : Usage) (searchQueries : Int32) : Prop :=
  ∀ f : CountField, (f.inRecord (recordOf u searchQueries)).toInt = f.inUsage u

/-- The usages that no field of the record narrows, and that the record adds nothing to. -/
structure Plain (u : Usage) (searchQueries : Int32) : Prop where
  small : ∀ f : CountField, f.inUsage u < 2 ^ 31
  searched : 0 ≤ searchQueries → u.webSearch = searchQueries.toInt
  unattempted : u.priorAttempts < 0 → u.priorBilled = -1 ∧ u.priorUnverified = -1
  attempted : 0 ≤ u.priorAttempts →
    0 ≤ u.priorBilled ∧ 0 ≤ u.priorUnverified ∧ u.priorHeld = []

theorem reported_least
    {u : Usage} (counted : Counted u) (searchQueries : Int32) (f : CountField) :
    -1 ≤ f.reported u searchQueries := by
  have stated := counted.stated f
  cases f with
  | webSearchRequests =>
      rw [CountField.reported_webSearchRequests]
      split
      · next asked =>
          have nonnegative := Int32.le_iff_toInt_le.mp asked
          exact le_trans (by decide) nonnegative
      · rw [CountField.inUsage_webSearchRequests] at stated
        omega
  | priorBilledAttempts =>
      rw [CountField.reported_priorBilledAttempts]
      split <;> omega
  | priorUnverifiedAttempts =>
      rw [CountField.reported_priorUnverifiedAttempts]
      split <;> omega
  | _ => exact stated.elim (fun none => none.ge) fun some => le_trans (by decide) some.1

/-- A usage without grounding queries or attempts of its own is what is reported. -/
theorem Plain.reported_eq {u : Usage} {searchQueries : Int32} (plain : Plain u searchQueries)
    (f : CountField) : f.reported u searchQueries = f.inUsage u := by
  cases f with
  | webSearchRequests =>
      rw [CountField.reported_webSearchRequests]
      split
      · next asked => exact (plain.searched asked).symm
      · rfl
  | priorBilledAttempts =>
      rw [CountField.reported_priorBilledAttempts]
      split
      · next attempted => exact max_eq_left (plain.attempted attempted).1
      · next none => exact (plain.unattempted (not_le.mp none)).1.symm
  | priorUnverifiedAttempts =>
      rw [CountField.reported_priorUnverifiedAttempts]
      split
      · next attempted =>
          obtain ⟨-, unverified, held⟩ := plain.attempted attempted
          rw [held, max_eq_left unverified, List.length_nil, Nat.cast_zero, add_zero]
          rfl
      · next none => exact (plain.unattempted (not_le.mp none)).2.symm
  | _ => rfl

theorem reported_iff {u : Usage} (counted : Counted u) (searchQueries : Int32) :
    Reported u searchQueries ↔ ∀ f : CountField, f.reported u searchQueries < 2 ^ 31 := by
  unfold Reported
  apply forall_congr'
  intro f
  rw [inRecord_recordOf]
  exact toInt32_iff (le_trans (by decide) (reported_least counted searchQueries f))

/-- What the record narrows a held attempt's sum to is not the sum without it. -/
theorem held_of_narrowed {v : Int} {held : Nat} (few : held < 256)
    (same : (v + held).toInt32.toInt = v) : held = 0 := by
  have narrowed : (v + held).bmod (2 ^ 32) = v := (Int32.toInt_ofInt).symm.trans same
  have residue := @Int.bmod_emod (v + held) (2 ^ 32)
  rw [narrowed] at residue
  omega

theorem unchanged_iff {u : Usage} (counted : Counted u) (searchQueries : Int32) :
    Unchanged u searchQueries ↔ Plain u searchQueries := by
  constructor
  · intro unchanged
    have small : ∀ f : CountField, f.inUsage u < 2 ^ 31 := by
      intro f
      rw [← unchanged f]
      exact Int32.toInt_lt _
    have narrowed : ∀ f : CountField,
        (f.reported u searchQueries).toInt32.toInt = f.inUsage u := by
      intro f
      rw [← inRecord_recordOf]
      exact unchanged f
    have searches := narrowed .webSearchRequests
    have billed := narrowed .priorBilledAttempts
    have unverified := narrowed .priorUnverifiedAttempts
    have billedStated := counted.stated .priorBilledAttempts
    have unverifiedStated := counted.stated .priorUnverifiedAttempts
    simp only [CountField.reported_webSearchRequests, CountField.inUsage_webSearchRequests]
      at searches
    simp only [CountField.reported_priorBilledAttempts,
      CountField.inUsage_priorBilledAttempts] at billed billedStated
    simp only [CountField.reported_priorUnverifiedAttempts,
      CountField.inUsage_priorUnverifiedAttempts] at unverified unverifiedStated
    refine ⟨small, ?_, ?_, ?_⟩
    · intro asked
      rw [if_pos asked, Int.toInt32, Int32.ofInt_toInt] at searches
      exact searches.symm
    · intro none
      rw [if_neg (not_le.mpr none)] at billed unverified
      exact ⟨billed.symm, unverified.symm⟩
    · intro attempted
      rw [if_pos attempted] at billed unverified
      have billedSome : 0 ≤ u.priorBilled := by
        by_contra none
        rw [max_eq_right (by omega)] at billed
        have zero : (0 : Int).toInt32.toInt = 0 := rfl
        omega
      have unverifiedSome : 0 ≤ u.priorUnverified := by
        by_contra none
        have few := counted.held
        rw [max_eq_right (by omega), (toInt32_iff (by omega)).mpr (by omega)] at unverified
        omega
      refine ⟨billedSome, unverifiedSome, ?_⟩
      rw [max_eq_left unverifiedSome] at unverified
      exact List.length_eq_zero_iff.mp
        (held_of_narrowed counted.held unverified)
  · intro plain f
    rw [← plain.reported_eq f]
    apply (reported_iff counted searchQueries).mpr
    intro g
    rw [plain.reported_eq g]
    exact plain.small g

/-- A stated count reaches the sink as what it reports exactly where that is below 2^31,
and every field is the usage's count of its name exactly where besides nothing is added
to them. -/
theorem counts_reach_iff {u : Usage} (counted : Counted u) (searchQueries : Int32) :
    (Reported u searchQueries ↔ ∀ f : CountField, f.reported u searchQueries < 2 ^ 31) ∧
      (Unchanged u searchQueries ↔ Plain u searchQueries) :=
  ⟨reported_iff counted searchQueries, unchanged_iff counted searchQueries⟩

/-- Counts of a reply that fit. -/
def smallUsage : Usage :=
  { input := 12, out := 2147483647, cached := 0 }

theorem counted_smallUsage : Counted smallUsage := by
  refine ⟨?_, by decide⟩
  intro f
  cases f <;> decide

/-- Counts that fit reach the sink. -/
theorem counts_reach_small : Reported smallUsage (-1) ∧ Unchanged smallUsage (-1) := by
  obtain ⟨reported, unchanged⟩ := counts_reach_iff counted_smallUsage (-1)
  constructor
  · apply reported.mpr
    intro f
    cases f <;> decide
  · apply unchanged.mpr
    refine ⟨?_, by decide, by decide, by decide⟩
    intro f
    cases f <;> decide

/-- A prompt of 2^32 - 1 tokens. -/
def largeUsage : Usage :=
  { input := count (ascii "4294967295") }

theorem counted_largeUsage : Counted largeUsage := by
  refine ⟨?_, by decide⟩
  intro f
  cases f <;> decide

/-- A stated count is reported as one that is not stated. -/
theorem counts_reach_unknown :
    Counted largeUsage ∧ largeUsage.input = 4294967295 ∧
      (recordOf largeUsage (-1)).tokensIn = -1 ∧
      ¬ Reported largeUsage (-1) ∧ ¬ Unchanged largeUsage (-1) := by
  have narrowed : (recordOf largeUsage (-1)).tokensIn.toInt ≠ largeUsage.input := by decide
  exact ⟨counted_largeUsage, by decide, by decide, fun reported => narrowed (reported .tokensIn),
    fun unchanged => narrowed (unchanged .tokensIn)⟩

end Gateway
end Llmbridge
