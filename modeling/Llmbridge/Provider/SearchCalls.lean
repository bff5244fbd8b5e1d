import Llmbridge.Provider.StreamUsage

/-!
# Search calls in a part of a stream

The calls that `each_search_call` finds are the places where an event names one, so the
calls of a stream are those of its reads and those that a read boundary cuts.
-/

namespace Llmbridge
namespace OpenAi

open Rfc8259
open JsonScan

/-- What stands before `kEvent` in the name of a web or a file search. -/
def eventTool (web : Bool) : Bytes :=
  if web then ascii "\"response.web" else ascii "\"response.file"

/-- The name of a call that is completed. -/
def eventName (web : Bool) : Bytes :=
  eventTool web ++ kEvent

theorem eventName_length_le (web : Bool) : (eventName web).length ≤ 37 := by
  cases web <;> decide

/-- An event names the call `call` in `b`. -/
def Named (b : Bytes) (call : SearchCall) : Prop :=
  Located b call.start (eventName call.web) ∧
    call.stop = call.start + (eventName call.web).length

/-- A text ends where the next begins when the two stand together. -/
theorem suffix_iff_located {b tool lit : Bytes} {p : Nat} (here : Located b p lit)
    (inside : p ≤ b.length) :
    tool.isSuffixOf (b.take p) = true ↔
      tool.length ≤ p ∧ Located b (p - tool.length) (tool ++ lit) := by
  rw [List.isSuffixOf_iff_suffix]
  constructor
  · rintro ⟨before, shape⟩
    have size := congrArg List.length shape
    rw [List.length_append, List.length_take_of_le inside] at size
    obtain ⟨rest, behind⟩ := here
    refine ⟨by omega, rest, ?_⟩
    have whole : before ++ (tool ++ lit ++ rest) = b := by
      rw [← List.take_append_drop p b, behind, ← shape]
      simp only [List.append_assoc]
    rw [show p - tool.length = before.length by omega]
    conv_lhs => rw [← whole]
    exact List.drop_left
  · rintro ⟨room, rest, shape⟩
    refine ⟨b.take (p - tool.length), ?_⟩
    have split : b.take (p - tool.length + tool.length) =
        b.take (p - tool.length) ++ tool := by
      rw [List.take_add, shape, List.append_assoc, List.take_left]
    rw [Nat.sub_add_cancel room] at split
    exact split.symm

/-- The call whose event goes on with `kEvent` at `p`. -/
def callAt (b : Bytes) (p : Nat) : Option SearchCall :=
  if kEvent.isPrefixOf (b.drop p) then
    searchCallAt b kEvent (eventTool true) (eventTool false) p
  else none

theorem kEvent_inside {b : Bytes} {p : Nat} (here : Located b p kEvent) : p < b.length :=
  (List.getElem?_eq_some_iff.mp (@Located.head b kEvent.tail p 0x5f here)).1

theorem callAt_eq_some {b : Bytes} {p : Nat} {call : SearchCall} :
    callAt b p = some call ↔ Named b call ∧ call.start + (eventTool call.web).length = p := by
  have tools : ∀ {web : Bool}, (eventName web).length =
      (eventTool web).length + kEvent.length := by
    intro web
    rw [eventName, List.length_append]
  constructor
  · intro found
    rw [callAt, Option.ite_none_right_eq_some] at found
    obtain ⟨lit, found⟩ := found
    have here := located_iff_isPrefixOf.mp lit
    rw [searchCallAt] at found
    split_ifs at found with web file
    · obtain ⟨room, located⟩ := (suffix_iff_located here (kEvent_inside here).le).mp web
      rw [Option.some.injEq] at found
      subst found
      refine ⟨⟨located, ?_⟩, ?_⟩
      · dsimp only
        rw [tools]
        omega
      · dsimp only
        omega
    · obtain ⟨room, located⟩ := (suffix_iff_located here (kEvent_inside here).le).mp file
      rw [Option.some.injEq] at found
      subst found
      refine ⟨⟨located, ?_⟩, ?_⟩
      · dsimp only
        rw [tools]
        omega
      · dsimp only
        omega
  · rintro ⟨⟨located, stop⟩, rfl⟩
    have here : Located b (call.start + (eventTool call.web).length) kEvent := located.split.2
    have suffix : (eventTool call.web).isSuffixOf
        (b.take (call.start + (eventTool call.web).length)) = true :=
      (suffix_iff_located here (kEvent_inside here).le).mpr
        ⟨Nat.le_add_left _ _, by rwa [Nat.add_sub_cancel]⟩
    rw [callAt, if_pos (located_iff_isPrefixOf.mpr here), searchCallAt]
    obtain ⟨start, stop', web⟩ := call
    dsimp only at stop suffix ⊢
    rw [tools] at stop
    subst stop
    cases web with
    | true =>
        rw [if_pos suffix, Nat.add_sub_cancel, Nat.add_assoc]
    | false =>
        have other : ¬ (eventTool true).isSuffixOf
            (b.take (start + (eventTool false).length)) = true := by
          intro both
          rw [List.isSuffixOf_iff_suffix] at both suffix
          have short : (eventTool true).length ≤ (eventTool false).length := by decide
          have nested := List.suffix_of_suffix_length_le both suffix short
          exact absurd (List.isSuffixOf_iff_suffix.mpr nested) (by decide)
        rw [if_neg other, if_pos suffix, Nat.add_sub_cancel, Nat.add_assoc]

/-- The loop takes each place in turn. -/
theorem searchCallLoop_eq (b : Bytes) :
    ∀ (fuel start : Nat), b.length - start < fuel →
      searchCallLoop b kEvent (eventTool true) (eventTool false) fuel start =
        (List.range' start (b.length - start)).filterMap (callAt b) := by
  intro fuel
  induction fuel with
  | zero =>
      intro start enough
      omega
  | succ fuel inductionHypothesis =>
      intro start enough
      have skip : ∀ {first n : Nat}, (∀ r, first ≤ r → r < first + n → ¬ Located b r kEvent) →
          (List.range' first n).filterMap (callAt b) = [] := by
        intro first n none
        rw [List.filterMap_eq_nil_iff]
        intro r member
        obtain ⟨from_first, before⟩ := List.mem_range'_1.mp member
        rw [callAt, if_neg]
        exact fun here => none r from_first before (located_iff_isPrefixOf.mp here)
      rw [searchCallLoop]
      cases search : memmem b kEvent start with
      | none =>
          have nowhere := memmem_eq_none (show memmem b (0x5f :: kEvent.tail) start = none from
            search)
          exact (skip fun r from_start _ => nowhere r from_start).symm
      | some found =>
          obtain ⟨ordered, here, earlier⟩ := memmem_eq_some search
          have inside := kEvent_inside here
          have split : List.range' start (b.length - start) =
              List.range' start (found - start) ++
                found :: List.range' (found + 1) (b.length - (found + 1)) := by
            rw [← List.range'_succ, show b.length - (found + 1) + 1 = b.length - found by omega]
            have glue := @List.range'_append_1 start (found - start) (b.length - found)
            rw [Nat.add_sub_cancel' ordered, show found - start + (b.length - found) =
              b.length - start by omega] at glue
            exact glue.symm
          have called : callAt b found =
              searchCallAt b kEvent (eventTool true) (eventTool false) found := by
            rw [callAt, if_pos (located_iff_isPrefixOf.mpr here)]
          dsimp only
          rw [split, List.filterMap_append, skip fun r from_start before =>
            earlier r from_start (by omega), List.nil_append,
            inductionHypothesis (found + 1) (by omega), ← called]
          cases call : callAt b found with
          | none => rw [List.filterMap_cons_none call]; rfl
          | some call' => rw [List.filterMap_cons_some call]; rfl

theorem eachSearchCall_eq (b : Bytes) :
    eachSearchCall b true = (List.range' 0 b.length).filterMap (callAt b) :=
  searchCallLoop_eq b (b.length + 1) 0 (by omega)

theorem mem_eachSearchCall {b : Bytes} {call : SearchCall} :
    call ∈ eachSearchCall b true ↔ Named b call := by
  rw [eachSearchCall_eq, List.mem_filterMap]
  constructor
  · rintro ⟨p, -, found⟩
    exact (callAt_eq_some.mp found).1
  · intro named
    have inside := kEvent_inside (Located.split named.1).2
    exact ⟨_, List.mem_range'_1.mpr (by omega), callAt_eq_some.mpr ⟨named, rfl⟩⟩

/-- No call is found twice. -/
theorem eachSearchCall_nodup (b : Bytes) : (eachSearchCall b true).Nodup := by
  rw [eachSearchCall_eq]
  apply List.Nodup.filterMap ?_ List.nodup_range'
  intro p q call here there
  exact (callAt_eq_some.mp here).2.symm.trans (callAt_eq_some.mp there).2

/-! ## The calls of a read -/

/-- The calls that lie from `lo` up to `hi` in the stream. -/
def callsWithin (stream : Bytes) (lo hi : Nat) : List SearchCall :=
  (eachSearchCall stream true).filter fun call => lo ≤ call.start ∧ call.stop ≤ hi

/-- A call of a part of the stream, where it stands in the stream. -/
def SearchCall.shift (lo : Nat) (call : SearchCall) : SearchCall :=
  { call with start := lo + call.start, stop := lo + call.stop }

theorem SearchCall.shift_injective (lo : Nat) : Function.Injective (SearchCall.shift lo) := by
  intro call other same
  cases call
  cases other
  simp only [SearchCall.shift, SearchCall.mk.injEq] at same ⊢
  exact ⟨by omega, by omega, same.2.2⟩

theorem Named.part {stream : Bytes} {lo hi : Nat} {call : SearchCall} :
    Named (part stream lo hi) call ↔ Named stream (call.shift lo) ∧ lo + call.stop ≤ hi := by
  obtain ⟨start, stop, web⟩ := call
  have name : ∃ rest, eventName web = 0x22 :: rest := by
    cases web
    · exact ⟨_, rfl⟩
    · exact ⟨_, rfl⟩
  obtain ⟨rest, shape⟩ := name
  simp only [Named, SearchCall.shift, shape, Located.part]
  constructor
  · rintro ⟨⟨located, inside⟩, rfl⟩
    exact ⟨⟨located, (Nat.add_assoc _ _ _).symm⟩, by omega⟩
  · rintro ⟨⟨located, same⟩, inside⟩
    exact ⟨⟨located, by omega⟩, by omega⟩

theorem mem_callsWithin {stream : Bytes} {lo hi : Nat} {call : SearchCall} :
    call ∈ callsWithin stream lo hi ↔ Named stream call ∧ lo ≤ call.start ∧ call.stop ≤ hi := by
  rw [callsWithin, List.mem_filter, mem_eachSearchCall, decide_eq_true_eq]

/-- A part of the stream names the calls that lie in it. -/
theorem eachSearchCall_part (stream : Bytes) (lo hi : Nat) :
    ((eachSearchCall (part stream lo hi) true).map (SearchCall.shift lo)).Perm
      (callsWithin stream lo hi) := by
  apply (List.perm_ext_iff_of_nodup ((eachSearchCall_nodup _).map (SearchCall.shift_injective lo))
    ((eachSearchCall_nodup _).filter _)).mpr
  intro call
  rw [List.mem_map]
  constructor
  · rintro ⟨inner, member, rfl⟩
    obtain ⟨named, inside⟩ := Named.part.mp (mem_eachSearchCall.mp member)
    exact mem_callsWithin.mpr ⟨named, Nat.le_add_right _ _, inside⟩
  · intro member
    obtain ⟨named, from_lo, inside⟩ := mem_callsWithin.mp member
    have stop := named.2
    refine ⟨⟨call.start - lo, call.stop - lo, call.web⟩, ?_, ?_⟩
    · apply mem_eachSearchCall.mpr
      apply Named.part.mpr
      simp only [SearchCall.shift]
      rw [Nat.add_sub_cancel' from_lo, Nat.add_sub_cancel' (by omega)]
      exact ⟨named, inside⟩
    · simp only [SearchCall.shift]
      rw [Nat.add_sub_cancel' from_lo, Nat.add_sub_cancel' (by omega)]

/-- The calls up to the end of a read are those up to its start, those it cuts and those
it holds. -/
theorem callsWithin_split (stream : Bytes) {first last : Nat} (ordered : first ≤ last) :
    (callsWithin stream 0 last).Perm
      (callsWithin stream 0 first ++
        ((callsWithin stream (first - 40) (min last (first + 40))).filter
          (fun call => call.start < first ∧ first < call.stop) ++
        callsWithin stream first last)) := by
  have nodup : ∀ lo hi, (callsWithin stream lo hi).Nodup := fun lo hi =>
    (eachSearchCall_nodup _).filter _
  have size : ∀ {call : SearchCall}, Named stream call →
      call.start < call.stop ∧ call.stop ≤ call.start + 37 := by
    intro call named
    have := eventName_length_le call.web
    have some : 0 < (eventName call.web).length := by cases call.web <;> decide
    have := named.2
    omega
  apply (List.perm_ext_iff_of_nodup (nodup _ _) ?_).mpr
  · intro call
    simp only [List.mem_append, List.mem_filter, mem_callsWithin, decide_eq_true_eq]
    by_cases named : Named stream call
    · have := size named
      simp only [named, true_and]
      omega
    · simp only [named, false_and, or_self]
  · rw [List.nodup_append, List.nodup_append]
    refine ⟨nodup _ _, ⟨(nodup _ _).filter _, nodup _ _, ?_⟩, ?_⟩
    · intro call cut other held same
      subst same
      simp only [List.mem_filter, mem_callsWithin, decide_eq_true_eq] at cut held
      omega
    · intro call before other later same
      subst same
      simp only [List.mem_append, List.mem_filter, mem_callsWithin, decide_eq_true_eq]
        at before later
      have := size before.1
      omega

/-! ## Counting calls -/

/-- The calls added to a record. -/
def addCalls (u : Usage) (calls : List SearchCall) : Usage :=
  calls.foldl (fun u call => addCall u call.web) u

theorem addCall_comm (u : Usage) (first second : Bool) :
    addCall (addCall u first) second = addCall (addCall u second) first := by
  cases first <;> cases second <;> rfl

theorem addCalls_perm {u : Usage} {first second : List SearchCall} (perm : first.Perm second) :
    addCalls u first = addCalls u second := by
  unfold addCalls
  apply perm.foldl_eq'
  intro call _ other _ u
  exact addCall_comm u _ _

theorem addCalls_append (u : Usage) (first second : List SearchCall) :
    addCalls u (first ++ second) = addCalls (addCalls u first) second :=
  List.foldl_append

theorem addCalls_shift (u : Usage) (lo : Nat) (calls : List SearchCall) :
    addCalls u (calls.map (SearchCall.shift lo)) = addCalls u calls :=
  List.foldl_map

end OpenAi
end Llmbridge
