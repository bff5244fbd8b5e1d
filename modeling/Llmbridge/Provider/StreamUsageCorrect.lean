import Llmbridge.Provider.UsageParts
import Llmbridge.Provider.SearchCalls

/-!
# A stream's usage does not depend on its reads

What `feed` has merged and what is still to be found in the stream are together what a
scan of the whole stream finds.
-/

namespace Llmbridge
namespace OpenAi

open Rfc8259
open JsonScan
open StreamUsage (keyCut feedLoop kMaxObject)

/-- One usage object merged: whether it is Gemini's, and its text. -/
def mergeObject (u : Usage) (object : Bool × Bytes) : Usage :=
  mergeStated u (readUsage object.2 object.1)

/-! ## One read -/

section Loop

variable {stream : Bytes} {lo hi : Nat}

/-- No key of the search before `from` reaches `hi`. -/
def Quiet (stream : Bytes) (hi start : Nat) : Prop :=
  ∀ p, p < start → hi ≤ p + 6 → ¬ Text stream p

theorem Quiet.later {start hi' : Nat} (quiet : Quiet stream hi start) (later : hi ≤ hi') :
    Quiet stream hi' start :=
  fun p before reaches => quiet p before (by omega)

/-- Where the loop stops in the part up to `hi`: nothing more stands there. -/
structure Ended (stream : Bytes) (lo hi start next : Nat) (stop : Nat) (next' : Nat)
    (keep : Option Nat) : Prop where
  ordered : start ≤ stop
  inside : stop ≤ hi
  quiet : Quiet stream hi stop
  waits : ∀ k, keep = some k → next' = k ∧ lo + k = stop
  ends : keep = none → (∀ p, stop ≤ p → p + 6 ≤ hi → ¬ Text stream p) ∧ next ≤ next' ∧
    (next' = next ∨ lo + next' ≤ stop)
  done : hi = stream.length → (usageMatcher stream).found stop = []

theorem keyCut_shape {rest : Bytes} (cut : keyCut rest = true) :
    ∃ n < 15, rest = kMetadata.take n ∨ rest = kUsage.take n := by
  simp only [keyCut, Bool.and_eq_true, decide_eq_true_eq, Bool.or_eq_true, beq_iff_eq] at cut
  exact ⟨rest.length, cut.1, cut.2.imp Eq.symm Eq.symm⟩

/-- At the end of the stream a cut key is none. -/
theorem cut_done {r : Nat} (atEnd : hi = stream.length)
    (cut : keyCut ((part stream lo hi).drop r) = true) :
    (usageMatcher stream).found (lo + r) = [] := by
  have shape : (part stream lo hi).drop r = stream.drop (lo + r) := by
    rw [part, atEnd, List.take_length, List.drop_drop]
  rw [shape] at cut
  obtain ⟨n, short, same⟩ := keyCut_shape cut
  have fourteen : (stream.drop (lo + r)).length ≤ 14 := by
    rcases same with same | same
    · rw [same]
      exact (List.length_take_le _ _).trans (by omega)
    · rw [same]
      exact (List.length_take_le _ _).trans (by omega)
  rw [List.length_drop] at fourteen
  apply (usageMatcher stream).found_none
  intro q from_r
  by_cases first : q = lo + r
  · subst first
    rw [usageMatcher_hit]
    apply KeyNames.hit_eq_none.mpr
    intro sep value stop name object
    have bounds := object.bounds
    have nothing : ∀ n < 15, kUsage.isPrefixOf (kMetadata.take n) = false ∧
        (kUsage.take n).length ≤ 7 := by
      decide
    have fifteen : kMetadata.length = 15 := by decide
    have seven : kUsage.length = 7 := by decide
    rcases scannedKeys_cases object.member with ⟨text, -⟩ | ⟨text, -⟩
    · rw [text] at bounds
      omega
    · rw [text] at bounds
      have here := located_iff_isPrefixOf.mpr object.text
      rw [text] at here
      rcases same with same | same
      · rw [same, (nothing n short).1] at here
        exact Bool.noConfusion here
      · have size := congrArg List.length same
        have := (nothing n short).2
        rw [List.length_drop] at size
        omega
  · apply usageMatcher_miss
    intro text
    have texts : ∀ n < 15, ∀ k < 15, 0 < k →
        (ascii "\"usage").isPrefixOf ((kMetadata.take n).drop k) = false ∧
        (ascii "\"usage").isPrefixOf ((kUsage.take n).drop k) = false := by
      decide
    have inside := (List.getElem?_eq_some_iff.mp text.head).1
    have none := texts n short (q - (lo + r)) (by omega) (by omega)
    have here := located_iff_isPrefixOf.mpr text
    rw [show q = lo + r + (q - (lo + r)) by omega, ← List.drop_drop] at here
    rcases same with same | same
    · rw [same, none.1] at here
      exact Bool.noConfusion here
    · rw [same, none.2] at here
      exact Bool.noConfusion here

/-- At the end of the stream a key without a value is none. -/
theorem bare_done {r len : Nat} {gemini : Bool} (atEnd : hi = stream.length)
    (found : FoundKey (part stream lo hi) r len gemini)
    (bare : (part stream lo hi).length ≤ valuePlace (part stream lo hi) r len) :
    (usageMatcher stream).found (lo + r) = [] := by
  obtain ⟨⟨name, member, located, length, -⟩, inside⟩ := found.whole
  apply (usageMatcher stream).found_none
  intro q from_r
  by_cases first : q = lo + r
  · subst first
    rw [usageMatcher_hit]
    apply KeyNames.hit_eq_none.mpr
    intro sep value stop name' object
    have same := quoted_unique (scannedKeys.letters _ object.member).2
      (scannedKeys.letters _ member).2 object.text located
    have key := object.key
    rw [same, length] at key
    have bounds := object.bounds
    rw [valuePlace_part inside key, part_length] at bare
    omega
  · apply usageMatcher_miss
    intro text
    have behind : ∀ p c, lo + r + len ≤ p → stream[p]? = some c → isWs c = true ∨ c = 0x3a := by
      intro p c from_end byte
      have present := (List.getElem?_eq_some_iff.mp byte).1
      have small : p < hi := by omega
      have behindPart : r + len ≤ p - lo := by omega
      apply valuePlace_between (s := part stream lo hi) behindPart
      · rw [part_length] at bare
        omega
      · apply part_byte.mpr
        rw [Nat.add_sub_cancel' (by omega)]
        exact ⟨byte, small⟩
    have quote : stream[q]? = some 0x22 := text.head
    have letter : stream[q + 1]? = some 0x75 := text.tail.head
    by_cases within : q + 1 < lo + r + len
    · have inKey : stream[q]? = (quoted name.1)[q - (lo + r)]? := by
        obtain ⟨rest, shape⟩ := located
        rw [show q = lo + r + (q - (lo + r)) by omega, ← List.getElem?_drop, shape,
          List.getElem?_append_left (by omega)]
        congr 1
        omega
      rw [quote] at inKey
      have metadata : ∀ k < 14, 0 < k → kMetadata[k]? ≠ some 0x22 := by decide
      have usage : ∀ k < 6, 0 < k → kUsage[k]? ≠ some 0x22 := by decide
      rcases scannedKeys_cases member with ⟨same, -⟩ | ⟨same, -⟩
      · rw [same] at inKey length
        have fifteen : kMetadata.length = 15 := by decide
        exact metadata _ (by omega) (by omega) inKey.symm
      · rw [same] at inKey length
        have seven : kUsage.length = 7 := by decide
        exact usage _ (by omega) (by omega) inKey.symm
    · by_cases last : q + 1 = lo + r + len
      · exact absurd (behind _ _ (by omega) letter) (by decide)
      · exact absurd (behind _ _ (by omega) quote) (by decide)

/-- The key the code sees at `r`. -/
theorem seen_key {s : Bytes} {r : Nat}
    (key : ¬ (kMetadata.isPrefixOf (s.drop r) = false ∧
      (s.drop r).take (if kMetadata.isPrefixOf (s.drop r) then kMetadata.length
        else kUsage.length) ≠ kUsage)) :
    FoundKey s r (if kMetadata.isPrefixOf (s.drop r) then kMetadata.length else kUsage.length)
      (kMetadata.isPrefixOf (s.drop r)) := by
  cases metadata : kMetadata.isPrefixOf (s.drop r) with
  | true => exact kMetadata_located metadata
  | false =>
      rw [metadata] at key
      exact kUsage_located (not_not.mp fun other => key ⟨rfl, other⟩)

/-- From `start` on the loop merges what it passes in the stream. -/
def Merges (stream : Bytes) (lo hi start next : Nat) (u : Usage)
    (ended : Usage × Nat × Option Nat) : Prop :=
  ∃ xs stop, Ended stream lo hi start next stop ended.2.1 ended.2.2 ∧
    (usageMatcher stream).Passes start xs stop ∧ ended.1 = xs.foldl mergeObject u

/-- No key of the search is left. -/
theorem Merges.none {start next : Nat} {u : Usage} (inside : start ≤ hi)
    (quiet : Quiet stream hi start) (none : ∀ p, start ≤ p → p + 6 ≤ hi → ¬ Text stream p) :
    Merges stream lo hi start next u (u, next, .none) := by
  refine ⟨[], start, ⟨Nat.le_refl _, inside, quiet, by simp, ?_, ?_⟩,
    Scanning.Matcher.Passes.refl _, rfl⟩
  · exact fun _ => ⟨none, Nat.le_refl _, Or.inl rfl⟩
  · intro atEnd
    apply (usageMatcher stream).found_none
    intro r start_le
    apply usageMatcher_miss
    intro text
    have reach := (List.getElem?_eq_some_iff.mp text.tail.tail.tail.tail.tail.head).1
    exact none r start_le (by omega) text

/-- The loop waits for more bytes at a key. -/
theorem Merges.wait {start next found : Nat} {u : Usage} (inside : lo + found ≤ hi)
    (ordered : start ≤ lo + found) (quiet : Quiet stream hi (lo + found))
    (skipped : (usageMatcher stream).Passes start [] (lo + found))
    (done : hi = stream.length → (usageMatcher stream).found (lo + found) = []) :
    Merges stream lo hi start next u (u, found, some found) := by
  refine ⟨[], lo + found, ⟨ordered, inside, quiet, ?_, by simp, done⟩, skipped, rfl⟩
  intro k same
  rw [Option.some.injEq] at same
  exact ⟨same, by omega⟩

/-- What is merged behind places that hold no object. -/
theorem Merges.after {start middle next : Nat} {u : Usage} {ended : Usage × Nat × Option Nat}
    (ordered : start ≤ middle) (skipped : (usageMatcher stream).Passes start [] middle)
    (later : Merges stream lo hi middle next u ended) :
    Merges stream lo hi start next u ended := by
  obtain ⟨xs, stop, ends, passes, merged⟩ := later
  exact ⟨xs, stop, ⟨ordered.trans ends.ordered, ends.inside, ends.quiet, ends.waits, ends.ends,
    ends.done⟩, skipped.after passes, merged⟩

/-- One object, and what is merged behind it. -/
theorem Merges.take {place next e : Nat} {u : Usage} {x : Bool × Bytes}
    {ended : Usage × Nat × Option Nat} (hit : (usageMatcher stream).hit place = some (lo + e, x))
    (later : Merges stream lo hi (lo + e) (if next < e then e else next) (mergeObject u x) ended) :
    Merges stream lo hi place next u ended := by
  obtain ⟨xs, stop, ends, passes, merged⟩ := later
  have bounds := (usageMatcher stream).forward hit
  have ordered := ends.ordered
  refine ⟨x :: xs, stop, ⟨by omega, ends.inside, ends.quiet, ends.waits, ?_, ends.done⟩,
    (Scanning.Matcher.Passes.take hit).trans passes, merged⟩
  intro none
  obtain ⟨rest, le, last⟩ := ends.ends none
  split_ifs at le last with forward
  · exact ⟨rest, by omega, by omega⟩
  · exact ⟨rest, le, last⟩

/-- The loop merges what it passes in the stream. -/
theorem feedLoop_merges (readable : Readable stream) (whole : hi ≤ stream.length) :
    ∀ (fuel first start next : Nat) (u : Usage), hi - (lo + first) < fuel →
      (lo = 0 ∨ lo + 64 ≤ start) → lo + first ≤ start → start ≤ hi → Quiet stream hi start →
      (∀ p, lo + first ≤ p → p < start → ¬ Text stream p) →
      Merges stream lo hi start next u (feedLoop (part stream lo hi) fuel first u next) := by
  intro fuel
  induction fuel with
  | zero =>
      intro first start next u enough
      omega
  | succ fuel inductionHypothesis =>
      intro first start next u enough lead ordered inside quiet none_before
      have size : (part stream lo hi).length = hi - lo := by
        rw [part_length, Nat.min_eq_left whole]
      rw [feedLoop]
      cases search : nextUsage (part stream lo hi) first with
      | none =>
          have none := nextUsage_part_none search
          exact .none inside quiet fun p start_le => none p (by omega)
      | some found =>
          obtain ⟨found_ge, text, reach, earlier⟩ := nextUsage_part search
          have start_le : start ≤ lo + found := by
            by_contra before
            exact none_before (lo + found) (by omega) (by omega) text
          have here : Located (part stream lo hi) found (ascii "\"usage") :=
            text_part.mpr ⟨text, reach⟩
          have skipped : (usageMatcher stream).Passes start [] (lo + found) :=
            .skip start_le fun r start_le before =>
              usageMatcher_miss (earlier r (by omega) before)
          have quiet_here : Quiet stream hi (lo + found) := by
            intro p before reaches
            by_cases known : p < start
            · exact quiet p known reaches
            · exact earlier p (by omega) before
          dsimp only
          cases cut : keyCut ((part stream lo hi).drop found) with
          | true =>
              exact .wait (by omega) start_le quiet_here skipped fun atEnd => cut_done atEnd cut
          | false =>
              have seven := uncut_length here cut
              have pass : (usageMatcher stream).hit (lo + found) = none →
                  Merges stream lo hi start next u
                    (feedLoop (part stream lo hi) fuel (found + 1) u next) := by
                intro miss
                refine .after start_le skipped (.after (Nat.le_succ _)
                  ((usageMatcher stream).found_miss miss) ?_)
                refine inductionHypothesis (found + 1) _ next u (by omega)
                  (by omega) (Nat.le_refl _) (by omega) ?_ (by omega)
                intro p before reaches
                exact quiet_here p (by omega) reaches
              by_cases other : kMetadata.isPrefixOf ((part stream lo hi).drop found) = false ∧
                  ((part stream lo hi).drop found).take
                    (if kMetadata.isPrefixOf ((part stream lo hi).drop found) then
                      kMetadata.length else kUsage.length) ≠ kUsage
              · simp only [Bool.false_eq_true, if_false, if_pos other]
                apply pass
                obtain ⟨notMetadata, notUsage⟩ := other
                rw [notMetadata, if_neg Bool.false_ne_true] at notUsage
                exact no_key_hit cut notMetadata notUsage
              · have key := seen_key other
                simp only [Bool.false_eq_true, if_false, if_neg other]
                generalize kMetadata.isPrefixOf ((part stream lo hi).drop found) = gemini at key ⊢
                generalize (if gemini = true then kMetadata.length else kUsage.length) = len
                  at key ⊢
                have place : (if (part stream lo hi)[skipWs (part stream lo hi) (found + len)]? =
                    some 0x3a then
                      skipWs (part stream lo hi) (skipWs (part stream lo hi) (found + len) + 1)
                    else skipWs (part stream lo hi) (found + len)) =
                      valuePlace (part stream lo hi) found len := rfl
                rw [place]
                generalize shape : valuePlace (part stream lo hi) found len = v
                by_cases bare : (part stream lo hi).length ≤ v
                · rw [if_pos bare]
                  refine .wait (by omega) start_le quiet_here skipped fun atEnd => ?_
                  apply bare_done atEnd key
                  rwa [shape]
                · rw [if_neg bare]
                  by_cases noObject : (part stream lo hi)[v]? ≠ some 0x7b ∨
                      keyValueAt (part stream lo hi) found len ≠ some v
                  · rw [if_pos noObject]
                    subst shape
                    exact pass (no_object_part readable whole (by omega) key (by omega) noObject)
                  · rw [if_neg noObject]
                    obtain ⟨brace, keyed⟩ := not_or.mp noObject
                    have brace := not_not.mp brace
                    have keyed := not_not.mp keyed
                    cases ends : skipValue (part stream lo hi) v with
                    | none =>
                        obtain ⟨more, near⟩ := object_unfinished readable key brace keyed ends
                        have small : ¬ kMaxObject < (part stream lo hi).length - found := by
                          rw [kMaxObject]
                          omega
                        dsimp only
                        rw [if_neg small]
                        exact .wait (by omega) start_le quiet_here skipped fun atEnd => by omega
                    | some e =>
                        obtain ⟨hit, e_le, forward, past⟩ := object_part key brace keyed ends
                        refine .after start_le skipped (.take hit ?_)
                        refine inductionHypothesis e (lo + e) _ _ (by omega) (by omega)
                          (Nat.le_refl _) e_le ?_ (by omega)
                        intro p before reaches
                        exact past p before (by omega)

end Loop

/-! ## All reads -/

namespace StreamUsage

/-- The stream before the search in a read: its triggers noted and its calls counted. -/
def prepared (s : StreamUsage) (bytes : Bytes) : StreamUsage :=
  let s := s.noteTriggers bytes
  if s.calls then s.countCalls bytes else s

@[simp] theorem prepared_carry (s : StreamUsage) (bytes : Bytes) :
    (s.prepared bytes).carry = s.carry := by
  unfold prepared
  dsimp only
  split_ifs <;> rfl

@[simp] theorem prepared_seen (s : StreamUsage) (bytes : Bytes) :
    (s.prepared bytes).seen = s.seen := by
  unfold prepared
  dsimp only
  split_ifs <;> rfl

/-- Where the search of the next read starts when this one finds nothing. -/
def afterSearch (size : Nat) : Nat :=
  if kUsage.length ≤ size then size - (kUsage.length - 1) else 0

/-- The search of one read. -/
def searched (s : StreamUsage) (bytes : Bytes) : Usage × Nat × Option Nat :=
  feedLoop (s.carry ++ bytes) ((s.carry ++ bytes).length + 1) s.seen (s.prepared bytes).u
    (afterSearch (s.carry ++ bytes).length)

/-- How many bytes one read lets go of. -/
def dropped (s : StreamUsage) (bytes : Bytes) : Nat :=
  let keep := (s.searched bytes).2.2.getD (s.searched bytes).2.1
  if kLead < keep then keep - kLead else 0

theorem feed_eq (s : StreamUsage) (bytes : Bytes) :
    s.feed bytes =
      { s.prepared bytes with
        carry := (s.carry ++ bytes).drop (s.dropped bytes)
        seen := (s.searched bytes).2.1 - s.dropped bytes
        u := (s.searched bytes).1 } := by
  have carry := s.prepared_carry bytes
  have seen := s.prepared_seen bytes
  unfold dropped searched
  rw [← carry, ← seen]
  rfl

end StreamUsage

/-- The stream after its first `fed` bytes: `merged` is taken up to `stop`, and what may
still be needed is kept from `base` on. -/
structure FedTo (stream : Bytes) (fed : Nat) (s : StreamUsage) (merged : List (Bool × Bytes))
    (base stop : Nat) : Prop where
  carry : s.carry = part stream base fed
  lead : base = 0 ∨ base + 64 ≤ stop
  seen : base + s.seen ≤ stop
  inside : stop ≤ fed
  quiet : Quiet stream fed stop
  passed : ∀ p, base + s.seen ≤ p → p < stop → ¬ Text stream p
  passes : (usageMatcher stream).Passes 0 merged stop
  done : fed = stream.length → (usageMatcher stream).found stop = []

section Runs

variable {stream : Bytes}

/-- In both cases the next search starts at the same place of what is kept. -/
theorem Ended.keeps {lo hi start next stop next' : Nat} {keep : Option Nat}
    (ended : Ended stream lo hi start next stop next' keep) : keep.getD next' = next' := by
  cases waiting : keep with
  | none => rfl
  | some k => exact (ended.waits k waiting).1.symm

/-- Up to where the next search starts nothing more stands. -/
theorem Ended.settles {lo hi start stop next' : Nat} {keep : Option Nat}
    (ended : Ended stream lo hi start (StreamUsage.afterSearch (hi - lo)) stop next' keep)
    (lead : lo = 0 ∨ lo + 64 ≤ start) :
    ∃ last, (stop ≤ last ∧ lo + next' ≤ last) ∧ last ≤ hi ∧ Quiet stream hi last ∧
      (∀ p, lo + next' ≤ p → p < last → ¬ Text stream p) ∧
      (usageMatcher stream).Passes stop [] last ∧
      (hi = stream.length → (usageMatcher stream).found last = []) := by
  have ordered := ended.ordered
  have inside := ended.inside
  have seven : kUsage.length = 7 := by decide
  cases waiting : keep with
  | some k =>
      obtain ⟨same, place⟩ := ended.waits k waiting
      exact ⟨stop, ⟨Nat.le_refl _, by omega⟩, inside, ended.quiet, by omega, .refl _,
        ended.done⟩
  | none =>
      obtain ⟨none, le, last⟩ := ended.ends waiting
      rw [StreamUsage.afterSearch, seven] at le last
      by_cases behind : lo + next' ≤ stop
      · refine ⟨stop, ⟨Nat.le_refl _, behind⟩, inside, ended.quiet, ?_, .refl _, ended.done⟩
        intro p from_next before
        apply ended.quiet p before
        split_ifs at le with big <;> omega
      · have place : next' = if 7 ≤ hi - lo then hi - lo - 6 else 0 := by tauto
        have big : 7 ≤ hi - lo := by
          by_contra small
          rw [if_neg small] at place
          omega
        rw [if_pos big] at place
        have skipped : (usageMatcher stream).Passes stop [] (lo + next') :=
          .skip (by omega) fun r from_stop before =>
            usageMatcher_miss (none r from_stop (by omega))
        refine ⟨lo + next', ⟨by omega, Nat.le_refl _⟩, by omega, ?_, by omega, skipped, ?_⟩
        · intro p before reaches
          omega
        · intro atEnd
          have nothing := ended.done atEnd
          rw [skipped, List.nil_append] at nothing
          exact nothing

/-- One read takes the objects that it completes. -/
theorem FedTo.feed {fed read base stop : Nat} {s : StreamUsage} {merged : List (Bool × Bytes)}
    (readable : Readable stream) (held : FedTo stream fed s merged base stop)
    (ordered : fed ≤ read) (whole : read ≤ stream.length) {bytes : Bytes}
    (next : bytes = part stream fed read) :
    ∃ xs base' stop', FedTo stream read (s.feed bytes) (merged ++ xs) base' stop' ∧
      (s.feed bytes).u = xs.foldl mergeObject (s.prepared bytes).u := by
  have lead := held.lead
  have inside := held.inside
  have carry : s.carry ++ bytes = part stream base read := by
    rw [held.carry, next]
    exact part_append (by omega) ordered (by omega)
  have size : (s.carry ++ bytes).length = read - base := by
    rw [carry, part_length, Nat.min_eq_left whole]
  have merges : Merges stream base read stop
      (StreamUsage.afterSearch (s.carry ++ bytes).length) (s.prepared bytes).u
      (s.searched bytes) := by
    rw [StreamUsage.searched, size, carry]
    exact feedLoop_merges readable whole _ _ _ _ _ (by omega) lead held.seen (by omega)
      (held.quiet.later (by omega)) held.passed
  obtain ⟨xs, stop', ended, passes, merged'⟩ := merges
  rw [size] at ended
  obtain ⟨last, later, reach, quiet, passed, skipped, done⟩ := ended.settles lead
  have dropped : s.dropped bytes =
      if 64 < (s.searched bytes).2.1 then (s.searched bytes).2.1 - 64 else 0 := by
    rw [StreamUsage.dropped, ended.keeps]
    rfl
  have kept : base + s.dropped bytes + ((s.searched bytes).2.1 - s.dropped bytes) =
      base + (s.searched bytes).2.1 := by
    rw [dropped]
    split_ifs <;> omega
  refine ⟨xs, base + s.dropped bytes, last, ⟨?_, ?_, ?_, reach, quiet, ?_,
    held.passes.trans (passes.before skipped), done⟩, ?_⟩
  · rw [StreamUsage.feed_eq, carry]
    exact List.drop_drop
  · have start_le := ended.ordered
    have last_ge := later.1
    rw [dropped]
    split_ifs <;> omega
  · rw [StreamUsage.feed_eq]
    dsimp only
    rw [kept]
    exact later.2
  · rw [StreamUsage.feed_eq]
    dsimp only
    rw [kept]
    exact passed
  · rw [StreamUsage.feed_eq]
    exact merged'

/-- The last bytes of two reads are those of the stream. -/
theorem keepTail_part {limit fed read : Nat} (ordered : fed ≤ read)
    (whole : read ≤ stream.length) :
    StreamUsage.keepTail limit (part stream (fed - limit) fed) (part stream fed read) =
      part stream (read - limit) read := by
  have tail : (part stream (fed - limit) fed).length = min limit fed := by
    rw [part_length]
    omega
  have size : (part stream fed read).length = read - fed := by
    rw [part_length]
    omega
  unfold StreamUsage.keepTail
  rw [size, tail]
  by_cases long : limit ≤ read - fed
  · rw [if_pos long, part_drop]
    congr 1
    omega
  · rw [if_neg long]
    dsimp only
    rw [part_drop, part_append (by split_ifs <;> omega) ordered (by omega)]
    congr 1
    split_ifs <;> omega

theorem prepared_calls (s : StreamUsage) (bytes : Bytes) :
    (s.feed bytes).calls = s.calls := by
  rw [StreamUsage.feed_eq]
  unfold StreamUsage.prepared
  dsimp only
  split_ifs <;> rfl

theorem feed_tail (s : StreamUsage) (bytes : Bytes) :
    (s.feed bytes).tail =
      if s.calls then StreamUsage.keepTail StreamUsage.kTail s.tail bytes else s.tail := by
  rw [StreamUsage.feed_eq]
  unfold StreamUsage.prepared
  dsimp only
  have same : (s.noteTriggers bytes).calls = s.calls := rfl
  rw [same]
  split_ifs <;> rfl

/-- The calls counted in a read: those it holds, and those that the kept bytes begin. -/
theorem countCalls_u (s : StreamUsage) (bytes : Bytes) :
    (s.countCalls bytes).u =
      addCalls (addCalls s.u (eachSearchCall bytes true))
        ((eachSearchCall (s.tail ++ bytes.take StreamUsage.kTail) true).filter
          fun call => call.start < s.tail.length ∧ s.tail.length < call.stop) := by
  have joint : ∀ (u : Usage) (calls : List SearchCall), calls.foldl (fun v call =>
      if call.start < s.tail.length ∧ s.tail.length < call.stop then addCall v call.web
      else v) u = addCalls u (calls.filter fun call =>
        call.start < s.tail.length ∧ s.tail.length < call.stop) := by
    intro u calls
    rw [addCalls, List.foldl_filter]
    simp only [decide_eq_true_eq]
  unfold StreamUsage.countCalls
  dsimp only
  cases empty : s.tail.isEmpty with
  | false =>
      rw [if_neg Bool.false_ne_true]
      exact joint _ _
  | true =>
      have nothing : s.tail.length = 0 := by
        rw [List.isEmpty_iff.mp empty]
        rfl
      rw [if_pos rfl, List.filter_eq_nil_iff.mpr]
      · rfl
      · intro call _
        rw [nothing]
        simp

/-- One read counts the calls that it completes. -/
theorem prepared_counts {s : StreamUsage} {fed read : Nat} {u : Usage} (calls : s.calls = true)
    (tail : s.tail = part stream (fed - 40) fed) (ordered : fed ≤ read)
    (whole : read ≤ stream.length) (counted : s.u = addCalls u (callsWithin stream 0 fed)) :
    (s.prepared (part stream fed read)).u = addCalls u (callsWithin stream 0 read) := by
  have size : (part stream (fed - 40) fed).length = fed - (fed - 40) := by
    rw [part_length]
    omega
  have joint : part stream (fed - 40) fed ++ (part stream fed read).take StreamUsage.kTail =
      part stream (fed - 40) (min read (fed + 40)) := by
    have head : (part stream fed read).take StreamUsage.kTail =
        part stream fed (min read (fed + 40)) := by
      rw [StreamUsage.kTail, part, part, List.take_drop, List.take_take, Nat.min_comm]
    rw [head]
    exact part_append (by omega) (by omega) (by omega)
  have prepared : (s.prepared (part stream fed read)).u =
      addCalls (addCalls s.u (eachSearchCall (part stream fed read) true))
        ((eachSearchCall (s.tail ++ (part stream fed read).take StreamUsage.kTail) true).filter
          fun call => call.start < s.tail.length ∧ s.tail.length < call.stop) := by
    have same : (s.noteTriggers (part stream fed read)).calls = s.calls := rfl
    have counts : (s.prepared (part stream fed read)).u =
        ((s.noteTriggers (part stream fed read)).countCalls (part stream fed read)).u := by
      unfold StreamUsage.prepared
      dsimp only
      rw [same, if_pos calls]
    rw [counts, countCalls_u]
    rfl
  have shifted : ((eachSearchCall (part stream (fed - 40) (min read (fed + 40))) true).filter
      fun call => call.start < fed - (fed - 40) ∧ fed - (fed - 40) < call.stop).map
        (SearchCall.shift (fed - 40)) =
      ((eachSearchCall (part stream (fed - 40) (min read (fed + 40))) true).map
        (SearchCall.shift (fed - 40))).filter
          fun call => call.start < fed ∧ fed < call.stop := by
    rw [List.filter_map]
    congr 1
    apply List.filter_congr
    intro call _
    apply decide_eq_decide.mpr
    simp only [SearchCall.shift]
    omega
  rw [prepared, tail, size, joint, ← addCalls_shift _ (fed - 40), shifted, counted,
    ← addCalls_shift (addCalls u (callsWithin stream 0 fed)) fed, ← addCalls_append,
    ← addCalls_append]
  have held := eachSearchCall_part stream fed read
  have cut := (eachSearchCall_part stream (fed - 40) (min read (fed + 40))).filter
    fun call => call.start < fed ∧ fed < call.stop
  apply addCalls_perm
  exact (((held.append cut).trans List.perm_append_comm).append_left _).trans
    (callsWithin_split stream ordered).symm

/-- A call counted before an object that states none, or behind it. -/
theorem mergeObject_addCall {object : Bool × Bytes}
    (unstated : (readUsage object.2 object.1).webSearch < 0) (u : Usage) (web : Bool) :
    mergeObject (addCall u web) object = addCall (mergeObject u object) web := by
  have kept : ∀ old : Int, stated old (readUsage object.2 object.1).webSearch = old := by
    intro old
    rw [stated, if_neg (by omega)]
  unfold mergeObject mergeStated
  cases web
  · simp only [addCall, Bool.false_eq_true, if_false]
    split_ifs <;> rfl
  · simp only [addCall, if_true, kept]
    split_ifs <;> rfl

theorem mergeObjects_addCalls (calls : List SearchCall) :
    ∀ (objects : List (Bool × Bytes)) (u : Usage),
      (∀ object ∈ objects, (readUsage object.2 object.1).webSearch < 0) →
      objects.foldl mergeObject (addCalls u calls) =
        addCalls (objects.foldl mergeObject u) calls := by
  have one : ∀ (object : Bool × Bytes), (readUsage object.2 object.1).webSearch < 0 →
      ∀ u : Usage, mergeObject (addCalls u calls) object =
        addCalls (mergeObject u object) calls := by
    intro object unstated
    unfold addCalls
    induction calls with
    | nil =>
        intro u
        rfl
    | cons call calls inductionHypothesis =>
        intro u
        rw [List.foldl_cons, List.foldl_cons, inductionHypothesis,
          mergeObject_addCall unstated]
  intro objects
  induction objects with
  | nil =>
      intro u _
      rfl
  | cons object objects inductionHypothesis =>
      intro u unstated
      rw [List.foldl_cons, List.foldl_cons, one object (unstated object List.mem_cons_self),
        inductionHypothesis _ fun other member => unstated other (List.mem_cons_of_mem _ member)]

/-- The record after the first `fed` bytes: the objects merged and the calls counted. -/
structure Counted (stream : Bytes) (calls : Bool) (fed : Nat) (s : StreamUsage)
    (merged : List (Bool × Bytes)) : Prop where
  asked : s.calls = calls
  tail : calls = true → s.tail = part stream (fed - 40) fed
  record : s.u = if calls then addCalls (merged.foldl mergeObject {}) (callsWithin stream 0 fed)
    else merged.foldl mergeObject {}

theorem Counted.feed {calls : Bool} {fed read : Nat} {s : StreamUsage} {bytes : Bytes}
    {merged xs : List (Bool × Bytes)} (held : Counted stream calls fed s merged)
    (ordered : fed ≤ read) (whole : read ≤ stream.length)
    (next : bytes = part stream fed read)
    (unstated : calls = true → ∀ object ∈ xs, (readUsage object.2 object.1).webSearch < 0)
    (merges : (s.feed bytes).u = xs.foldl mergeObject (s.prepared bytes).u) :
    Counted stream calls read (s.feed bytes) (merged ++ xs) := by
  subst next
  have asked := held.asked
  refine ⟨(prepared_calls s _).trans asked, ?_, ?_⟩
  · intro on
    rw [feed_tail, asked, if_pos on, held.tail on]
    exact keepTail_part ordered whole
  · have record := held.record
    rw [merges, List.foldl_append]
    cases calls with
    | true =>
        rw [if_pos rfl] at record ⊢
        rw [prepared_counts asked (held.tail rfl) ordered whole record]
        exact mergeObjects_addCalls _ _ _ (unstated rfl)
    | false =>
        rw [if_neg Bool.false_ne_true] at record ⊢
        have same : (s.prepared (part stream fed read)).u = s.u := by
          have off : (s.noteTriggers (part stream fed read)).calls = false := asked
          unfold StreamUsage.prepared
          dsimp only
          rw [off, if_neg Bool.false_ne_true]
          rfl
        rw [same, record]

/-- All reads take every object of the stream and count every call. -/
theorem feedAll_counted {calls : Bool} (readable : Readable stream)
    (unstated : calls = true → ∀ object ∈ (usageMatcher stream).found 0,
      (readUsage object.2 object.1).webSearch < 0) :
    ∀ (cuts : List Bytes) (fed base stop : Nat) (s : StreamUsage)
      (merged : List (Bool × Bytes)), fed ≤ stream.length → cuts.flatten = stream.drop fed →
      FedTo stream fed s merged base stop → Counted stream calls fed s merged →
      Counted stream calls stream.length (s.feedAll cuts) ((usageMatcher stream).found 0) := by
  intro cuts
  induction cuts with
  | nil =>
      intro fed base stop s merged inside rest held counted
      have atEnd : fed = stream.length := by
        have size := congrArg List.length rest
        rw [List.flatten_nil, List.length_nil, List.length_drop] at size
        omega
      have all : (usageMatcher stream).found 0 = merged := by
        rw [held.passes, held.done atEnd, List.append_nil]
      rw [all, ← atEnd]
      exact counted
  | cons bytes cuts inductionHypothesis =>
      intro fed base stop s merged inside rest held counted
      rw [List.flatten_cons] at rest
      have size := congrArg List.length rest
      rw [List.length_append, List.length_drop] at size
      have next : bytes = part stream fed (fed + bytes.length) := by
        rw [part, List.drop_take, Nat.add_sub_cancel_left, ← rest, List.take_left]
      have rest' : cuts.flatten = stream.drop (fed + bytes.length) := by
        rw [← List.drop_drop, ← rest, List.drop_left]
      obtain ⟨xs, base', stop', held', record⟩ :=
        held.feed readable (Nat.le_add_right fed bytes.length) (by omega) next
      have member : ∀ object ∈ xs, object ∈ (usageMatcher stream).found 0 := by
        intro object inside
        rw [held'.passes]
        exact List.mem_append_left _ (List.mem_append_right _ inside)
      have counted' : Counted stream calls (fed + bytes.length) (s.feed bytes) (merged ++ xs) :=
        counted.feed (Nat.le_add_right fed bytes.length) (by omega) next
          (fun on object inside => unstated on object (member object inside)) record
      exact inductionHypothesis (fed + bytes.length) base' stop' (s.feed bytes) (merged ++ xs)
        (by omega) rest' held' counted'

/-- Whatever the reads, each usage object of the stream is merged once and in order, and
each completed search call is counted once. -/
theorem feedAll_record (calls : Bool) (cuts : List Bytes) (readable : Readable cuts.flatten)
    (unstated : calls = true → ∀ object ∈ (usageMatcher cuts.flatten).found 0,
      (readUsage object.2 object.1).webSearch < 0) :
    ((StreamUsage.reset calls).feedAll cuts).u =
      let u := ((usageMatcher cuts.flatten).found 0).foldl mergeObject {}
      if calls then countSearchCalls cuts.flatten true u else u := by
  have held : FedTo cuts.flatten 0 (StreamUsage.reset calls) [] 0 0 := by
    refine ⟨?_, Or.inl rfl, Nat.le_refl _, Nat.le_refl _, ?_, ?_, .refl _, ?_⟩
    · rw [part, List.take_zero]
      rfl
    · intro p before
      omega
    · intro p _ before
      omega
    · intro empty
      exact (usageMatcher _).found_end empty.ge
  have counted : Counted cuts.flatten calls 0 (StreamUsage.reset calls) [] := by
    refine ⟨rfl, ?_, ?_⟩
    · intro _
      rw [part, List.take_zero]
      rfl
    · have nothing : callsWithin cuts.flatten 0 0 = [] := by
        rw [callsWithin, List.filter_eq_nil_iff]
        intro call member
        have named := mem_eachSearchCall.mp member
        have some : 0 < (eventName call.web).length := by cases call.web <;> decide
        have := named.2
        simp only [decide_eq_true_eq]
        omega
      rw [nothing]
      cases calls <;> rfl
  have all := feedAll_counted readable unstated cuts 0 0 0 _ [] (Nat.zero_le _) rfl held counted
  rw [all.record]
  dsimp only
  cases calls with
  | false => rfl
  | true =>
      have every : callsWithin cuts.flatten 0 cuts.flatten.length =
          eachSearchCall cuts.flatten true := by
        rw [callsWithin, List.filter_eq_self]
        intro call member
        have named := mem_eachSearchCall.mp member
        obtain ⟨located, stop⟩ := named
        obtain ⟨rest, shape⟩ := located
        have size := congrArg List.length shape
        rw [List.length_append, List.length_drop] at size
        have some : 0 < (eventName call.web).length := by cases call.web <;> decide
        simp only [decide_eq_true_eq]
        omega
      rw [every]
      rfl

end Runs

/-! ## The record of a stream -/

/-- The record of a stream that is read whole: each usage object merged, in order, and
then each completed search call. -/
def recordOf (calls : Bool) (stream : Bytes) : Usage :=
  let u := ((usageMatcher stream).found 0).foldl mergeObject {}
  if calls then (eachSearchCall stream true).foldl (fun u call => addCall u call.web) u else u

/-- However a stream is cut into reads, its record is the stream's own.  The objects are
those under a usage key, and a call is counted once for each name that stands in it. -/
theorem feedAll_exact (calls : Bool) {stream : Bytes} (readable : Readable stream)
    (unstated : calls = true → ∀ object ∈ (usageMatcher stream).found 0,
      (readUsage object.2 object.1).webSearch < 0) :
    (∀ cuts : List Bytes, cuts.flatten = stream →
      ((StreamUsage.reset calls).feedAll cuts).u = recordOf calls stream) ∧
    (∀ p e gemini object, (usageMatcher stream).hit p = some (e, gemini, object) ↔
      ∃ sep value name, ObjectAt scannedKeys stream sep p value e (name, gemini) ∧
        object = substr stream value (e - value)) ∧
    (eachSearchCall stream true).Nodup ∧
    ∀ call, call ∈ eachSearchCall stream true ↔ Named stream call := by
  refine ⟨?_, ?_, eachSearchCall_nodup stream, fun call => mem_eachSearchCall⟩
  · rintro cuts rfl
    exact feedAll_record calls cuts readable unstated
  · intro p e gemini object
    rw [usageMatcher_hit, KeyNames.hit_eq_some]
    constructor
    · rintro ⟨sep, value, ⟨name, tag⟩, found, same⟩
      rw [Prod.mk.injEq] at same
      obtain ⟨rfl, rfl⟩ := same
      exact ⟨sep, value, name, found, rfl⟩
    · rintro ⟨sep, value, name, found, rfl⟩
      exact ⟨sep, value, (name, gemini), found, rfl⟩

/-- A stream of one usage object. -/
def shortStream : Bytes :=
  ascii "\x7b\"usage\":\x7b\"prompt_tokens\":7\x7d\x7d"

theorem shortStream_readable : Readable shortStream := by
  have size : shortStream.length = 29 := by decide
  have long : ∀ name ∈ scannedKeys.list, 7 ≤ (quoted name.1).length := by decide
  constructor
  · intro name member sep start value located key
    have inside := key.value_lt
    have := key.inside
    have := long name member
    omega
  · intro name member sep start value located key brace
    have inside := key.value_lt
    have behind := key.inside
    have wide := long name member
    have only : ∀ value < 29, 7 < value → shortStream[value]? = some 0x7b → value = 9 := by decide
    have place : value = 9 := only value (by omega) (by omega) brace
    subst place
    exact ⟨28, by decide, by omega⟩

/-- The same of that stream, its search calls counted. -/
theorem feedAll_exact_short :
    (∀ cuts : List Bytes, cuts.flatten = shortStream →
      ((StreamUsage.reset true).feedAll cuts).u = recordOf true shortStream) ∧
    (∀ p e gemini object, (usageMatcher shortStream).hit p = some (e, gemini, object) ↔
      ∃ sep value name, ObjectAt scannedKeys shortStream sep p value e (name, gemini) ∧
        object = substr shortStream value (e - value)) ∧
    (eachSearchCall shortStream true).Nodup ∧
    ∀ call, call ∈ eachSearchCall shortStream true ↔ Named shortStream call :=
  feedAll_exact true shortStream_readable fun _ => by decide

end OpenAi
end Llmbridge
