import Llmbridge.Edits
import Llmbridge.Words.Lanes
import Llmbridge.Provider.Json

/-!
# The scan of a plain run

`stop_mask16` and `string_stop` of `provider/include/provider/json.hpp`: the run inside a
string is scanned sixteen bytes a step, or eight, and the last few one by one.  A loop's
result is `error` where the scan returns and `ok` where it goes on.
-/

namespace Llmbridge
namespace Json

open Rfc8259 (Byte Bytes)

/-- A quote, a backslash or a control byte. -/
def isStop (c : Byte) : Bool :=
  c == 0x22 || c == 0x5c || c < 0x20

/-! ## Sixteen bytes a step -/

/-- `_mm_cmpeq_epi8`. -/
def cmpeqEpi8 (v w : Bytes) : Bytes :=
  List.zipWith (fun a b => if a = b then 0xff else 0) v w

/-- `_mm_min_epu8`. -/
def minEpu8 (v w : Bytes) : Bytes :=
  List.zipWith min v w

/-- `_mm_or_si128`. -/
def orSi128 (v w : Bytes) : Bytes :=
  List.zipWith (fun a b => a ||| b) v w

/-- `_mm_set1_epi8`. -/
def set1Epi8 (c : Byte) : Bytes :=
  List.replicate 16 c

/-- `_mm_movemask_epi8`: the highest bits of the bytes, the first lowest. -/
def movemaskEpi8 : Bytes → Nat
  | [] => 0
  | c :: v => (if 0x80 ≤ c then 1 else 0) + 2 * movemaskEpi8 v

/-- `stop_mask16`. -/
def stopMask16 (p : Bytes) (i : Nat) : BitVec 32 :=
  let v := slice p i (i + 16)
  let low := cmpeqEpi8 (minEpu8 v (set1Epi8 0x1f)) v
  let hit := orSi128 (orSi128 (cmpeqEpi8 v (set1Epi8 0x22)) (cmpeqEpi8 v (set1Epi8 0x5c))) low
  BitVec.ofNat 32 (movemaskEpi8 hit)

/-- The loop over sixteen bytes a step. -/
def stopLoop16 (p : Bytes) (n : Nat) : (rounds i : Nat) → Except Nat Nat
  | 0, i => .ok i
  | rounds + 1, i =>
      if i + 16 ≤ n then
        let m := stopMask16 p i
        if m ≠ 0 then .error (i + m.ctz.toNat) else stopLoop16 p n rounds (i + 16)
      else .ok i

/-! ## Eight bytes a step -/

/-- `kLo`. -/
def kLo : BitVec 64 := 0x0101010101010101

/-- `kHi`. -/
def kHi : BitVec 64 := 0x8080808080808080

/-- `memcpy(&v, p + i, 8)`, on a machine that keeps the lowest byte first, or last. -/
def loadWord (little : Bool) (p : Bytes) (i : Nat) : BitVec 64 :=
  let v := slice p i (i + 8)
  BitVec.ofNat 64 (Words.ofBytes (if little then v else v.reverse))

/-- `hit`: each term's lowest set bit is exact. -/
def stopHit (v : BitVec 64) : BitVec 64 :=
  let q := v ^^^ (kLo * 0x22)
  let s := v ^^^ (kLo * 0x5c)
  (((q - kLo) &&& ~~~q) ||| ((s - kLo) &&& ~~~s) ||| ((v - kLo * 0x20) &&& ~~~v)) &&& kHi

/-- The loop over eight bytes a step. -/
def stopLoop8 (little : Bool) (p : Bytes) (n : Nat) : (rounds i : Nat) → Except Nat Nat
  | 0, i => .ok i
  | rounds + 1, i =>
      if i + 8 ≤ n then
        let hit := stopHit (loadWord little p i)
        if hit ≠ 0 ∧ little then .error (i + hit.ctz.toNat / 8)
        else if hit ≠ 0 then .ok i
        else stopLoop8 little p n rounds (i + 8)
      else .ok i

/-! ## One byte a step -/

/-- The loop over the bytes that are left. -/
def stopLoop (p : Bytes) (n : Nat) : (rounds i : Nat) → Except Nat Nat
  | 0, i => .ok i
  | rounds + 1, i =>
      if i < n then
        if isStop (p.getD i 0) then .error i else stopLoop p n rounds (i + 1)
      else .ok i

/-- The loops of `string_stop`, built with SSE2 or without, on a machine that keeps the
lowest byte of a word first or last.  Every loop takes a step forward, so `n` rounds of it
suffice. -/
def stopScan (sse2 little : Bool) (p : Bytes) (i n : Nat) : Except Nat Nat :=
  (if sse2 then stopLoop16 p n n i else .ok i) >>= fun i =>
    stopLoop8 little p n n i >>= fun i => stopLoop p n n i

/-- `string_stop`. -/
def stringStop (sse2 little : Bool) (p : Bytes) (i n : Nat) : Nat :=
  match stopScan sse2 little p i n with
  | .error k => k
  | .ok _ => n

/-! ## What a step finds -/

section Steps

variable {p : Bytes} {i k : Nat}

theorem slice_getD (p : Bytes) (i : Nat) {m : Nat} (below : k < m) :
    (slice p i (i + m)).getD k 0 = p.getD (i + k) 0 := by
  unfold slice
  rw [List.getD_eq_getElem?_getD, List.getD_eq_getElem?_getD, List.getElem?_take,
    List.getElem?_drop, if_pos (by omega)]

theorem movemask_testBit (v : Bytes) (k : Nat) :
    (movemaskEpi8 v).testBit k = decide (0x80 ≤ v.getD k 0) := by
  induction v generalizing k with
  | nil => simp [movemaskEpi8]
  | cons c v inductionHypothesis =>
      cases k with
      | zero =>
          rw [movemaskEpi8, Nat.testBit_zero, List.getD_cons_zero]
          by_cases high : 0x80 ≤ c
          · simp [high]
          · simp [high]
      | succ k =>
          rw [movemaskEpi8, Nat.testBit_succ, List.getD_cons_succ, ← inductionHypothesis k]
          congr 1
          split <;> omega

theorem zipWith_fill (f : Byte → Byte → Byte) (c : Byte) (v : Bytes) :
    List.zipWith f v (List.replicate v.length c) = v.map fun a => f a c := by
  induction v with
  | nil => rfl
  | cons a v inductionHypothesis =>
      rw [List.length_cons, List.replicate_succ, List.zipWith_cons_cons, inductionHypothesis]
      rfl

/-- A lane's byte after the comparisons. -/
def stopLane (c : Byte) : Byte :=
  ((if c = 0x22 then 0xff else 0) ||| (if c = 0x5c then 0xff else 0)) |||
    (if min c 0x1f = c then 0xff else 0)

theorem stopLane_high (c : Byte) : decide (0x80 ≤ stopLane c) = isStop c := by
  revert c
  decide +kernel

/-- Bit `k` of the mask is set where byte `k` is a stop. -/
theorem stopMask16_bit (inside : i + 16 ≤ p.length) (k : Nat) :
    (stopMask16 p i).getLsbD k = (decide (k < 16) && isStop (p.getD (i + k) 0)) := by
  have length : (slice p i (i + 16)).length = 16 := by
    rw [slice_length inside]
    omega
  have fill : ∀ c, set1Epi8 c = List.replicate (slice p i (i + 16)).length c := by
    intro c
    rw [length]
    rfl
  have lanes : stopMask16 p i =
      BitVec.ofNat 32 (movemaskEpi8 ((slice p i (i + 16)).map stopLane)) := by
    unfold stopMask16 cmpeqEpi8 minEpu8 orSi128
    dsimp only
    simp only [fill, zipWith_fill, List.zipWith_map_left, List.zipWith_map_right,
      List.zipWith_self]
    rfl
  rw [lanes, BitVec.getLsbD_ofNat, movemask_testBit]
  by_cases below : k < 16
  · have lane : ((slice p i (i + 16)).map stopLane).getD k 0 =
        stopLane (p.getD (i + k) 0) := by
      have within : k < (slice p i (i + 16)).length := by
        rw [length]
        exact below
      rw [← slice_getD p i below, List.getD_eq_getElem _ _ within,
        List.getD_eq_getElem _ _ (by rw [List.length_map]; exact within), List.getElem_map]
    rw [lane, stopLane_high]
    simp [below, show k < 32 by omega]
  · have beyond : ((slice p i (i + 16)).map stopLane).getD k 0 = 0 := by
      rw [List.getD_eq_default]
      rw [List.length_map, length]
      omega
    rw [beyond]
    simp [below]

/-- The highest bit of a lane after `c` was taken from every lane, where it was clear
before: exact as long as no lower lane was below `c`. -/
theorem borrow_bit {c : Nat} (small : c ≤ 0x80) {x : BitVec 64} (below : k < 8)
    (enough : ∀ j < k, c ≤ Words.lane x.toNat j) :
    ((x - BitVec.ofNat 64 (Words.fill c 8)) &&& ~~~x).getLsbD (8 * k + 7) =
      decide (Words.lane x.toNat k < c) := by
  have bound := Words.lane_lt x.toNat k
  have filled : Words.fill c 8 < 2 ^ 64 := Words.fill_lt (by omega) 8
  have taken : (x - BitVec.ofNat 64 (Words.fill c 8)).toNat = Words.subtract c 8 x.toNat := by
    rw [BitVec.toNat_sub, BitVec.toNat_ofNat, Nat.mod_eq_of_lt filled]
    rfl
  have high : (x - BitVec.ofNat 64 (Words.fill c 8)).getLsbD (8 * k + 7) =
      decide (128 ≤ (Words.lane x.toNat k + 256 - c) % 256) := by
    unfold BitVec.getLsbD
    rw [taken, Words.testBit_lane, Words.lane_subtract (by omega) below enough]
  have clear : x.getLsbD (8 * k + 7) = decide (128 ≤ Words.lane x.toNat k) :=
    Words.testBit_lane x.toNat k
  have inside : 8 * k + 7 < 64 := by omega
  rw [BitVec.getLsbD_and, BitVec.getLsbD_not, high, clear, decide_eq_true inside,
    Bool.true_and]
  by_cases low : Words.lane x.toNat k < c
  · have wrapped : 128 ≤ (Words.lane x.toNat k + 256 - c) % 256 := by omega
    have plain : ¬ 128 ≤ Words.lane x.toNat k := by omega
    rw [decide_eq_true low, decide_eq_true wrapped, decide_eq_false plain]
    rfl
  · rw [decide_eq_false low]
    by_cases top : 128 ≤ Words.lane x.toNat k
    · simp [top]
    · have kept : ¬ 128 ≤ (Words.lane x.toNat k + 256 - c) % 256 := by omega
      rw [decide_eq_false kept]
      rfl

/-- The highest bits of the lanes. -/
theorem kHi_bit (t : Nat) : kHi.getLsbD t = decide (t < 64 ∧ t % 8 = 7) := by
  by_cases inside : t < 64
  · have all : ∀ t < 64, kHi.getLsbD t = decide (t < 64 ∧ t % 8 = 7) := by decide
    exact all t inside
  · rw [BitVec.getLsbD_of_ge _ _ (Nat.not_lt.mp inside)]
    simp [inside]

/-- A quote, a backslash or a control byte, as the number in a lane. -/
def isStopLane (b : Nat) : Bool :=
  b == 0x22 || b == 0x5c || b < 0x20

theorem isStopLane_toNat (c : Byte) : isStopLane c.toNat = isStop c := by
  revert c
  decide +kernel

/-- The lanes that differ from `c` in nothing. -/
theorem lane_matched {v : BitVec 64} {c : Nat} (small : c < 256) (below : k < 8) :
    (Words.lane (v ^^^ BitVec.ofNat 64 (Words.fill c 8)).toNat k < 1) =
      (Words.lane v.toNat k = c) := by
  have filled : Words.fill c 8 < 2 ^ 64 := Words.fill_lt small 8
  rw [BitVec.toNat_xor, BitVec.toNat_ofNat, Nat.mod_eq_of_lt filled, Words.lane_xor,
    Words.lane_fill c small below, Nat.lt_one_iff, Nat.xor_eq_zero_iff]

/-- The hit bit of a lane is exact as long as no lower lane is a stop. -/
theorem stopHit_bit {v : BitVec 64} (below : k < 8)
    (before : ∀ j < k, isStopLane (Words.lane v.toNat j) = false) :
    (stopHit v).getLsbD (8 * k + 7) = isStopLane (Words.lane v.toNat k) := by
  have other : ∀ j < k, Words.lane v.toNat j ≠ 0x22 ∧ Words.lane v.toNat j ≠ 0x5c ∧
      0x20 ≤ Words.lane v.toNat j := by
    intro j earlier
    have plain := before j earlier
    simp only [isStopLane, Bool.or_eq_false_iff, beq_eq_false_iff_ne, decide_eq_false_iff_not,
      Nat.not_lt] at plain
    exact ⟨plain.1.1, plain.1.2, plain.2⟩
  have quote := borrow_bit (by decide : 1 ≤ 0x80)
    (x := v ^^^ BitVec.ofNat 64 (Words.fill 0x22 8)) below (by
      intro j earlier
      apply Nat.not_lt.mp
      rw [lane_matched (by decide) (by omega)]
      exact (other j earlier).1)
  have backslash := borrow_bit (by decide : 1 ≤ 0x80)
    (x := v ^^^ BitVec.ofNat 64 (Words.fill 0x5c 8)) below (by
      intro j earlier
      apply Nat.not_lt.mp
      rw [lane_matched (by decide) (by omega)]
      exact (other j earlier).2.1)
  have control := borrow_bit (by decide : 0x20 ≤ 0x80) (x := v) below
    fun j earlier => (other j earlier).2.2
  have top : kHi.getLsbD (8 * k + 7) = true := by
    rw [kHi_bit]
    exact decide_eq_true ⟨by omega, by omega⟩
  have ones : kLo = BitVec.ofNat 64 (Words.fill 1 8) := by decide
  have quotes : kLo * 0x22 = BitVec.ofNat 64 (Words.fill 0x22 8) := by decide
  have backslashes : kLo * 0x5c = BitVec.ofNat 64 (Words.fill 0x5c 8) := by decide
  have spaces : kLo * 0x20 = BitVec.ofNat 64 (Words.fill 0x20 8) := by decide
  unfold stopHit
  dsimp only
  rw [quotes, backslashes, spaces, ones, BitVec.getLsbD_and, top, Bool.and_true,
    BitVec.getLsbD_or, BitVec.getLsbD_or, quote, backslash, control]
  simp only [lane_matched (by decide : 0x22 < 256) below,
    lane_matched (by decide : 0x5c < 256) below, isStopLane]
  rfl

/-- Bits elsewhere are never hits. -/
theorem stopHit_other {v : BitVec 64} {t : Nat} (hit : (stopHit v).getLsbD t = true) :
    t < 64 ∧ t % 8 = 7 := by
  unfold stopHit at hit
  dsimp only at hit
  rw [BitVec.getLsbD_and, Bool.and_eq_true, kHi_bit] at hit
  exact of_decide_eq_true hit.2

/-- No byte from `i` up to `k` is a stop. -/
def Clear (p : Bytes) (i k : Nat) : Prop :=
  ∀ j, i ≤ j → j < k → isStop (p.getD j 0) = false

theorem Clear.refl (p : Bytes) (i : Nat) : Clear p i i :=
  fun _ from' below => absurd below (Nat.not_lt.mpr from')

theorem Clear.trans {j : Nat} (first : Clear p i j) (second : Clear p j k) : Clear p i k := by
  intro t after below
  by_cases early : t < j
  · exact first t after early
  · exact second t (Nat.not_lt.mp early) below

/-- Sixteen bytes without a hit. -/
theorem stopMask16_zero (inside : i + 16 ≤ p.length) (none : stopMask16 p i = 0) :
    Clear p i (i + 16) := by
  intro j after below
  have bit := stopMask16_bit inside (j - i)
  rw [none, decide_eq_true (by omega), Bool.true_and, Nat.add_sub_cancel' after] at bit
  exact bit.symm.trans BitVec.getLsbD_zero

/-- The first hit among sixteen bytes. -/
theorem stopMask16_first (inside : i + 16 ≤ p.length) (some : stopMask16 p i ≠ 0) :
    (stopMask16 p i).ctz.toNat < 16 ∧ Clear p i (i + (stopMask16 p i).ctz.toNat) ∧
      isStop (p.getD (i + (stopMask16 p i).ctz.toNat) 0) = true := by
  have set := BitVec.getLsbD_true_ctz_of_ne_zero some
  rw [stopMask16_bit inside, Bool.and_eq_true, decide_eq_true_eq] at set
  refine ⟨set.1, ?_, set.2⟩
  intro j after below
  have clear := BitVec.getLsbD_false_of_lt_ctz
    (x := stopMask16 p i) (i := j - i) (by omega)
  rw [stopMask16_bit inside, decide_eq_true (by omega), Bool.true_and,
    Nat.add_sub_cancel' after] at clear
  exact clear

/-- A word without a hit has no stop in any lane. -/
theorem stopHit_zero {v : BitVec 64} (none : stopHit v = 0) :
    ∀ k < 8, isStopLane (Words.lane v.toNat k) = false := by
  intro k
  induction k using Nat.strong_induction_on with
  | _ k inductionHypothesis =>
      intro below
      rw [← stopHit_bit below fun j earlier =>
        inductionHypothesis j earlier (earlier.trans below), none]
      exact BitVec.getLsbD_zero

/-- The lowest bit set is the hit bit of the first lane that is a stop. -/
theorem stopHit_first {v : BitVec 64} (some : stopHit v ≠ 0) :
    (stopHit v).ctz.toNat / 8 < 8 ∧
      (∀ j < (stopHit v).ctz.toNat / 8, isStopLane (Words.lane v.toNat j) = false) ∧
      isStopLane (Words.lane v.toNat ((stopHit v).ctz.toNat / 8)) = true := by
  have set := BitVec.getLsbD_true_ctz_of_ne_zero some
  obtain ⟨inside, place⟩ := stopHit_other set
  have split : 8 * ((stopHit v).ctz.toNat / 8) + 7 = (stopHit v).ctz.toNat := by omega
  have before : ∀ j < (stopHit v).ctz.toNat / 8,
      isStopLane (Words.lane v.toNat j) = false := by
    intro j
    induction j using Nat.strong_induction_on with
    | _ j inductionHypothesis =>
        intro earlier
        rw [← stopHit_bit (by omega) fun t sooner =>
          inductionHypothesis t sooner (sooner.trans earlier)]
        exact BitVec.getLsbD_false_of_lt_ctz (by omega)
  refine ⟨by omega, before, ?_⟩
  rw [← stopHit_bit (by omega) before, split]
  exact set

/-- A lane of the word is a byte of the text. -/
theorem loadWord_lane (inside : i + 8 ≤ p.length) (little : Bool) (below : k < 8) :
    isStopLane (Words.lane (loadWord little p i).toNat k) =
      isStop (p.getD (i + if little then k else 7 - k) 0) := by
  have length : (slice p i (i + 8)).length = 8 := by
    rw [slice_length inside]
    omega
  have fits : ∀ v : Bytes, v.length = 8 →
      (BitVec.ofNat 64 (Words.ofBytes v)).toNat = Words.ofBytes v := by
    intro v eight
    have bound := Words.ofBytes_lt v
    rw [eight] at bound
    rw [BitVec.toNat_ofNat]
    exact Nat.mod_eq_of_lt bound
  unfold loadWord
  dsimp only
  cases little with
  | true =>
      rw [if_pos rfl, if_pos rfl, fits _ length, Words.lane_ofBytes (by omega),
        isStopLane_toNat, slice_getD p i below]
  | false =>
      have turned : (slice p i (i + 8)).reverse.length = 8 := by
        rw [List.length_reverse, length]
      rw [if_neg (by decide), if_neg (by decide), fits _ turned,
        Words.lane_ofBytes (by omega), isStopLane_toNat,
        ← slice_getD p i (by omega : 7 - k < 8), List.getD_eq_getElem _ _ (by omega),
        List.getD_eq_getElem _ _ (by omega), List.getElem_reverse]
      simp only [length]

end Steps

/-! ## What the loops find -/

section Loops

variable {p : Bytes} {n : Nat}

/-- A loop from `i` returns at the first stop, or goes on from where it met none. -/
def Scanned (p : Bytes) (n i : Nat) : Except Nat Nat → Prop
  | .error k => i ≤ k ∧ k < n ∧ Clear p i k ∧ isStop (p.getD k 0) = true
  | .ok k => i ≤ k ∧ k ≤ n ∧ Clear p i k

theorem Scanned.later {i j : Nat} (le : i ≤ j) (clear : Clear p i j) :
    ∀ {r : Except Nat Nat}, Scanned p n j r → Scanned p n i r
  | .error _, scanned =>
      ⟨le.trans scanned.1, scanned.2.1, clear.trans scanned.2.2.1, scanned.2.2.2⟩
  | .ok _, scanned => ⟨le.trans scanned.1, scanned.2.1, clear.trans scanned.2.2⟩

theorem stopLoop16_scanned (within : n ≤ p.length) (rounds : Nat) : ∀ {i : Nat}, i ≤ n →
    Scanned p n i (stopLoop16 p n rounds i) := by
  induction rounds with
  | zero => exact fun {i} start => ⟨Nat.le_refl i, start, Clear.refl p i⟩
  | succ rounds inductionHypothesis =>
      intro i start
      unfold stopLoop16
      by_cases room : i + 16 ≤ n
      · rw [if_pos room]
        dsimp only
        by_cases some : stopMask16 p i ≠ 0
        · rw [if_pos some]
          obtain ⟨below, clear, stops⟩ := stopMask16_first (room.trans within) some
          exact ⟨Nat.le_add_right i _, by omega, clear, stops⟩
        · rw [if_neg some]
          have none := stopMask16_zero (room.trans within) (not_not.mp some)
          exact (inductionHypothesis room).later (Nat.le_add_right i 16) none
      · rw [if_neg room]
        exact ⟨Nat.le_refl i, start, Clear.refl p i⟩

/-- Eight bytes without a hit, whichever of them is lowest. -/
theorem stopHit_clear {i : Nat} (inside : i + 8 ≤ p.length) (little : Bool)
    (none : stopHit (loadWord little p i) = 0) : Clear p i (i + 8) := by
  intro j after below
  cases little with
  | true =>
      have lane := loadWord_lane inside true (by omega : j - i < 8)
      rw [if_pos rfl, Nat.add_sub_cancel' after] at lane
      rw [← lane]
      exact stopHit_zero none _ (by omega)
  | false =>
      have lane := loadWord_lane inside false (by omega : 7 - (j - i) < 8)
      rw [if_neg (by decide), show i + (7 - (7 - (j - i))) = j by omega] at lane
      rw [← lane]
      exact stopHit_zero none _ (by omega)

theorem stopLoop8_scanned (within : n ≤ p.length) (little : Bool) (rounds : Nat) :
    ∀ {i : Nat}, i ≤ n → Scanned p n i (stopLoop8 little p n rounds i) := by
  induction rounds with
  | zero => exact fun {i} start => ⟨Nat.le_refl i, start, Clear.refl p i⟩
  | succ rounds inductionHypothesis =>
      intro i start
      unfold stopLoop8
      by_cases room : i + 8 ≤ n
      · rw [if_pos room]
        dsimp only
        by_cases found : stopHit (loadWord little p i) ≠ 0 ∧ little
        · rw [if_pos found]
          obtain ⟨some, rfl⟩ := found
          obtain ⟨below, before, stops⟩ := stopHit_first some
          have lane : ∀ k < 8, isStopLane (Words.lane (loadWord true p i).toNat k) =
              isStop (p.getD (i + k) 0) := fun k inside =>
            loadWord_lane (room.trans within) true inside
          refine ⟨Nat.le_add_right i _, by omega, ?_, (lane _ below).symm.trans stops⟩
          intro j after earlier
          have clear := before (j - i) (by omega)
          rw [lane _ (by omega), Nat.add_sub_cancel' after] at clear
          exact clear
        · rw [if_neg found]
          by_cases some : stopHit (loadWord little p i) ≠ 0
          · rw [if_pos some]
            exact ⟨Nat.le_refl i, start, Clear.refl p i⟩
          · rw [if_neg some]
            have none := stopHit_clear (room.trans within) little (not_not.mp some)
            exact (inductionHypothesis room).later (Nat.le_add_right i 8) none
      · rw [if_neg room]
        exact ⟨Nat.le_refl i, start, Clear.refl p i⟩

theorem stopLoop_scanned (rounds : Nat) : ∀ {i : Nat}, i ≤ n → n ≤ i + rounds →
    Scanned p n i (stopLoop p n rounds i) ∧ ∀ k, stopLoop p n rounds i = .ok k → k = n := by
  induction rounds with
  | zero =>
      intro i start enough
      refine ⟨⟨Nat.le_refl i, start, Clear.refl p i⟩, ?_⟩
      intro k same
      have ends : i = k := Except.ok.inj same
      omega
  | succ rounds inductionHypothesis =>
      intro i start enough
      unfold stopLoop
      by_cases room : i < n
      · rw [if_pos room]
        by_cases stops : isStop (p.getD i 0) = true
        · rw [if_pos stops]
          exact ⟨⟨Nat.le_refl i, room, Clear.refl p i, stops⟩, fun k ok => by cases ok⟩
        · rw [if_neg stops]
          obtain ⟨scanned, ends⟩ := inductionHypothesis (i := i + 1) room (by omega)
          refine ⟨scanned.later (Nat.le_succ i) ?_, ends⟩
          intro j after below
          obtain rfl : j = i := by omega
          exact Bool.eq_false_iff.mpr stops
      · rw [if_neg room]
        refine ⟨⟨Nat.le_refl i, start, Clear.refl p i⟩, ?_⟩
        intro k same
        have ends : i = k := Except.ok.inj same
        omega

/-- A scan that comes to the end without a stop has read up to `n`. -/
def Ends (n : Nat) (r : Except Nat Nat) : Prop :=
  ∀ k, r = .ok k → k = n

/-- One loop after another. -/
theorem Scanned.bind {i : Nat} {r : Except Nat Nat} {next : Nat → Except Nat Nat}
    (scanned : Scanned p n i r)
    (rest : ∀ j, i ≤ j → j ≤ n → Scanned p n j (next j) ∧ Ends n (next j)) :
    Scanned p n i (r >>= next) ∧ Ends n (r >>= next) := by
  cases r with
  | error k => exact ⟨scanned, fun j ok => by cases ok⟩
  | ok j =>
      obtain ⟨later, ends⟩ := rest j scanned.1 scanned.2.1
      exact ⟨later.later scanned.1 scanned.2.2, ends⟩

/-- The three loops together. -/
theorem stopScan_scanned (sse2 little : Bool) {i : Nat} (start : i ≤ n)
    (within : n ≤ p.length) :
    Scanned p n i (stopScan sse2 little p i n) ∧ Ends n (stopScan sse2 little p i n) := by
  unfold stopScan
  apply Scanned.bind
  · cases sse2 with
    | true => exact stopLoop16_scanned within n start
    | false => exact ⟨Nat.le_refl i, start, Clear.refl p i⟩
  · intro j _ inside
    apply (stopLoop8_scanned within little n inside).bind
    intro k _ below
    exact stopLoop_scanned n below (by omega)

/-- Up to where it stops the scan has met no stop, and short of `n` it stands at one. -/
theorem stringStop_scanned (sse2 little : Bool) {i : Nat} (start : i ≤ n)
    (within : n ≤ p.length) :
    i ≤ stringStop sse2 little p i n ∧ stringStop sse2 little p i n ≤ n ∧
      Clear p i (stringStop sse2 little p i n) ∧
      (stringStop sse2 little p i n < n →
        isStop (p.getD (stringStop sse2 little p i n) 0) = true) := by
  obtain ⟨scanned, ends⟩ := stopScan_scanned sse2 little start within
  unfold stringStop
  cases result : stopScan sse2 little p i n with
  | error k =>
      rw [result] at scanned
      obtain ⟨after, inside, clear, stops⟩ := scanned
      exact ⟨after, Nat.le_of_lt inside, clear, fun _ => stops⟩
  | ok k =>
      rw [result] at scanned
      obtain rfl : k = n := ends k result
      exact ⟨start, Nat.le_refl k, scanned.2.2, fun less => absurd less (Nat.lt_irrefl k)⟩

end Loops

/-- The scan stops at the first quote, backslash or control byte from `i` up to `n`, and at
`n` when there is none. -/
theorem stringStop_first (sse2 little : Bool) (p : Bytes) (i n : Nat) (start : i ≤ n)
    (within : n ≤ p.length) :
    (∀ k, i ≤ k → k < n → isStop (p.getD k 0) = true → stringStop sse2 little p i n ≤ k) ∧
      (stringStop sse2 little p i n = n ∨
        i ≤ stringStop sse2 little p i n ∧ stringStop sse2 little p i n < n ∧
          isStop (p.getD (stringStop sse2 little p i n) 0) = true) := by
  obtain ⟨after, inside, clear, stops⟩ := stringStop_scanned sse2 little start within
  constructor
  · intro k later below found
    by_contra early
    have plain := clear k later (Nat.not_le.mp early)
    exact absurd (found.symm.trans plain) (by decide)
  · rcases Nat.eq_or_lt_of_le inside with ends | short
    · exact Or.inl ends
    · exact Or.inr ⟨after, short, stops short⟩

/-- A quote behind two plain bytes. -/
theorem stringStop_first_quote : stringStop true true [0x61, 0x62, 0x22, 0x63] 0 4 ≤ 2 ∧
    stringStop true true [0x61, 0x62, 0x22, 0x63] 0 4 = 2 :=
  ⟨(stringStop_first true true [0x61, 0x62, 0x22, 0x63] 0 4 (by decide) (by decide)).1 2
    (by decide) (by decide) (by decide), by decide⟩

namespace Parser

/-- The parser's step over a plain run is that scan of the rest of its text. -/
theorem stringStop_eq (sse2 little : Bool) (p : Parser) :
    p.stringStop = p.advance (Json.stringStop sse2 little p.rest 0 p.rest.length) := by
  obtain ⟨-, inside, clear, stops⟩ :=
    stringStop_scanned sse2 little (Nat.zero_le p.rest.length) (Nat.le_refl p.rest.length)
  have same : Json.stringStop sse2 little p.rest 0 p.rest.length = p.rest.findIdx isStop := by
    generalize Json.stringStop sse2 little p.rest 0 p.rest.length = r at inside clear stops
    have plain : ∀ k (early : k < r), isStop (p.rest.get ⟨k, by omega⟩) = false := by
      intro k early
      rw [List.get_eq_getElem, ← List.getD_eq_getElem p.rest 0]
      exact clear k (Nat.zero_le k) early
    rcases Nat.eq_or_lt_of_le inside with ends | short
    · subst ends
      symm
      rw [List.findIdx_eq_length]
      intro c member
      obtain ⟨k, below, rfl⟩ := List.mem_iff_getElem.mp member
      exact plain k below
    · symm
      rw [List.findIdx_eq short]
      refine ⟨?_, fun k early => plain k early⟩
      rw [← List.getD_eq_getElem p.rest 0]
      exact stops short
  rw [same]
  unfold stringStop
  rw [List.takeWhile_eq_take_findIdx_not, List.length_take]
  have negated : (fun c => !!(c == 0x22 || c == 0x5c || decide (c < 0x20))) = isStop := by
    funext c
    simp [isStop]
  rw [negated, Nat.min_eq_left List.findIdx_le_length]

end Parser

end Json
end Llmbridge
