import Llmbridge.Net.Sha256

/-!
# The gateway's SHA-256 is the standard's

`net/src/sha256.cpp`: whatever pieces a message is fed in, the digest is that of FIPS 180-4,
and the object is left as it was constructed.
-/

namespace Llmbridge
namespace Net

open Rfc8259 (Byte Bytes)
open Fips180 (Word Hash Bits bitsOf value)

/-! ## Bytes as bits -/

/-- The bits of a string of bytes. -/
def bytesBits (bytes : Bytes) : Bits :=
  bytes.flatMap fun c => bitsOf 8 c.toNat

@[simp] theorem bytesBits_nil : bytesBits [] = [] := rfl

@[simp] theorem bytesBits_cons (c : Byte) (bytes : Bytes) :
    bytesBits (c :: bytes) = bitsOf 8 c.toNat ++ bytesBits bytes := by
  simp [bytesBits]

@[simp] theorem bytesBits_append (first second : Bytes) :
    bytesBits (first ++ second) = bytesBits first ++ bytesBits second := by
  simp [bytesBits]

@[simp] theorem bytesBits_length (bytes : Bytes) :
    (bytesBits bytes).length = 8 * bytes.length := by
  induction bytes with
  | nil => rfl
  | cons c bytes inductionHypothesis =>
      rw [bytesBits_cons, List.length_append, inductionHypothesis, Fips180.bitsOf_length,
        List.length_cons]
      ring

/-- Dropping bytes drops their bits. -/
theorem bytesBits_drop (bytes : Bytes) (n : Nat) :
    (bytesBits bytes).drop (8 * n) = bytesBits (bytes.drop n) := by
  induction bytes generalizing n with
  | nil => simp
  | cons c bytes inductionHypothesis =>
      cases n with
      | zero => rfl
      | succ n =>
          have past : 8 * (n + 1) = (bitsOf 8 c.toNat).length + 8 * n := by
            rw [Fips180.bitsOf_length]
            ring
          rw [bytesBits_cons, past, List.drop_length_add_append, inductionHypothesis,
            List.drop_succ_cons]

/-- Taking bytes takes their bits. -/
theorem bytesBits_take (bytes : Bytes) (n : Nat) :
    (bytesBits bytes).take (8 * n) = bytesBits (bytes.take n) := by
  induction bytes generalizing n with
  | nil => simp
  | cons c bytes inductionHypothesis =>
      cases n with
      | zero => rfl
      | succ n =>
          have past : 8 * (n + 1) = (bitsOf 8 c.toNat).length + 8 * n := by
            rw [Fips180.bitsOf_length]
            ring
          rw [bytesBits_cons, past, List.take_length_add_append, inductionHypothesis,
            List.take_succ_cons, bytesBits_cons]

/-- The value of bytes, the first one most significant. -/
theorem value_bytesBits_cons (c : Byte) (bytes : Bytes) :
    value (bytesBits (c :: bytes)) =
      c.toNat * 2 ^ (8 * bytes.length) + value (bytesBits bytes) := by
  rw [bytesBits_cons, Fips180.value_append, Fips180.value_bitsOf, bytesBits_length,
    Nat.mod_eq_of_lt c.toNat_lt]

/-! ## The block function -/

/-- A byte moved inside a word. -/
theorem word_shift (c : Byte) {n : Nat} (fits : n ≤ 24) :
    (word c <<< n).toNat = 2 ^ n * c.toNat := by
  have byte := c.toNat_lt
  have bound : c.toNat * 2 ^ n < 2 ^ 32 := by
    calc
      c.toNat * 2 ^ n < 2 ^ 8 * 2 ^ n := by
        exact Nat.mul_lt_mul_of_pos_right byte (Nat.two_pow_pos n)
      _ ≤ 2 ^ 8 * 2 ^ 24 := Nat.mul_le_mul_left _ (Nat.pow_le_pow_right (by decide) fits)
      _ = 2 ^ 32 := by norm_num
  have plain : (word c).toNat = c.toNat := by
    unfold word
    rw [BitVec.toNat_setWidth]
    exact Nat.mod_eq_of_lt (lt_trans byte (by decide))
  rw [BitVec.toNat_shiftLeft, plain, Nat.shiftLeft_eq, Nat.mod_eq_of_lt bound, Nat.mul_comm]

/-- Bits that do not overlap add up. -/
theorem or_disjoint {n x y : Nat} (small : y < 2 ^ n) : 2 ^ n * x ||| y = 2 ^ n * x + y :=
  (Nat.two_pow_add_eq_or_of_lt small x).symm

/-- Four bytes as a word, the first highest. -/
theorem be32_value (p : Bytes) (j : Nat) (inside : 4 * j + 4 ≤ p.length) :
    be32 p (j * 4) = BitVec.ofNat 32 (value (bytesBits ((p.drop (4 * j)).take 4))) := by
  have bytes : (p.drop (4 * j)).take 4 =
      [p.getD (j * 4) 0, p.getD (j * 4 + 1) 0, p.getD (j * 4 + 2) 0, p.getD (j * 4 + 3) 0] := by
    rw [Nat.mul_comm 4 j, List.drop_eq_getElem_cons (by omega),
      List.drop_eq_getElem_cons (by omega), List.drop_eq_getElem_cons (by omega),
      List.drop_eq_getElem_cons (by omega)]
    simp only [List.take_succ_cons, List.take_zero]
    rw [List.getD_eq_getElem _ _ (by omega), List.getD_eq_getElem _ _ (by omega),
      List.getD_eq_getElem _ _ (by omega), List.getD_eq_getElem _ _ (by omega)]
  rw [bytes]
  unfold be32
  generalize p.getD (j * 4) 0 = b0
  generalize p.getD (j * 4 + 1) 0 = b1
  generalize p.getD (j * 4 + 2) 0 = b2
  generalize p.getD (j * 4 + 3) 0 = b3
  have l0 := b0.toNat_lt
  have l1 := b1.toNat_lt
  have l2 := b2.toNat_lt
  have l3 := b3.toNat_lt
  have low : (word b3).toNat = b3.toNat := by
    have shift := word_shift b3 (Nat.zero_le 24)
    rw [BitVec.shiftLeft_zero, Nat.pow_zero, Nat.one_mul] at shift
    exact shift
  have third : 2 ^ 8 * b2.toNat ||| b3.toNat = 2 ^ 8 * b2.toNat + b3.toNat := or_disjoint l3
  have second : 2 ^ 16 * b1.toNat ||| (2 ^ 8 * b2.toNat + b3.toNat) =
      2 ^ 16 * b1.toNat + (2 ^ 8 * b2.toNat + b3.toNat) := or_disjoint (by omega)
  have first : 2 ^ 24 * b0.toNat ||| (2 ^ 16 * b1.toNat + (2 ^ 8 * b2.toNat + b3.toNat)) =
      2 ^ 24 * b0.toNat + (2 ^ 16 * b1.toNat + (2 ^ 8 * b2.toNat + b3.toNat)) :=
    or_disjoint (by omega)
  apply BitVec.eq_of_toNat_eq
  rw [BitVec.toNat_or, BitVec.toNat_or, BitVec.toNat_or, word_shift b0 (by decide),
    word_shift b1 (by decide), word_shift b2 (by decide), low, Nat.lor_assoc, Nat.lor_assoc,
    third, second, first, BitVec.toNat_ofNat,
    value_bytesBits_cons, value_bytesBits_cons, value_bytesBits_cons, value_bytesBits_cons]
  simp only [List.length_cons, List.length_nil, bytesBits_nil, value]
  omega

/-- The constants are the standard's. -/
theorem kK_eq : ∀ i < 64, kK.getD i 0 = Fips180.K i := by
  decide +kernel

/-- A fresh digest has the initial hash. -/
theorem reset_h : Sha256.reset.h = Fips180.initial := by
  decide +kernel

/-- One step of the code is one round of the standard. -/
theorem roundStep_eq (k w : Word) (v : Hash) : roundStep k w v = Fips180.round k w v := rfl

/-- The words of a block are those of the standard's. -/
theorem be32_blockWord (p : Bytes) (j : Nat) (inside : j < 16) (long : kBlockBytes ≤ p.length) :
    be32 p (j * 4) = Fips180.blockWord (bytesBits (p.take kBlockBytes)) j := by
  unfold kBlockBytes at *
  have same : ((bytesBits (p.take 64)).drop (32 * j)).take 32 =
      bytesBits ((p.drop (4 * j)).take 4) := by
    rw [show 32 * j = 8 * (4 * j) by ring, bytesBits_drop, show 32 = 8 * 4 from rfl,
      bytesBits_take, List.drop_take, List.take_take, Nat.min_eq_left (by omega)]
  unfold Fips180.blockWord
  rw [same]
  exact be32_value p j (by omega)

/-- The schedule grows word by word. -/
theorem scheduleLoop_succ (block : Bytes) (r : Nat) :
    scheduleLoop block (r + 1) = scheduleLoop block r ++
      [ssig1 ((scheduleLoop block r).getD (16 + r - 2) 0) +
        (scheduleLoop block r).getD (16 + r - 7) 0 +
        ssig0 ((scheduleLoop block r).getD (16 + r - 15) 0) +
        (scheduleLoop block r).getD (16 + r - 16) 0] := by
  unfold scheduleLoop
  rw [List.range'_concat, List.foldl_append, Nat.one_mul]
  rfl

/-- After so many turns the list holds the first words of the message schedule. -/
theorem scheduleLoop_schedule (block : Bytes) (long : kBlockBytes ≤ block.length) (r : Nat) :
    (scheduleLoop block r).length = 16 + r ∧
      ∀ t < 16 + r, (scheduleLoop block r).getD t 0 =
        Fips180.schedule (bytesBits (block.take kBlockBytes)) t := by
  induction r with
  | zero =>
      have start : scheduleLoop block 0 = (List.range 16).map fun i => be32 block (i * 4) := rfl
      rw [start]
      refine ⟨by simp, ?_⟩
      intro t inside
      rw [List.getD_eq_getElem _ _ (by simpa using inside), List.getElem_map,
        List.getElem_range, be32_blockWord block t inside long, Fips180.schedule, if_pos inside]
  | succ r inductionHypothesis =>
      obtain ⟨length, words⟩ := inductionHypothesis
      rw [scheduleLoop_succ]
      refine ⟨by rw [List.length_append, length]; rfl, ?_⟩
      intro t inside
      by_cases earlier : t < 16 + r
      · rw [List.getD_append _ _ _ _ (by omega)]
        exact words t earlier
      · obtain rfl : t = 16 + r := by omega
        rw [List.getD_append_right _ _ _ _ (by omega), length, Nat.sub_self,
          List.getD_cons_zero, words _ (by omega), words _ (by omega), words _ (by omega),
          words _ (by omega)]
        conv_rhs => rw [Fips180.schedule]
        rw [if_neg (by omega)]
        rfl

/-- The block function is the standard's on the first block. -/
theorem compressOne_eq (h : Hash) (p : Bytes) (long : kBlockBytes ≤ p.length) :
    compressOne h p = Fips180.compress h (bytesBits (p.take kBlockBytes)) := by
  have rounds : (List.range 64).foldl
        (fun v i => roundStep (kK.getD i 0) ((scheduleLoop p 48).getD i 0) v) h =
      (List.range 64).foldl
        (fun v t => Fips180.round (Fips180.K t)
          (Fips180.schedule (bytesBits (p.take kBlockBytes)) t) v) h := by
    apply List.foldl_ext
    intro v t inside
    rw [List.mem_range] at inside
    rw [kK_eq t inside, (scheduleLoop_schedule p long 48).2 t (by omega), roundStep_eq]
  unfold compressOne Fips180.compress Fips180.Hash.add
  dsimp only
  rw [rounds]
  simp only [BitVec.add_comm]

/-! ## Whole blocks -/

/-- The last of some blocks. -/
theorem compressBlocks_succ (h : Hash) (p : Bytes) (n : Nat) :
    compressBlocks h p (n + 1) =
      compressOne (compressBlocks h p n) (p.drop (kBlockBytes * n)) := by
  induction n generalizing h p with
  | zero => rfl
  | succ n inductionHypothesis =>
      have past : kBlockBytes * (n + 1) = kBlockBytes + kBlockBytes * n := by ring
      rw [compressBlocks, inductionHypothesis, List.drop_drop, ← past]
      rfl

/-- Blocks behind blocks. -/
theorem compressBlocks_add (h : Hash) (p : Bytes) (m n : Nat) :
    compressBlocks h p (m + n) =
      compressBlocks (compressBlocks h p m) (p.drop (kBlockBytes * m)) n := by
  induction n with
  | zero => rfl
  | succ n inductionHypothesis =>
      have past : kBlockBytes * (m + n) = kBlockBytes * m + kBlockBytes * n := by ring
      rw [← Nat.add_assoc, compressBlocks_succ, inductionHypothesis, compressBlocks_succ,
        List.drop_drop, past]

/-- The blocks one after another, as the standard parses them. -/
theorem compressBlocks_eq (h : Hash) (p : Bytes) (n : Nat) (long : kBlockBytes * n ≤ p.length) :
    compressBlocks h p n =
      (List.range n).foldl (fun s i => Fips180.compress s (Fips180.block (bytesBits p) i)) h := by
  induction n with
  | zero => rfl
  | succ n inductionHypothesis =>
      have past : kBlockBytes * (n + 1) = kBlockBytes * n + kBlockBytes := by ring
      have before : kBlockBytes * n ≤ p.length := by omega
      have rest : kBlockBytes ≤ (p.drop (kBlockBytes * n)).length := by
        rw [List.length_drop]
        omega
      have block : Fips180.block (bytesBits p) n =
          bytesBits ((p.drop (kBlockBytes * n)).take kBlockBytes) := by
        unfold Fips180.block kBlockBytes
        rw [show 512 * n = 8 * (64 * n) by ring, bytesBits_drop, show 512 = 8 * 64 from rfl,
          bytesBits_take]
      rw [compressBlocks_succ, inductionHypothesis before, compressOne_eq _ _ rest,
        List.range_succ, List.foldl_append, List.foldl_cons, List.foldl_nil, block]

/-- What comes behind the blocks does not matter. -/
theorem compressBlocks_append (h : Hash) (p q : Bytes) (n : Nat)
    (long : kBlockBytes * n ≤ p.length) :
    compressBlocks h (p ++ q) n = compressBlocks h p n := by
  rw [compressBlocks_eq h p n long, compressBlocks_eq h (p ++ q) n
    (by rw [List.length_append]; omega)]
  apply List.foldl_ext
  intro s i inside
  rw [List.mem_range] at inside
  have fits : kBlockBytes * (i + 1) ≤ kBlockBytes * n := Nat.mul_le_mul_left _ inside
  unfold Fips180.block kBlockBytes at *
  rw [show 512 * i = 8 * (64 * i) by ring, bytesBits_drop, bytesBits_drop,
    show 512 = 8 * 64 from rfl, bytesBits_take, bytesBits_take,
    List.drop_append_of_le_length (by omega), List.take_append_of_le_length]
  rw [List.length_drop]
  omega

/-! ## Feeding a message -/

namespace Sha256

variable {s : Sha256} {m : Bytes}

/-- The whole blocks fed have been hashed, and what came behind them is held. -/
structure Absorbed (s : Sha256) (whole rest : Bytes) : Prop where
  blocks : whole.length = kBlockBytes * (whole.length / kBlockBytes)
  h : s.h = compressBlocks reset.h whole (whole.length / kBlockBytes)
  held : s.held = rest.length
  short : rest.length < kBlockBytes
  size : s.buf.length = kBlockBytes
  kept : s.buf.take s.held = rest

/-- A message has been fed. -/
def Absorbs (s : Sha256) (m : Bytes) : Prop :=
  ∃ whole rest, m = whole ++ rest ∧ Absorbed s whole rest

/-- A fresh digest has absorbed nothing. -/
theorem Absorbs.fresh : Absorbs reset [] :=
  ⟨[], [], rfl, rfl, rfl, rfl, by decide, List.length_replicate, rfl⟩

@[simp] theorem copyTo_h (s : Sha256) (i : Nat) (data : Bytes) :
    (s.copyTo i data).h = s.h := rfl

@[simp] theorem copyTo_held (s : Sha256) (i : Nat) (data : Bytes) :
    (s.copyTo i data).held = s.held := rfl

@[simp] theorem copyTo_bits (s : Sha256) (i : Nat) (data : Bytes) :
    (s.copyTo i data).bits = s.bits := rfl

/-- A copy inside the buffer keeps its length. -/
theorem copyTo_length {i : Nat} {data : Bytes} (fits : i + data.length ≤ s.buf.length) :
    (s.copyTo i data).buf.length = s.buf.length := by
  unfold copyTo
  dsimp only
  rw [List.length_append, List.length_append, List.length_take, List.length_drop]
  omega

/-- It stands behind what the buffer held. -/
theorem copyTo_take {i : Nat} {data : Bytes} (fits : i + data.length ≤ s.buf.length) :
    (s.copyTo i data).buf.take (i + data.length) = s.buf.take i ++ data := by
  unfold copyTo
  dsimp only
  apply List.take_left'
  rw [List.length_append, List.length_take]
  omega

/-- Whole blocks go on from the last whole block. -/
theorem blocks_append (h : Hash) {whole data : Bytes} {k : Nat}
    (blocks : whole.length = kBlockBytes * (whole.length / kBlockBytes))
    (inside : data.length = kBlockBytes * k) :
    (whole ++ data).length = kBlockBytes * ((whole ++ data).length / kBlockBytes) ∧
      compressBlocks (compressBlocks h whole (whole.length / kBlockBytes)) data k =
        compressBlocks h (whole ++ data) ((whole ++ data).length / kBlockBytes) := by
  have number : (whole ++ data).length / kBlockBytes = whole.length / kBlockBytes + k := by
    rw [List.length_append, inside]
    exact Nat.add_mul_div_left _ _ (by decide)
  rw [number, compressBlocks_add, compressBlocks_append h whole data _ (Nat.le_of_eq blocks.symm),
    ← blocks, List.drop_left, List.length_append, Nat.mul_add, ← blocks, inside]
  exact ⟨rfl, rfl⟩

/-- Nothing is held: whole blocks are hashed from the caller's bytes. -/
theorem updateWhole_absorbed {whole : Bytes} (absorbed : Absorbed s whole []) (data : Bytes) :
    Absorbed (s.updateWhole data)
      (whole ++ data.take (data.length / kBlockBytes * kBlockBytes))
      (data.drop (data.length / kBlockBytes * kBlockBytes)) := by
  have parts : (if kBlockBytes ≤ data.length then
        ({ s with h := compressBlocks s.h data (data.length / kBlockBytes) },
          data.drop (data.length / kBlockBytes * kBlockBytes))
      else (s, data) : Sha256 × Bytes) =
      ({ s with h := compressBlocks s.h data (data.length / kBlockBytes) },
        data.drop (data.length / kBlockBytes * kBlockBytes)) := by
    by_cases large : kBlockBytes ≤ data.length
    · rw [if_pos large]
    · rw [if_neg large, Nat.div_eq_of_lt (Nat.not_le.mp large), Nat.zero_mul, List.drop_zero]
      rfl
  have most : data.length / kBlockBytes * kBlockBytes ≤ data.length := Nat.div_mul_le_self _ _
  have taken : (data.take (data.length / kBlockBytes * kBlockBytes)).length =
      kBlockBytes * (data.length / kBlockBytes) := by
    rw [List.length_take, Nat.min_eq_left most, Nat.mul_comm]
  have left : (data.drop (data.length / kBlockBytes * kBlockBytes)).length < kBlockBytes := by
    rw [List.length_drop, Nat.mul_comm, ← Nat.mod_eq_sub]
    exact Nat.mod_lt _ (by decide)
  obtain ⟨blocks, hashed⟩ := blocks_append reset.h absorbed.blocks taken
  have hash : compressBlocks s.h data (data.length / kBlockBytes) =
      compressBlocks reset.h (whole ++ data.take (data.length / kBlockBytes * kBlockBytes))
        ((whole ++ data.take (data.length / kBlockBytes * kBlockBytes)).length /
          kBlockBytes) := by
    have only := compressBlocks_append s.h
      (data.take (data.length / kBlockBytes * kBlockBytes))
      (data.drop (data.length / kBlockBytes * kBlockBytes)) (data.length / kBlockBytes)
      (Nat.le_of_eq taken.symm)
    rw [List.take_append_drop] at only
    rw [only, ← hashed, ← absorbed.h]
  unfold updateWhole
  dsimp only
  rw [parts]
  dsimp only
  generalize data.drop (data.length / kBlockBytes * kBlockBytes) = more at left
  by_cases some : more ≠ []
  · rw [if_pos some]
    have fits : 0 + more.length ≤ s.buf.length := by
      rw [absorbed.size]
      omega
    refine ⟨blocks, hash, rfl, left, (copyTo_length fits).trans absorbed.size, ?_⟩
    have kept := copyTo_take (s := { s with
      h := compressBlocks s.h data (data.length / kBlockBytes) }) fits
    rw [Nat.zero_add] at kept
    exact kept
  · rw [if_neg some]
    obtain rfl : more = [] := not_not.mp some
    exact ⟨blocks, hash, absorbed.held, left, absorbed.size, absorbed.kept⟩

/-- A partial block is filled up. -/
theorem fill_absorbed {whole rest data : Bytes} (absorbed : Absorbed s whole rest)
    (full : rest.length + data.length = kBlockBytes) :
    Absorbed
      { s.copyTo s.held data with
        h := compressBlocks s.h (s.copyTo s.held data).buf 1
        held := 0 } (whole ++ (rest ++ data)) [] := by
  have fits : s.held + data.length ≤ s.buf.length := by
    rw [absorbed.held, absorbed.size]
    omega
  have size := (copyTo_length fits).trans absorbed.size
  have buffer : (s.copyTo s.held data).buf = rest ++ data := by
    have kept := copyTo_take fits
    rw [absorbed.kept, absorbed.held, full] at kept
    rw [← kept, absorbed.held]
    exact (List.take_of_length_le (Nat.le_of_eq (absorbed.held ▸ size))).symm
  have one : (rest ++ data).length = kBlockBytes * 1 := by
    rw [List.length_append, full, Nat.mul_one]
  obtain ⟨blocks, hashed⟩ := blocks_append reset.h absorbed.blocks one
  refine ⟨blocks, ?_, rfl, by decide, size, rfl⟩
  rw [← hashed, ← absorbed.h, ← buffer]

/-- More of the message. -/
theorem update_absorbs (absorbs : Absorbs s m) (data : Bytes) :
    Absorbs (s.update data) (m ++ data) := by
  obtain ⟨whole, rest, rfl, absorbed⟩ := absorbs
  unfold update
  by_cases nothing : data = []
  · rw [if_pos nothing, nothing, List.append_nil]
    exact ⟨whole, rest, rfl, absorbed⟩
  rw [if_neg nothing]
  dsimp only
  generalize s.bits + BitVec.ofNat 64 data.length * 8 = bits
  have counted : Absorbed { s with bits := bits } whole rest :=
    ⟨absorbed.blocks, absorbed.h, absorbed.held, absorbed.short, absorbed.size, absorbed.kept⟩
  by_cases partly : s.held ≠ 0
  · rw [if_pos partly]
    have held := absorbed.held
    have short := absorbed.short
    by_cases little : data.length < kBlockBytes - s.held
    · rw [if_pos little, List.take_length]
      have fits : s.held + data.length ≤ s.buf.length := by
        rw [absorbed.size]
        omega
      rw [if_pos (by omega)]
      refine ⟨whole, rest ++ data, List.append_assoc _ _ _, absorbed.blocks, absorbed.h, ?_, ?_,
        (copyTo_length fits).trans absorbed.size, ?_⟩
      · rw [List.length_append, held]
      · rw [List.length_append]
        omega
      · have kept := copyTo_take (s := { s with bits := bits }) fits
        rw [absorbed.kept] at kept
        exact kept
    · rw [if_neg little, if_neg (by omega)]
      have first : (data.take (kBlockBytes - s.held)).length = kBlockBytes - s.held := by
        rw [List.length_take]
        omega
      have full : rest.length + (data.take (kBlockBytes - s.held)).length = kBlockBytes := by
        rw [first]
        omega
      have filled := fill_absorbed counted full
      have more := updateWhole_absorbed filled (data.drop (kBlockBytes - s.held))
      refine ⟨_, _, ?_, more⟩
      simp only [List.append_assoc, List.take_append_drop]
  · rw [if_neg partly]
    have empty : rest = [] := by
      apply List.eq_nil_of_length_eq_zero
      rw [← absorbed.held]
      exact not_not.mp partly
    subst empty
    refine ⟨_, _, ?_, updateWhole_absorbed counted data⟩
    rw [List.append_nil, List.append_assoc, List.take_append_drop]

/-- The count of bits, whatever is held. -/
theorem update_bits (s : Sha256) (data : Bytes) :
    (s.update data).bits = s.bits + BitVec.ofNat 64 data.length * 8 := by
  have wholeBits : ∀ (t : Sha256) (d : Bytes), (t.updateWhole d).bits = t.bits := by
    intro t d
    unfold updateWhole
    dsimp only
    by_cases large : kBlockBytes ≤ d.length
    · simp only [if_pos large]
      split <;> rfl
    · simp only [if_neg large]
      split <;> rfl
  unfold update
  by_cases nothing : data = []
  · rw [if_pos nothing, nothing]
    simp
  rw [if_neg nothing]
  dsimp only
  by_cases partly : s.held ≠ 0
  · rw [if_pos partly]
    generalize (if data.length < kBlockBytes - s.held then data.length
      else kBlockBytes - s.held) = take
    split
    · rfl
    · rw [wholeBits]
      rfl
  · rw [if_neg partly, wholeBits]

/-- Every piece of the message, empty ones included. -/
theorem updates_absorb {chunks : List Bytes} : ∀ {s : Sha256} {m : Bytes}, Absorbs s m →
    s.bits = BitVec.ofNat 64 (8 * m.length) →
    Absorbs (chunks.foldl update s) (m ++ chunks.flatten) ∧
      (chunks.foldl update s).bits = BitVec.ofNat 64 (8 * (m ++ chunks.flatten).length) := by
  induction chunks with
  | nil =>
      intro s m absorbs bits
      rw [List.flatten_nil, List.append_nil]
      exact ⟨absorbs, bits⟩
  | cons data chunks inductionHypothesis =>
      intro s m absorbs bits
      rw [List.foldl_cons, List.flatten_cons, ← List.append_assoc]
      apply inductionHypothesis (update_absorbs absorbs data)
      rw [update_bits, bits, List.length_append, Nat.mul_add, BitVec.ofNat_add]
      congr 1
      rw [Nat.mul_comm 8, BitVec.ofNat_mul]
      rfl

/-! ## Finishing it -/

/-- What is held is what a message leaves over. -/
theorem Absorbs.held (absorbs : Absorbs s m) : s.held = m.length % kBlockBytes := by
  obtain ⟨whole, rest, rfl, absorbed⟩ := absorbs
  rw [absorbed.held, List.length_append, absorbed.blocks, Nat.mul_add_mod,
    Nat.mod_eq_of_lt absorbed.short]

/-- The bit count absorbs nothing. -/
theorem Absorbs.setBits (absorbs : Absorbs s m) (bits : BitVec 64) :
    Absorbs { s with bits := bits } m := by
  obtain ⟨whole, rest, same, absorbed⟩ := absorbs
  exact ⟨whole, rest, same, absorbed.blocks, absorbed.h, absorbed.held, absorbed.short,
    absorbed.size, absorbed.kept⟩

/-- How many zero bytes bring a message to where its length goes. -/
def fillUp (length : Nat) : Nat :=
  (56 + kBlockBytes - length % kBlockBytes) % kBlockBytes

/-- The zeros are fed one by one until the length's place is reached. -/
theorem padLoop_absorbs (bits : BitVec 64) {rounds : Nat} : ∀ {s : Sha256} {m : Bytes},
    Absorbs s m → fillUp m.length ≤ rounds →
    Absorbs (padLoop bits rounds s) (m ++ List.replicate (fillUp m.length) 0) := by
  induction rounds with
  | zero =>
      intro s m absorbs enough
      rw [Nat.le_zero.mp enough]
      rw [List.replicate_zero, List.append_nil]
      exact absorbs
  | succ rounds inductionHypothesis =>
      intro s m absorbs enough
      have held := absorbs.held
      have inside : m.length % kBlockBytes < kBlockBytes := Nat.mod_lt _ (by decide)
      unfold padLoop
      by_cases there : s.held = kBlockBytes - 8
      · have none : fillUp m.length = 0 := by
          unfold fillUp
          rw [← held, there]
          rfl
        rw [if_neg (not_not.mpr there), none, List.replicate_zero, List.append_nil]
        exact absorbs
      · rw [if_pos there]
        have one : fillUp m.length = fillUp (m ++ [0]).length + 1 := by
          rw [List.length_append, List.length_singleton]
          unfold fillUp kBlockBytes at *
          omega
        have next := inductionHypothesis ((update_absorbs absorbs [0]).setBits bits)
          (by omega)
        have split : m ++ List.replicate (fillUp m.length) 0 =
            m ++ [0] ++ List.replicate (fillUp (m ++ [0]).length) 0 := by
          rw [one, List.replicate_succ, List.append_assoc]
          rfl
        rw [split]
        exact next

/-- Bytes written where a partial block ends. -/
theorem copies_held {bytes : Bytes} : ∀ {s : Sha256}, s.held + bytes.length ≤ s.buf.length →
    (bytes.foldl (fun s c => { s.copyTo s.held [c] with held := s.held + 1 }) s).h = s.h ∧
      (bytes.foldl (fun s c => { s.copyTo s.held [c] with held := s.held + 1 }) s).buf.length =
        s.buf.length ∧
      (bytes.foldl (fun s c => { s.copyTo s.held [c] with held := s.held + 1 }) s).buf.take
          (s.held + bytes.length) = s.buf.take s.held ++ bytes := by
  induction bytes with
  | nil =>
      intro s fits
      exact ⟨rfl, rfl, (List.append_nil _).symm⟩
  | cons c bytes inductionHypothesis =>
      intro s fits
      rw [List.length_cons] at fits
      have one : s.held + [c].length ≤ s.buf.length := by
        rw [List.length_singleton]
        omega
      have size := copyTo_length one
      obtain ⟨h, length, kept⟩ := inductionHypothesis
        (s := { s.copyTo s.held [c] with held := s.held + 1 }) (by
          change s.held + 1 + bytes.length ≤ (s.copyTo s.held [c]).buf.length
          rw [size]
          omega)
      rw [List.foldl_cons]
      refine ⟨h, length.trans size, ?_⟩
      have place : s.held + (c :: bytes).length = s.held + 1 + bytes.length := by
        rw [List.length_cons]
        omega
      rw [place, kept]
      change (s.copyTo s.held [c]).buf.take (s.held + 1) ++ bytes = _
      have copied := copyTo_take one
      rw [List.length_singleton] at copied
      rw [copied, List.append_assoc]
      rfl

/-! ## The padded message and the digest -/

/-- The bits of a number's bytes, the highest byte first. -/
theorem bytesBits_lowBytes {w : Nat} (v : BitVec w) (n : Nat) :
    bytesBits ((List.range n).reverse.map fun i => lowByte (v >>> (i * 8))) =
      bitsOf (8 * n) v.toNat := by
  induction n with
  | zero => rfl
  | succ n inductionHypothesis =>
      have byte : (lowByte (v >>> (n * 8))).toNat = v.toNat / 2 ^ (8 * n) % 2 ^ 8 := by
        unfold lowByte
        rw [UInt8.toNat_ofBitVec, BitVec.toNat_setWidth, BitVec.toNat_ushiftRight,
          Nat.shiftRight_eq_div_pow, Nat.mul_comm n]
      rw [List.range_succ, List.reverse_concat, List.map_cons, bytesBits_cons,
        inductionHypothesis, byte, Fips180.bitsOf_mod, Nat.mul_succ, Nat.add_comm,
        Fips180.bitsOf_add]

/-- A word is written with its most significant bit first. -/
theorem putBe32_bits (v : Word) : bytesBits (putBe32 v) = bitsOf 32 v.toNat := by
  have bytes : putBe32 v = (List.range 4).reverse.map fun i => lowByte (v >>> (i * 8)) := by
    change _ = [lowByte (v >>> 24), lowByte (v >>> 16), lowByte (v >>> 8), lowByte (v >>> 0)]
    rw [BitVec.ushiftRight_zero]
    rfl
  rw [bytes]
  exact bytesBits_lowBytes v 4

/-- The eight bytes that `finish` writes behind the padding. -/
def lengthBytes (bits : BitVec 64) : Bytes :=
  [7, 6, 5, 4, 3, 2, 1, 0].map fun i => lowByte (bits >>> (i * 8))

/-- The bits of zero bytes are zero. -/
theorem bytesBits_zeros (n : Nat) :
    bytesBits (List.replicate n 0) = List.replicate (8 * n) false := by
  induction n with
  | zero => rfl
  | succ n inductionHypothesis =>
      rw [List.replicate_succ, bytesBits_cons, inductionHypothesis, Nat.mul_succ,
        Nat.add_comm, List.replicate_add]
      rfl

/-- The message with its padding, as the code makes it. -/
def padded (m : Bytes) : Bytes :=
  m ++ [0x80] ++ List.replicate (fillUp (m.length + 1)) 0 ++
    lengthBytes (BitVec.ofNat 64 (8 * m.length))

/-- It is the standard's. -/
theorem padded_bits (m : Bytes) (short : m.length < 2 ^ 61) :
    bytesBits (padded m) = Fips180.pad (bytesBits m) := by
  have count : (BitVec.ofNat 64 (8 * m.length)).toNat = 8 * m.length := by
    rw [BitVec.toNat_ofNat]
    apply Nat.mod_eq_of_lt
    omega
  have length : bytesBits (lengthBytes (BitVec.ofNat 64 (8 * m.length))) =
      bitsOf 64 (8 * m.length) := by
    have bits := bytesBits_lowBytes (BitVec.ofNat 64 (8 * m.length)) 8
    rw [count] at bits
    exact bits
  have zeros : Fips180.zeros (8 * m.length) = 7 + 8 * fillUp (m.length + 1) := by
    unfold Fips180.zeros fillUp kBlockBytes
    omega
  have one : bytesBits [0x80] = true :: List.replicate 7 false := by decide
  unfold padded Fips180.pad
  rw [bytesBits_append, bytesBits_append, bytesBits_append, one, bytesBits_zeros, length,
    bytesBits_length, zeros, List.replicate_add]
  simp only [List.append_assoc, List.cons_append]

/-- A padded message is whole blocks. -/
theorem padded_length (m : Bytes) :
    (padded m).length = kBlockBytes * ((padded m).length / kBlockBytes) := by
  have whole : (padded m).length % kBlockBytes = 0 := by
    unfold padded
    rw [List.length_append, List.length_append, List.length_append, List.length_replicate]
    change (m.length + 1 + fillUp (m.length + 1) + 8) % kBlockBytes = 0
    unfold fillUp kBlockBytes
    omega
  have split := Nat.div_add_mod (padded m).length kBlockBytes
  rw [whole, Nat.add_zero] at split
  exact split.symm

/-- The loop of `finish` that writes the length writes those bytes one after another. -/
theorem lengthBytes_foldl (bits : BitVec 64) (t : Sha256) :
    [7, 6, 5, 4, 3, 2, 1, 0].foldl
        (fun s i => { s.copyTo s.held [lowByte (bits >>> (i * 8))] with held := s.held + 1 }) t =
      (lengthBytes bits).foldl
        (fun s c => { s.copyTo s.held [c] with held := s.held + 1 }) t := by
  unfold lengthBytes
  rw [List.foldl_map]

/-- The length fills up the last block. -/
theorem lengthBytes_absorbed (bits : BitVec 64) (absorbs : Absorbs s m)
    (place : m.length % kBlockBytes = 56) :
    compressBlocks
        ((lengthBytes bits).foldl
          (fun s c => { s.copyTo s.held [c] with held := s.held + 1 }) s).h
        ((lengthBytes bits).foldl
          (fun s c => { s.copyTo s.held [c] with held := s.held + 1 }) s).buf 1 =
      compressBlocks reset.h (m ++ lengthBytes bits)
        ((m ++ lengthBytes bits).length / kBlockBytes) := by
  have held := absorbs.held
  obtain ⟨whole, rest, rfl, absorbed⟩ := absorbs
  have eight : (lengthBytes bits).length = 8 := rfl
  have full : s.held + (lengthBytes bits).length = kBlockBytes := by
    rw [held, place, eight]
    rfl
  obtain ⟨h, size, kept⟩ := @copies_held (lengthBytes bits) s
    (by rw [full, absorbed.size])
  rw [full, absorbed.kept, List.take_of_length_le (Nat.le_of_eq (size.trans absorbed.size))]
    at kept
  have one : (rest ++ lengthBytes bits).length = kBlockBytes * 1 := by
    rw [List.length_append, ← absorbed.held, full, Nat.mul_one]
  rw [h, kept, absorbed.h, (blocks_append reset.h absorbed.blocks one).2, List.append_assoc]

/-- The digest is made from the blocks of the padded message. -/
theorem finish_hash (absorbs : Absorbs s m) (bits : s.bits = BitVec.ofNat 64 (8 * m.length)) :
    s.finish.1 =
      (let h := compressBlocks reset.h (padded m) ((padded m).length / kBlockBytes)
       [h.a, h.b, h.c, h.d, h.e, h.f, h.g, h.h].flatMap putBe32) := by
  have ended := (update_absorbs absorbs [0x80]).setBits s.bits
  have length : (m ++ ([0x80] : Bytes)).length = m.length + 1 := by
    rw [List.length_append, List.length_singleton]
  have enough : fillUp (m ++ ([0x80] : Bytes)).length ≤ kBlockBytes := by
    exact Nat.le_of_lt (Nat.mod_lt _ (by decide))
  have zeros := padLoop_absorbs s.bits ended enough
  have place :
      (m ++ ([0x80] : Bytes) ++
        List.replicate (fillUp (m ++ ([0x80] : Bytes)).length) 0).length %
        kBlockBytes = 56 := by
    rw [List.length_append, List.length_replicate]
    unfold fillUp kBlockBytes
    omega
  have last := lengthBytes_absorbed s.bits zeros place
  unfold finish padded
  dsimp only
  rw [lengthBytes_foldl, last, ← bits, ← length]

/-- Whatever pieces a message is fed in, the digest is the standard's, and the object is
left as it was constructed. -/
theorem finish_sha256 (chunks : List Bytes) (short : chunks.flatten.length < 2 ^ 61) :
    bytesBits (chunks.foldl update reset).finish.1 =
        Fips180.sha256 (bytesBits chunks.flatten) ∧
      (chunks.foldl update reset).finish.1.length = 32 ∧
      (chunks.foldl update reset).finish.2 = reset := by
  obtain ⟨absorbs, bits⟩ := @updates_absorb chunks reset [] Absorbs.fresh rfl
  rw [List.nil_append] at absorbs bits
  have blocks := padded_length chunks.flatten
  have number : (bytesBits (padded chunks.flatten)).length / 512 =
      (padded chunks.flatten).length / kBlockBytes := by
    rw [bytesBits_length]
    unfold kBlockBytes
    omega
  have hash : compressBlocks reset.h (padded chunks.flatten)
        ((padded chunks.flatten).length / kBlockBytes) =
      (List.range ((Fips180.pad (bytesBits chunks.flatten)).length / 512)).foldl
        (fun s i => Fips180.compress s (Fips180.block (Fips180.pad (bytesBits chunks.flatten)) i))
        Fips180.initial := by
    rw [← padded_bits _ short, number, compressBlocks_eq _ _ _ (Nat.le_of_eq blocks.symm),
      reset_h]
  rw [finish_hash absorbs bits]
  refine ⟨?_, rfl, rfl⟩
  unfold Fips180.sha256
  dsimp only
  rw [← hash]
  simp [Fips180.Hash.bits, putBe32_bits]

/-- The standard's first example. -/
example : (reset.update [97, 98, 99]).finish.1 =
    [0xba, 0x78, 0x16, 0xbf, 0x8f, 0x01, 0xcf, 0xea, 0x41, 0x41, 0x40, 0xde, 0x5d, 0xae, 0x22,
      0x23, 0xb0, 0x03, 0x61, 0xa3, 0x96, 0x17, 0x7a, 0x9c, 0xb4, 0x10, 0xff, 0x61, 0xf2, 0x00,
      0x15, 0xad] := by
  decide +kernel

/-- Three bytes fed one by one, with nothing between them. -/
theorem finish_sha256_abc :
    [[97], [], [98], [99]].flatten.length < 2 ^ 61 ∧
      ([[97], [], [98], [99]].foldl update reset).finish.2 = reset :=
  ⟨by decide, (finish_sha256 [[97], [], [98], [99]] (by decide)).2.2⟩

end Sha256

end Net
end Llmbridge
