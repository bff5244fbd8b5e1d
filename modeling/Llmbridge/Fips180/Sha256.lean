import Llmbridge.Transition.Runs

/-!
# SHA-256

The hash of a string of bits as FIPS 180-4 defines it: the functions and constants of
section 4, the padding and parsing of section 5 and the computation of section 6.2.  A
string of bits is read with its first bit as the highest.
-/

namespace Llmbridge
namespace Fips180

/-- A string of bits. -/
abbrev Bits := List Bool

/-- A word of SHA-256. -/
abbrev Word := BitVec 32

/-! ## Strings of bits as numbers -/

/-- The number that a string of bits represents. -/
def value : Bits → Nat
  | [] => 0
  | b :: bits => b.toNat * 2 ^ bits.length + value bits

/-- The last `n` bits of a number. -/
def bitsOf (n v : Nat) : Bits :=
  (List.range n).map fun i => v.testBit (n - 1 - i)

@[simp] theorem bitsOf_length (n v : Nat) : (bitsOf n v).length = n := by
  simp [bitsOf]

theorem value_append (first second : Bits) :
    value (first ++ second) = value first * 2 ^ second.length + value second := by
  induction first with
  | nil => simp [value]
  | cons b first inductionHypothesis =>
      rw [List.cons_append, value, inductionHypothesis, value, List.length_append, Nat.pow_add]
      ring

theorem bitsOf_succ (n v : Nat) : bitsOf (n + 1) v = v.testBit n :: bitsOf n v := by
  unfold bitsOf
  rw [List.range_succ_eq_map, List.map_cons, List.map_map]
  congr 1
  apply List.map_congr_left
  intro i inside
  change v.testBit (n + 1 - 1 - (i + 1)) = v.testBit (n - 1 - i)
  congr 1
  omega

theorem value_bitsOf (n v : Nat) : value (bitsOf n v) = v % 2 ^ n := by
  induction n with
  | zero => simp [bitsOf, value, Nat.mod_one]
  | succ n inductionHypothesis =>
      rw [bitsOf_succ, value, inductionHypothesis, bitsOf_length, Nat.toNat_testBit,
        Nat.pow_succ, Nat.mod_mul, Nat.mul_comm, Nat.add_comm]

theorem bitsOf_mod (n v : Nat) : bitsOf n (v % 2 ^ n) = bitsOf n v := by
  unfold bitsOf
  apply List.map_congr_left
  intro i inside
  rw [List.mem_range] at inside
  rw [Nat.testBit_mod_two_pow, decide_eq_true (by omega), Bool.true_and]

/-- The bits of a number are those of its higher part and then those of its lower one. -/
theorem bitsOf_add (m n v : Nat) : bitsOf (m + n) v = bitsOf m (v / 2 ^ n) ++ bitsOf n v := by
  induction m with
  | zero => simp [bitsOf]
  | succ m inductionHypothesis =>
      rw [Nat.succ_add, bitsOf_succ, bitsOf_succ, inductionHypothesis, Nat.testBit_div_two_pow]
      rfl

/-! ## Functions -/

/-- `ROTR`. -/
def rotr (n : Nat) (x : Word) : Word :=
  x.rotateRight n

/-- `SHR`. -/
def shr (n : Nat) (x : Word) : Word :=
  x >>> n

/-- `Ch`. -/
def ch (x y z : Word) : Word :=
  (x &&& y) ^^^ (~~~x &&& z)

/-- `Maj`. -/
def maj (x y z : Word) : Word :=
  (x &&& y) ^^^ (x &&& z) ^^^ (y &&& z)

/-- The first of the large sigmas. -/
def bigSigma0 (x : Word) : Word :=
  rotr 2 x ^^^ rotr 13 x ^^^ rotr 22 x

/-- The second of the large sigmas. -/
def bigSigma1 (x : Word) : Word :=
  rotr 6 x ^^^ rotr 11 x ^^^ rotr 25 x

/-- The first of the small sigmas. -/
def smallSigma0 (x : Word) : Word :=
  rotr 7 x ^^^ rotr 18 x ^^^ shr 3 x

/-- The second of the small sigmas. -/
def smallSigma1 (x : Word) : Word :=
  rotr 17 x ^^^ rotr 19 x ^^^ shr 10 x

/-! ## Constants -/

/-- The whole part of the `e`-th root of `n`, of which `r` is known and `bits` bits are not. -/
def root (e n : Nat) : (bits r : Nat) → Nat
  | 0, r => r
  | bits + 1, r => root e n bits (if (r + 2 ^ bits) ^ e ≤ n then r + 2 ^ bits else r)

/-- The first sixty-four prime numbers. -/
def primes : List Nat :=
  [2, 3, 5, 7, 11, 13, 17, 19, 23, 29, 31, 37, 41, 43, 47, 53, 59, 61, 67, 71, 73, 79, 83, 89,
    97, 101, 103, 107, 109, 113, 127, 131, 137, 139, 149, 151, 157, 163, 167, 173, 179, 181,
    191, 193, 197, 199, 211, 223, 227, 229, 233, 239, 241, 251, 257, 263, 269, 271, 277, 281,
    283, 293, 307, 311]

/-- The first thirty-two bits of the fractional part of the `e`-th root of `n`. -/
def fraction (e n : Nat) : Word :=
  BitVec.ofNat 32 (root e (n * 2 ^ (32 * e)) 37 0)

/-- `K`: from the cube roots of the first sixty-four prime numbers. -/
def K (t : Nat) : Word :=
  fraction 3 (primes.getD t 0)

/-- A hash value, and the eight working variables. -/
structure Hash where
  a : Word
  b : Word
  c : Word
  d : Word
  e : Word
  f : Word
  g : Word
  h : Word
  deriving DecidableEq, Repr

/-- The initial hash value: from the square roots of the first eight prime numbers. -/
def initial : Hash :=
  { a := fraction 2 2, b := fraction 2 3, c := fraction 2 5, d := fraction 2 7
    e := fraction 2 11, f := fraction 2 13, g := fraction 2 17, h := fraction 2 19 }

/-! ## Padding and parsing -/

/-- How many zeros follow the one behind a message of `l` bits. -/
def zeros (l : Nat) : Nat :=
  (448 + 512 - (l + 1) % 512) % 512

/-- The padded message. -/
def pad (message : Bits) : Bits :=
  message ++ true :: (List.replicate (zeros message.length) false ++ bitsOf 64 message.length)

/-- A block of the padded message. -/
def block (padded : Bits) (i : Nat) : Bits :=
  (padded.drop (512 * i)).take 512

/-- A word of a block. -/
def blockWord (block : Bits) (j : Nat) : Word :=
  BitVec.ofNat 32 (value ((block.drop (32 * j)).take 32))

/-! ## Computation -/

/-- The message schedule. -/
def schedule (block : Bits) (t : Nat) : Word :=
  if t < 16 then blockWord block t
  else
    smallSigma1 (schedule block (t - 2)) + schedule block (t - 7) +
      smallSigma0 (schedule block (t - 15)) + schedule block (t - 16)
  termination_by t
  decreasing_by all_goals omega

/-- One round with a constant and a word of the schedule. -/
def round (k w : Word) (s : Hash) : Hash :=
  let t1 := s.h + bigSigma1 s.e + ch s.e s.f s.g + k + w
  let t2 := bigSigma0 s.a + maj s.a s.b s.c
  { h := s.g, g := s.f, f := s.e, e := s.d + t1, d := s.c, c := s.b, b := s.a, a := t1 + t2 }

/-- The next intermediate hash value is the last one and the working variables added up. -/
def Hash.add (s t : Hash) : Hash :=
  { a := t.a + s.a, b := t.b + s.b, c := t.c + s.c, d := t.d + s.d
    e := t.e + s.e, f := t.f + s.f, g := t.g + s.g, h := t.h + s.h }

/-- The hash value after one more block. -/
def compress (s : Hash) (block : Bits) : Hash :=
  s.add ((List.range 64).foldl (fun v t => round (K t) (schedule block t) v) s)

/-- The eight words one after another. -/
def Hash.bits (s : Hash) : Bits :=
  [s.a, s.b, s.c, s.d, s.e, s.f, s.g, s.h].flatMap fun w => bitsOf 32 w.toNat

/-- The message digest. -/
def sha256 (message : Bits) : Bits :=
  let padded := pad message
  ((List.range (padded.length / 512)).foldl (fun s i => compress s (block padded i))
    initial).bits

end Fips180
end Llmbridge
