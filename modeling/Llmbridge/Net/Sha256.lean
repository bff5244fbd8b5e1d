import Llmbridge.Edits
import Llmbridge.Fips180.Sha256
import Llmbridge.Rfc8259.Grammar

/-!
# The gateway's SHA-256

`net/src/sha256.cpp` with its table in `net/src/sha256_tables.hpp`: the class that a message
is fed to piece by piece, with the scalar block function.
-/

namespace Llmbridge
namespace Net

open Rfc8259 (Byte Bytes)
open Fips180 (Word Hash)

/-! ## The block function -/

/-- `rotr`. -/
def rotr (x : Word) (n : Nat) : Word :=
  (x >>> n) ||| (x <<< (32 - n))

/-- `ch`. -/
def ch (x y z : Word) : Word :=
  (x &&& y) ^^^ (~~~x &&& z)

/-- `maj`. -/
def maj (x y z : Word) : Word :=
  (x &&& y) ^^^ (x &&& z) ^^^ (y &&& z)

/-- `bsig0`. -/
def bsig0 (x : Word) : Word :=
  rotr x 2 ^^^ rotr x 13 ^^^ rotr x 22

/-- `bsig1`. -/
def bsig1 (x : Word) : Word :=
  rotr x 6 ^^^ rotr x 11 ^^^ rotr x 25

/-- `ssig0`. -/
def ssig0 (x : Word) : Word :=
  rotr x 7 ^^^ rotr x 18 ^^^ (x >>> 3)

/-- `ssig1`. -/
def ssig1 (x : Word) : Word :=
  rotr x 17 ^^^ rotr x 19 ^^^ (x >>> 10)

/-- A byte as a word. -/
def word (c : Byte) : Word :=
  c.toBitVec.setWidth 32

/-- `be32`, of the four bytes at `at`. -/
def be32 (p : Bytes) («at» : Nat) : Word :=
  (word (p.getD «at» 0) <<< 24) ||| (word (p.getD («at» + 1) 0) <<< 16) |||
    (word (p.getD («at» + 2) 0) <<< 8) ||| word (p.getD («at» + 3) 0)

/-- The low byte of a word. -/
def lowByte {w : Nat} (v : BitVec w) : Byte :=
  UInt8.ofBitVec (v.setWidth 8)

/-- `put_be32`. -/
def putBe32 (v : Word) : Bytes :=
  [lowByte (v >>> 24), lowByte (v >>> 16), lowByte (v >>> 8), lowByte v]

/-- `kK`. -/
def kK : List Word :=
  [0x428a2f98, 0x71374491, 0xb5c0fbcf, 0xe9b5dba5, 0x3956c25b, 0x59f111f1,
    0x923f82a4, 0xab1c5ed5, 0xd807aa98, 0x12835b01, 0x243185be, 0x550c7dc3,
    0x72be5d74, 0x80deb1fe, 0x9bdc06a7, 0xc19bf174, 0xe49b69c1, 0xefbe4786,
    0x0fc19dc6, 0x240ca1cc, 0x2de92c6f, 0x4a7484aa, 0x5cb0a9dc, 0x76f988da,
    0x983e5152, 0xa831c66d, 0xb00327c8, 0xbf597fc7, 0xc6e00bf3, 0xd5a79147,
    0x06ca6351, 0x14292967, 0x27b70a85, 0x2e1b2138, 0x4d2c6dfc, 0x53380d13,
    0x650a7354, 0x766a0abb, 0x81c2c92e, 0x92722c85, 0xa2bfe8a1, 0xa81a664b,
    0xc24b8b70, 0xc76c51a3, 0xd192e819, 0xd6990624, 0xf40e3585, 0x106aa070,
    0x19a4c116, 0x1e376c08, 0x2748774c, 0x34b0bcb5, 0x391c0cb3, 0x4ed8aa4a,
    0x5b9cca4f, 0x682e6ff3, 0x748f82ee, 0x78a5636f, 0x84c87814, 0x8cc70208,
    0x90befffa, 0xa4506ceb, 0xbef9a3f7, 0xc67178f2]

/-- The words of a block, with those that the second loop of `compress_one` appends. -/
def scheduleLoop (block : Bytes) (rounds : Nat) : List Word :=
  (List.range' 16 rounds).foldl
    (fun w i =>
      w ++ [ssig1 (w.getD (i - 2) 0) + w.getD (i - 7) 0 + ssig0 (w.getD (i - 15) 0) +
        w.getD (i - 16) 0])
    ((List.range 16).map fun i => be32 block (i * 4))

/-- One turn of the third loop of `compress_one`. -/
def roundStep (k w : Word) (v : Hash) : Hash :=
  let t1 := v.h + bsig1 v.e + ch v.e v.f v.g + k + w
  let t2 := bsig0 v.a + maj v.a v.b v.c
  { h := v.g, g := v.f, f := v.e, e := v.d + t1, d := v.c, c := v.b, b := v.a, a := t1 + t2 }

/-- `compress_one`. -/
def compressOne (h : Hash) (block : Bytes) : Hash :=
  let w := scheduleLoop block 48
  let v := (List.range 64).foldl (fun v i => roundStep (kK.getD i 0) (w.getD i 0) v) h
  { a := h.a + v.a, b := h.b + v.b, c := h.c + v.c, d := h.d + v.d
    e := h.e + v.e, f := h.f + v.f, g := h.g + v.g, h := h.h + v.h }

/-- `kBlockBytes`. -/
def kBlockBytes : Nat := 64

/-- `compress_blocks_scalar`. -/
def compressBlocks (h : Hash) (p : Bytes) : (blocks : Nat) → Hash
  | 0 => h
  | blocks + 1 => compressBlocks (compressOne h p) (p.drop kBlockBytes) blocks

/-! ## The class -/

/-- `Sha256`. -/
structure Sha256 where
  h : Hash
  buf : Bytes
  bits : BitVec 64
  held : Nat
  deriving DecidableEq, Repr

namespace Sha256

/-- `reset`, and what is constructed. -/
def reset : Sha256 where
  h :=
    { a := 0x6a09e667, b := 0xbb67ae85, c := 0x3c6ef372, d := 0xa54ff53a
      e := 0x510e527f, f := 0x9b05688c, g := 0x1f83d9ab, h := 0x5be0cd19 }
  buf := List.replicate kBlockBytes 0
  bits := 0
  held := 0

/-- `memcpy` into the buffer at `at`. -/
def copyTo (s : Sha256) («at» : Nat) (data : Bytes) : Sha256 :=
  { s with buf := s.buf.take «at» ++ data ++ s.buf.drop («at» + data.length) }

/-- The part of `update` for what a partial block leaves: whole blocks from the caller's
buffer, and the rest held. -/
def updateWhole (s : Sha256) (data : Bytes) : Sha256 :=
  let blocks := data.length / kBlockBytes
  let whole : Sha256 × Bytes :=
    if kBlockBytes ≤ data.length then
      ({ s with h := compressBlocks s.h data blocks }, data.drop (blocks * kBlockBytes))
    else (s, data)
  if whole.2 ≠ [] then { whole.1.copyTo 0 whole.2 with held := whole.2.length } else whole.1

/-- `update`. -/
def update (s : Sha256) (data : Bytes) : Sha256 :=
  if data = [] then s
  else
    let s := { s with bits := s.bits + BitVec.ofNat 64 data.length * 8 }
    if s.held ≠ 0 then
      let want := kBlockBytes - s.held
      let take := if data.length < want then data.length else want
      let s := { s.copyTo s.held (data.take take) with held := s.held + take }
      if s.held < kBlockBytes then s
      else updateWhole { s with h := compressBlocks s.h s.buf 1, held := 0 } (data.drop take)
    else updateWhole s data

/-- The loop of `finish` that fills up with zeros. -/
def padLoop (bits : BitVec 64) : (rounds : Nat) → Sha256 → Sha256
  | 0, s => s
  | rounds + 1, s =>
      if s.held ≠ kBlockBytes - 8 then
        padLoop bits rounds { s.update [0] with bits := bits }
      else s

/-- `finish`: the digest, and the object as it is left.  A block's worth of zeros brings the
padding where the length goes. -/
def finish (s : Sha256) : Bytes × Sha256 :=
  let bits := s.bits
  let s := { s.update [0x80] with bits := bits }
  let s := padLoop bits kBlockBytes s
  let s := [7, 6, 5, 4, 3, 2, 1, 0].foldl
    (fun s i => { s.copyTo s.held [lowByte (bits >>> (i * 8))] with held := s.held + 1 }) s
  let h := compressBlocks s.h s.buf 1
  ([h.a, h.b, h.c, h.d, h.e, h.f, h.g, h.h].flatMap putBe32, reset)

end Sha256
end Net
end Llmbridge
