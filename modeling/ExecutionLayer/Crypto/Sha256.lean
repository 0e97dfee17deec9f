import ExecutionLayer.Bytes

/-! # SHA-256

Blocks of 64 bytes, each compressed into eight words of 32 bits.
-/
namespace ExecutionLayer

namespace Sha256

structure Digest where
  (a b c d e f g h : UInt32)
deriving DecidableEq, Inhabited

def initial : Digest :=
  ⟨0x6a09e667, 0xbb67ae85, 0x3c6ef372, 0xa54ff53a, 0x510e527f, 0x9b05688c, 0x1f83d9ab, 0x5be0cd19⟩

def roundConstants : List UInt32 := [
  0x428a2f98, 0x71374491, 0xb5c0fbcf, 0xe9b5dba5, 0x3956c25b, 0x59f111f1, 0x923f82a4, 0xab1c5ed5,
  0xd807aa98, 0x12835b01, 0x243185be, 0x550c7dc3, 0x72be5d74, 0x80deb1fe, 0x9bdc06a7, 0xc19bf174,
  0xe49b69c1, 0xefbe4786, 0x0fc19dc6, 0x240ca1cc, 0x2de92c6f, 0x4a7484aa, 0x5cb0a9dc, 0x76f988da,
  0x983e5152, 0xa831c66d, 0xb00327c8, 0xbf597fc7, 0xc6e00bf3, 0xd5a79147, 0x06ca6351, 0x14292967,
  0x27b70a85, 0x2e1b2138, 0x4d2c6dfc, 0x53380d13, 0x650a7354, 0x766a0abb, 0x81c2c92e, 0x92722c85,
  0xa2bfe8a1, 0xa81a664b, 0xc24b8b70, 0xc76c51a3, 0xd192e819, 0xd6990624, 0xf40e3585, 0x106aa070,
  0x19a4c116, 0x1e376c08, 0x2748774c, 0x34b0bcb5, 0x391c0cb3, 0x4ed8aa4a, 0x5b9cca4f, 0x682e6ff3,
  0x748f82ee, 0x78a5636f, 0x84c87814, 0x8cc70208, 0x90befffa, 0xa4506ceb, 0xbef9a3f7, 0xc67178f2]

@[inline] def rotateRight (x n : UInt32) : UInt32 := (x >>> n) ||| (x <<< (32 - n))

def word (b : Bytes) (i : Nat) : UInt32 :=
  (b.get i).toUInt32 <<< 24 ||| (b.get (i + 1)).toUInt32 <<< 16 |||
  (b.get (i + 2)).toUInt32 <<< 8 ||| (b.get (i + 3)).toUInt32

def extendSchedule : Nat → Array UInt32 → Array UInt32
  | 0, w => w
  | n + 1, w =>
    let back (k : Nat) : UInt32 := w.getD (w.size - k) 0
    let s0 := rotateRight (back 15) 7 ^^^ rotateRight (back 15) 18 ^^^ (back 15 >>> 3)
    let s1 := rotateRight (back 2) 17 ^^^ rotateRight (back 2) 19 ^^^ (back 2 >>> 10)
    extendSchedule n (w.push (back 16 + s0 + back 7 + s1))

def schedule (b : Bytes) (start : Nat) : Array UInt32 :=
  extendSchedule 48 ((Array.range 16).map fun i => word b (start + 4 * i))

def step (s : Digest) (constant w : UInt32) : Digest :=
  let s1 := rotateRight s.e 6 ^^^ rotateRight s.e 11 ^^^ rotateRight s.e 25
  let choice := (s.e &&& s.f) ^^^ (~~~s.e &&& s.g)
  let t1 := s.h + s1 + choice + constant + w
  let s0 := rotateRight s.a 2 ^^^ rotateRight s.a 13 ^^^ rotateRight s.a 22
  let majority := (s.a &&& s.b) ^^^ (s.a &&& s.c) ^^^ (s.b &&& s.c)
  ⟨t1 + (s0 + majority), s.a, s.b, s.c, s.d + t1, s.e, s.f, s.g⟩

def compress (s : Digest) (b : Bytes) (start : Nat) : Digest :=
  let t := (roundConstants.zip (schedule b start).toList).foldl (fun t p => step t p.1 p.2) s
  ⟨s.a + t.a, s.b + t.b, s.c + t.c, s.d + t.d, s.e + t.e, s.f + t.f, s.g + t.g, s.h + t.h⟩

def blocks (b : Bytes) : Nat → Nat → Digest → Digest
  | 0, _, s => s
  | n + 1, start, s => blocks b n (start + 64) (compress s b start)

/-- The number of zero bytes between the mark after a message and its length. -/
def fill (size : Nat) : Nat := (119 - size % 64) % 64

def pad (b : Bytes) : Bytes :=
  b.push 0x80 ++ Bytes.zeros (fill b.size) ++ Bytes.ofNat 8 (8 * b.size)

def pushWord (b : Bytes) (x : UInt32) : Bytes :=
  (((b.push (x >>> 24).toUInt8).push (x >>> 16).toUInt8).push (x >>> 8).toUInt8).push x.toUInt8

end Sha256

def sha256 (b : Bytes) : Bytes :=
  let padded := Sha256.pad b
  let s := Sha256.blocks padded (padded.size / 64) 0 Sha256.initial
  [s.a, s.b, s.c, s.d, s.e, s.f, s.g, s.h].foldl Sha256.pushWord ByteArray.empty

end ExecutionLayer
