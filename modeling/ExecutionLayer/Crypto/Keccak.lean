import ExecutionLayer.Word

/-! # Keccak

The sponge over the permutation on twenty-five lanes of 64 bits, with the padding that starts with
a single one bit right after the message. The rate is what the digest leaves free: 200 bytes less
twice the digest's size.
-/
namespace ExecutionLayer

namespace Keccak

/-- The lanes of the permutation; the first index is the column and the second the row. -/
structure Lanes where
  (a00 a10 a20 a30 a40 : UInt64)
  (a01 a11 a21 a31 a41 : UInt64)
  (a02 a12 a22 a32 a42 : UInt64)
  (a03 a13 a23 a33 a43 : UInt64)
  (a04 a14 a24 a34 a44 : UInt64)
deriving DecidableEq, Inhabited

def Lanes.zero : Lanes :=
  ⟨0, 0, 0, 0, 0, 0, 0, 0, 0, 0, 0, 0, 0, 0, 0, 0, 0, 0, 0, 0, 0, 0, 0, 0, 0⟩

@[inline] def rotate (x : UInt64) (n : UInt64) : UInt64 := (x <<< n) ||| (x >>> (64 - n))

def roundConstants : List UInt64 := [
  0x0000000000000001, 0x0000000000008082, 0x800000000000808a,
  0x8000000080008000, 0x000000000000808b, 0x0000000080000001,
  0x8000000080008081, 0x8000000000008009, 0x000000000000008a,
  0x0000000000000088, 0x0000000080008009, 0x000000008000000a,
  0x000000008000808b, 0x800000000000008b, 0x8000000000008089,
  0x8000000000008003, 0x8000000000008002, 0x8000000000000080,
  0x000000000000800a, 0x800000008000000a, 0x8000000080008081,
  0x8000000000008080, 0x0000000080000001, 0x8000000080008008]

/-- One round: column parities, rotated and moved lanes, rows combined, round constant. -/
def round (s : Lanes) (constant : UInt64) : Lanes :=
  let c0 := s.a00 ^^^ s.a01 ^^^ s.a02 ^^^ s.a03 ^^^ s.a04
  let c1 := s.a10 ^^^ s.a11 ^^^ s.a12 ^^^ s.a13 ^^^ s.a14
  let c2 := s.a20 ^^^ s.a21 ^^^ s.a22 ^^^ s.a23 ^^^ s.a24
  let c3 := s.a30 ^^^ s.a31 ^^^ s.a32 ^^^ s.a33 ^^^ s.a34
  let c4 := s.a40 ^^^ s.a41 ^^^ s.a42 ^^^ s.a43 ^^^ s.a44
  let d0 := c4 ^^^ rotate c1 1
  let d1 := c0 ^^^ rotate c2 1
  let d2 := c1 ^^^ rotate c3 1
  let d3 := c2 ^^^ rotate c4 1
  let d4 := c3 ^^^ rotate c0 1
  let b00 := s.a00 ^^^ d0
  let b02 := rotate (s.a10 ^^^ d1) 1
  let b04 := rotate (s.a20 ^^^ d2) 62
  let b01 := rotate (s.a30 ^^^ d3) 28
  let b03 := rotate (s.a40 ^^^ d4) 27
  let b13 := rotate (s.a01 ^^^ d0) 36
  let b10 := rotate (s.a11 ^^^ d1) 44
  let b12 := rotate (s.a21 ^^^ d2) 6
  let b14 := rotate (s.a31 ^^^ d3) 55
  let b11 := rotate (s.a41 ^^^ d4) 20
  let b21 := rotate (s.a02 ^^^ d0) 3
  let b23 := rotate (s.a12 ^^^ d1) 10
  let b20 := rotate (s.a22 ^^^ d2) 43
  let b22 := rotate (s.a32 ^^^ d3) 25
  let b24 := rotate (s.a42 ^^^ d4) 39
  let b34 := rotate (s.a03 ^^^ d0) 41
  let b31 := rotate (s.a13 ^^^ d1) 45
  let b33 := rotate (s.a23 ^^^ d2) 15
  let b30 := rotate (s.a33 ^^^ d3) 21
  let b32 := rotate (s.a43 ^^^ d4) 8
  let b42 := rotate (s.a04 ^^^ d0) 18
  let b44 := rotate (s.a14 ^^^ d1) 2
  let b41 := rotate (s.a24 ^^^ d2) 61
  let b43 := rotate (s.a34 ^^^ d3) 56
  let b40 := rotate (s.a44 ^^^ d4) 14
  { a00 := b00 ^^^ (~~~b10 &&& b20) ^^^ constant
    a10 := b10 ^^^ (~~~b20 &&& b30)
    a20 := b20 ^^^ (~~~b30 &&& b40)
    a30 := b30 ^^^ (~~~b40 &&& b00)
    a40 := b40 ^^^ (~~~b00 &&& b10)
    a01 := b01 ^^^ (~~~b11 &&& b21)
    a11 := b11 ^^^ (~~~b21 &&& b31)
    a21 := b21 ^^^ (~~~b31 &&& b41)
    a31 := b31 ^^^ (~~~b41 &&& b01)
    a41 := b41 ^^^ (~~~b01 &&& b11)
    a02 := b02 ^^^ (~~~b12 &&& b22)
    a12 := b12 ^^^ (~~~b22 &&& b32)
    a22 := b22 ^^^ (~~~b32 &&& b42)
    a32 := b32 ^^^ (~~~b42 &&& b02)
    a42 := b42 ^^^ (~~~b02 &&& b12)
    a03 := b03 ^^^ (~~~b13 &&& b23)
    a13 := b13 ^^^ (~~~b23 &&& b33)
    a23 := b23 ^^^ (~~~b33 &&& b43)
    a33 := b33 ^^^ (~~~b43 &&& b03)
    a43 := b43 ^^^ (~~~b03 &&& b13)
    a04 := b04 ^^^ (~~~b14 &&& b24)
    a14 := b14 ^^^ (~~~b24 &&& b34)
    a24 := b24 ^^^ (~~~b34 &&& b44)
    a34 := b34 ^^^ (~~~b44 &&& b04)
    a44 := b44 ^^^ (~~~b04 &&& b14) }

def permute (s : Lanes) : Lanes := roundConstants.foldl round s

def lane (b : Bytes) (i : Nat) : UInt64 :=
  (b.get i).toUInt64 ||| (b.get (i + 1)).toUInt64 <<< 8 |||
  (b.get (i + 2)).toUInt64 <<< 16 ||| (b.get (i + 3)).toUInt64 <<< 24 |||
  (b.get (i + 4)).toUInt64 <<< 32 ||| (b.get (i + 5)).toUInt64 <<< 40 |||
  (b.get (i + 6)).toUInt64 <<< 48 ||| (b.get (i + 7)).toUInt64 <<< 56

def addBlock (rate : Nat) (b : Bytes) (start : Nat) (s : Lanes) : Lanes :=
  let part (k : Nat) : UInt64 := if 8 * k < rate then lane b (start + 8 * k) else 0
  { a00 := s.a00 ^^^ part 0
    a10 := s.a10 ^^^ part 1
    a20 := s.a20 ^^^ part 2
    a30 := s.a30 ^^^ part 3
    a40 := s.a40 ^^^ part 4
    a01 := s.a01 ^^^ part 5
    a11 := s.a11 ^^^ part 6
    a21 := s.a21 ^^^ part 7
    a31 := s.a31 ^^^ part 8
    a41 := s.a41 ^^^ part 9
    a02 := s.a02 ^^^ part 10
    a12 := s.a12 ^^^ part 11
    a22 := s.a22 ^^^ part 12
    a32 := s.a32 ^^^ part 13
    a42 := s.a42 ^^^ part 14
    a03 := s.a03 ^^^ part 15
    a13 := s.a13 ^^^ part 16
    a23 := s.a23 ^^^ part 17
    a33 := s.a33 ^^^ part 18
    a43 := s.a43 ^^^ part 19
    a04 := s.a04 ^^^ part 20
    a14 := s.a14 ^^^ part 21
    a24 := s.a24 ^^^ part 22
    a34 := s.a34 ^^^ part 23
    a44 := s.a44 ^^^ part 24 }

def absorb (rate : Nat) (b : Bytes) : Nat → Nat → Lanes → Lanes
  | 0, _, s => s
  | blocks + 1, start, s =>
    absorb rate b blocks (start + rate) (permute (addBlock rate b start s))

def pad (rate : Nat) (b : Bytes) : Bytes :=
  let missing := rate - b.size % rate
  if missing = 1 then b.push 0x81
  else ((b.push 0x01) ++ Bytes.zeros (missing - 2)).push 0x80

def pushLane (b : Bytes) (x : UInt64) : Bytes :=
  ((((((((b.push x.toUInt8).push (x >>> 8).toUInt8).push (x >>> 16).toUInt8).push
    (x >>> 24).toUInt8).push (x >>> 32).toUInt8).push (x >>> 40).toUInt8).push
    (x >>> 48).toUInt8).push (x >>> 56).toUInt8)

def absorbAll (rate : Nat) (b : Bytes) : Lanes :=
  let padded := pad rate b
  absorb rate padded (padded.size / rate) 0 .zero

end Keccak

def keccak256Bytes (b : Bytes) : Bytes :=
  let s := Keccak.absorbAll 136 b
  [s.a00, s.a10, s.a20, s.a30].foldl Keccak.pushLane ByteArray.empty

def keccak256 (b : Bytes) : Hash := BitVec.ofNat 256 (keccak256Bytes b).toNat

def keccak512 (b : Bytes) : Bytes :=
  let s := Keccak.absorbAll 72 b
  [s.a00, s.a10, s.a20, s.a30, s.a40, s.a01, s.a11, s.a21].foldl Keccak.pushLane ByteArray.empty

end ExecutionLayer
