import ExecutionLayer.Bytes

/-! # RIPEMD-160

Blocks of 64 bytes, each compressed into five words of 32 bits along two lines whose results are
combined.
-/
namespace ExecutionLayer

namespace Ripemd160

structure Digest where
  (a b c d e : UInt32)
deriving DecidableEq, Inhabited

def initial : Digest := ⟨0x67452301, 0xefcdab89, 0x98badcfe, 0x10325476, 0xc3d2e1f0⟩

@[inline] def rotateLeft (x n : UInt32) : UInt32 := (x <<< n) ||| (x >>> (32 - n))

/-- A line: the order in which words are used, the rotations, the constants and the mixing
functions, of which there is one for each sixteen steps. -/
structure Line where
  words : List Nat
  rotations : List UInt32
  constants : List UInt32
  functions : List Nat

def left : Line where
  words := [
    0, 1, 2, 3, 4, 5, 6, 7, 8, 9, 10, 11, 12, 13, 14, 15,
    7, 4, 13, 1, 10, 6, 15, 3, 12, 0, 9, 5, 2, 14, 11, 8,
    3, 10, 14, 4, 9, 15, 8, 1, 2, 7, 0, 6, 13, 11, 5, 12,
    1, 9, 11, 10, 0, 8, 12, 4, 13, 3, 7, 15, 14, 5, 6, 2,
    4, 0, 5, 9, 7, 12, 2, 10, 14, 1, 3, 8, 11, 6, 15, 13]
  rotations := [
    11, 14, 15, 12, 5, 8, 7, 9, 11, 13, 14, 15, 6, 7, 9, 8,
    7, 6, 8, 13, 11, 9, 7, 15, 7, 12, 15, 9, 11, 7, 13, 12,
    11, 13, 6, 7, 14, 9, 13, 15, 14, 8, 13, 6, 5, 12, 7, 5,
    11, 12, 14, 15, 14, 15, 9, 8, 9, 14, 5, 6, 8, 6, 5, 12,
    9, 15, 5, 11, 6, 8, 13, 12, 5, 12, 13, 14, 11, 8, 5, 6]
  constants := [0x00000000, 0x5a827999, 0x6ed9eba1, 0x8f1bbcdc, 0xa953fd4e]
  functions := [0, 1, 2, 3, 4]

def right : Line where
  words := [
    5, 14, 7, 0, 9, 2, 11, 4, 13, 6, 15, 8, 1, 10, 3, 12,
    6, 11, 3, 7, 0, 13, 5, 10, 14, 15, 8, 12, 4, 9, 1, 2,
    15, 5, 1, 3, 7, 14, 6, 9, 11, 8, 12, 2, 10, 0, 4, 13,
    8, 6, 4, 1, 3, 11, 15, 0, 5, 12, 2, 13, 9, 7, 10, 14,
    12, 15, 10, 4, 1, 5, 8, 7, 6, 2, 13, 14, 0, 3, 9, 11]
  rotations := [
    8, 9, 9, 11, 13, 15, 15, 5, 7, 7, 8, 11, 14, 14, 12, 6,
    9, 13, 15, 7, 12, 8, 9, 11, 7, 7, 12, 7, 6, 15, 13, 11,
    9, 7, 15, 11, 8, 6, 6, 14, 12, 13, 5, 14, 13, 13, 7, 5,
    15, 5, 8, 11, 14, 14, 6, 14, 6, 9, 12, 9, 12, 5, 15, 8,
    8, 5, 12, 9, 12, 5, 14, 6, 8, 13, 6, 5, 15, 13, 11, 11]
  constants := [0x50a28be6, 0x5c4dd124, 0x6d703ef3, 0x7a6d76e9, 0x00000000]
  functions := [4, 3, 2, 1, 0]

def mixing (which : Nat) (x y z : UInt32) : UInt32 :=
  match which with
  | 0 => x ^^^ y ^^^ z
  | 1 => (x &&& y) ||| (~~~x &&& z)
  | 2 => (x ||| ~~~y) ^^^ z
  | 3 => (x &&& z) ||| (y &&& ~~~z)
  | _ => x ^^^ (y ||| ~~~z)

def step (which : Nat) (constant : UInt32) (s : Digest) (word rotation : UInt32) : Digest :=
  let t := rotateLeft (s.a + mixing which s.b s.c s.d + word + constant) rotation + s.e
  ⟨s.e, t, s.b, rotateLeft s.c 10, s.d⟩

def word (b : Bytes) (i : Nat) : UInt32 :=
  (b.get i).toUInt32 ||| (b.get (i + 1)).toUInt32 <<< 8 |||
  (b.get (i + 2)).toUInt32 <<< 16 ||| (b.get (i + 3)).toUInt32 <<< 24

def Line.run (line : Line) (b : Bytes) (start : Nat) (s : Digest) : Digest :=
  ((line.words.zip line.rotations).foldl
    (fun (state : Digest × Nat) p =>
      let part := state.2 / 16
      (step (line.functions.getD part 0) (line.constants.getD part 0) state.1
        (word b (start + 4 * p.1)) p.2, state.2 + 1))
    (s, 0)).1

def compress (s : Digest) (b : Bytes) (start : Nat) : Digest :=
  let l := left.run b start s
  let r := right.run b start s
  ⟨s.b + l.c + r.d, s.c + l.d + r.e, s.d + l.e + r.a, s.e + l.a + r.b, s.a + l.b + r.c⟩

def blocks (b : Bytes) : Nat → Nat → Digest → Digest
  | 0, _, s => s
  | n + 1, start, s => blocks b n (start + 64) (compress s b start)

def pad (b : Bytes) : Bytes :=
  b.push 0x80 ++ Bytes.zeros ((119 - b.size % 64) % 64) ++ Bytes.ofNatLittle 8 (8 * b.size)

def pushWord (b : Bytes) (x : UInt32) : Bytes :=
  (((b.push x.toUInt8).push (x >>> 8).toUInt8).push (x >>> 16).toUInt8).push (x >>> 24).toUInt8

end Ripemd160

def ripemd160 (b : Bytes) : Bytes :=
  let padded := Ripemd160.pad b
  let s := Ripemd160.blocks padded (padded.size / 64) 0 Ripemd160.initial
  [s.a, s.b, s.c, s.d, s.e].foldl Ripemd160.pushWord ByteArray.empty

end ExecutionLayer
