import ExecutionLayer.Crypto.Keccak

/-! # Digests along a list

The sponge looks up each byte of the message by its place. Here the message is a list that is
consumed lane by lane, which takes the kernel far fewer steps, so that the digests of whole headers
can be compared by evaluation.
-/
namespace ExecutionLayer

theorem Bytes.get_eq_getD (b : Bytes) (i : Nat) : b.get i = b.data.toList.getD i 0 := by
  rw [List.getD_eq_getElem?_getD, Array.getElem?_toList]
  unfold Bytes.get
  split
  · next h =>
    rw [Array.getElem?_eq_getElem h]
    rfl
  · next h =>
    rw [Array.getElem?_eq_none (Nat.le_of_not_lt h)]
    rfl

namespace Keccak

def Lanes.add (s : Lanes) (part : Nat → UInt64) : Lanes :=
  { a00 := s.a00 ^^^ part 0
    a10 := s.a10 ^^^ part 1
    a20 := s.a20 ^^^ part 2
    a30 := s.a30 ^^^ part 3
    a40 := s.a40 ^^^ part 4
    a01 := s.a01 ^^^ part 5
    a11 := s.a11 ^^^ part 6
    a21 := s.a21 ^^^ part 7
    a31 := s.a31 ^^^ part 8
    a41 := s.a41 ^^^ part 9
    a02 := s.a02 ^^^ part 10
    a12 := s.a12 ^^^ part 11
    a22 := s.a22 ^^^ part 12
    a32 := s.a32 ^^^ part 13
    a42 := s.a42 ^^^ part 14
    a03 := s.a03 ^^^ part 15
    a13 := s.a13 ^^^ part 16
    a23 := s.a23 ^^^ part 17
    a33 := s.a33 ^^^ part 18
    a43 := s.a43 ^^^ part 19
    a04 := s.a04 ^^^ part 20
    a14 := s.a14 ^^^ part 21
    a24 := s.a24 ^^^ part 22
    a34 := s.a34 ^^^ part 23
    a44 := s.a44 ^^^ part 24 }

theorem addBlock_eq_add (rate : Nat) (b : Bytes) (start : Nat) (s : Lanes) :
    addBlock rate b start s =
      s.add fun k => if 8 * k < rate then lane b (start + 8 * k) else 0 := rfl

def laneOf (l : List UInt8) : UInt64 :=
  (l.getD 0 0).toUInt64 ||| (l.getD 1 0).toUInt64 <<< 8 |||
  (l.getD 2 0).toUInt64 <<< 16 ||| (l.getD 3 0).toUInt64 <<< 24 |||
  (l.getD 4 0).toUInt64 <<< 32 ||| (l.getD 5 0).toUInt64 <<< 40 |||
  (l.getD 6 0).toUInt64 <<< 48 ||| (l.getD 7 0).toUInt64 <<< 56

theorem lane_eq_laneOf (b : Bytes) (i : Nat) : lane b i = laneOf (b.data.toList.drop i) := by
  simp only [lane, laneOf, Bytes.get_eq_getD, List.getD_eq_getElem?_getD, List.getElem?_drop,
    Nat.add_zero]

def lanesOf : Nat → List UInt8 → List UInt64
  | 0, _ => []
  | n + 1, l => laneOf l :: lanesOf n (l.drop 8)

theorem getD_lanesOf (n : Nat) (l : List UInt8) (k : Nat) :
    (lanesOf n l).getD k 0 = if k < n then laneOf (l.drop (8 * k)) else 0 := by
  induction n generalizing l k with
  | zero => rfl
  | succ n ih =>
    cases k with
    | zero => simp [lanesOf]
    | succ k =>
      rw [lanesOf, List.getD_cons_succ, ih, List.drop_drop]
      simp only [Nat.add_lt_add_iff_right, Nat.mul_succ, Nat.add_comm]

def absorbList : Nat → List UInt8 → Lanes → Lanes
  | 0, _, s => s
  | blocks + 1, l, s =>
    let lanes := lanesOf 17 l
    absorbList blocks (l.drop 136) (permute (s.add fun k => lanes.getD k 0))

theorem absorb_eq_absorbList (b : Bytes) (blocks start : Nat) (s : Lanes) :
    absorb 136 b blocks start s = absorbList blocks (b.data.toList.drop start) s := by
  induction blocks generalizing start s with
  | zero => rfl
  | succ blocks ih =>
    rw [absorb, absorbList, ih, List.drop_drop, addBlock_eq_add]
    congr 3
    funext k
    rw [getD_lanesOf, lane_eq_laneOf, List.drop_drop]
    by_cases hk : k < 17
    · rw [if_pos hk, if_pos (by omega)]
    · rw [if_neg hk, if_neg (by omega)]

def digest (b : Bytes) : Hash :=
  let padded := pad 136 b
  let s := absorbList (padded.size / 136) padded.data.toList .zero
  .ofNat 256 ([s.a00, s.a10, s.a20, s.a30].foldl pushLane ByteArray.empty).toNat

end Keccak

theorem keccak256_eq_digest (b : Bytes) : keccak256 b = Keccak.digest b := by
  unfold keccak256 keccak256Bytes Keccak.digest Keccak.absorbAll
  dsimp only
  rw [Keccak.absorb_eq_absorbList, List.drop_zero]

end ExecutionLayer
