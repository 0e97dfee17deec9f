import ExecutionLayer.Proofs.Crypto.Keccak
import ExecutionLayer.Proofs.Evm.Memory
import ExecutionLayer.Proofs.Rlp.Fields

/-! # Byte strings by place

A byte string has a byte at every place: behind its end there are zeros. Seen so, each operation on
strings says where the byte at a place comes from, and a number that is read from a string needs no
care for where the string ends.
-/
namespace ExecutionLayer.Bytes

theorem get_eq_getElem? (b : Bytes) (i : Nat) : b.get i = b.data[i]?.getD 0 := by
  rw [get_eq_getD, List.getD_eq_getElem?_getD, Array.getElem?_toList]

theorem get_of_size_le {b : Bytes} {i : Nat} (h : b.size ≤ i) : b.get i = 0 :=
  dif_neg (Nat.not_lt.mpr h)

theorem get_append (a b : Bytes) (i : Nat) :
    Bytes.get (a ++ b) i = if i < a.size then a.get i else b.get (i - a.size) := by
  rw [get_eq_getElem?, ByteArray.data_append, Array.getElem?_append, apply_ite (Option.getD · 0),
    get_eq_getElem?, get_eq_getElem?]
  rfl

theorem get_push (b : Bytes) (x : UInt8) (i : Nat) :
    Bytes.get (b.push x) i = if i = b.size then x else b.get i := by
  rw [get_eq_getElem?, ByteArray.data_push, Array.getElem?_push, apply_ite (Option.getD · 0),
    get_eq_getElem?]
  rfl

theorem append_zeros_zero (b : Bytes) : b ++ zeros 0 = b := by
  apply ByteArray.ext
  rw [ByteArray.data_append, data_zeros, Array.replicate_zero, Array.append_empty]

theorem get_extract (b : Bytes) (start stop i : Nat) :
    Bytes.get (b.extract start stop) i =
      if i < min stop b.size - start then b.get (start + i) else 0 := by
  rw [get_eq_getElem?, ByteArray.data_extract, Array.getElem?_extract, apply_ite (Option.getD · 0),
    get_eq_getElem?]
  rfl

theorem get_zeros (n i : Nat) : (zeros n).get i = 0 := by
  rw [get_eq_getElem?, data_zeros, Array.getElem?_replicate]
  split <;> rfl

theorem get_part (b : Bytes) (start stop i : Nat) :
    (b.part start stop).get i = if start + i < stop then b.get (start + i) else 0 := by
  unfold part
  rw [get_extract]
  by_cases hi : start + i < b.size
  · rw [Nat.min_eq_left (by omega : start ≤ b.size)]
    congr 1
    simp only [eq_iff_iff]
    omega
  · rw [get_of_size_le (Nat.le_of_not_lt hi), ite_self, if_neg (by omega)]

theorem get_read (b : Bytes) (start : Nat) {size i : Nat} (h : i < size) :
    (b.read start size).get i = b.get (start + i) := by
  have hpart : (b.part start (start + size)).get i = b.get (start + i) := by
    rw [get_part, if_pos (by omega)]
  unfold read padRight
  split
  · rw [get_append, get_zeros, hpart]
    split
    · rfl
    · next hi => rw [← hpart, get_of_size_le (Nat.le_of_not_lt hi)]
  · exact hpart

/-- However it is carried out, a write stands between what was before and behind its range. -/
theorem splice_eq (b : Bytes) (start : Nat) (value : Bytes) :
    b.splice start value = b.part 0 start ++ value ++ b.part (start + value.size) b.size := by
  unfold splice
  split
  · next h =>
    have hvalue : min value.size (value.data.size - 0) = value.size := Nat.min_self _
    rw [ByteArray.copySlice_eq_append, hvalue, Nat.zero_add, ByteArray.extract_zero_size]
    unfold part
    rw [Nat.zero_min, Nat.min_self, Nat.min_eq_left (by omega : start ≤ b.size), Nat.min_eq_left h]
    rfl
  · rfl

theorem get_splice {b value : Bytes} {start : Nat}
    (h : value.size = 0 ∨ start + value.size ≤ b.size) (i : Nat) :
    (b.splice start value).get i =
      if start ≤ i ∧ i < start + value.size then value.get (i - start) else b.get i := by
  have hsize : (b.part 0 start).size = min start b.size := by
    unfold part
    rw [ByteArray.size_extract]
    omega
  rw [splice_eq, get_append, get_append, get_part, get_part, ByteArray.size_append, hsize]
  by_cases hbefore : i < min start b.size
  · rw [if_pos (by omega), if_pos hbefore, if_pos (by omega), if_neg (by omega), Nat.zero_add]
  · by_cases hin : i < min start b.size + value.size
    · rw [if_pos hin, if_neg hbefore, if_pos (by omega), Nat.min_eq_left (by omega)]
    · -- Behind the range, where the rest of the string and then zeros follow.
      have houtside : ¬(start ≤ i ∧ i < start + value.size) := by omega
      rw [if_neg hin, if_neg houtside]
      by_cases hend : i < b.size
      · have hplace : start + value.size + (i - (min start b.size + value.size)) = i := by omega
        rw [hplace, if_pos hend]
      · rw [if_neg (by omega), get_of_size_le (Nat.le_of_not_lt hend)]

theorem ext_get {a b : Bytes} (hsize : a.size = b.size) (h : ∀ i < a.size, a.get i = b.get i) :
    a = b := by
  refine ByteArray.ext (Array.ext hsize fun i ha hb => ?_)
  have hget := h i ha
  rw [get, get, dif_pos (show i < a.size from ha), dif_pos (show i < b.size from hb)] at hget
  exact hget

theorem get_set! {b : Bytes} {k : Nat} (hk : k < b.size) (x : UInt8) (i : Nat) :
    Bytes.get (b.set! k x) i = if k = i then x else b.get i := by
  rw [get_eq_getElem?, get_eq_getElem?]
  change (b.data.setIfInBounds k x)[i]?.getD 0 = _
  rw [Array.getElem?_setIfInBounds, if_pos (show k < b.data.size from hk),
    apply_ite (Option.getD · 0)]
  rfl

/-- The number that the given number of bytes write from a place on. -/
def numberAt (b : Bytes) (start : Nat) : Nat → Nat
  | 0 => 0
  | size + 1 => b.numberAt start size * 256 + (b.get (start + size)).toNat

theorem numberAt_congr {a b : Bytes} {start start' size : Nat}
    (h : ∀ i < size, a.get (start + i) = b.get (start' + i)) :
    a.numberAt start size = b.numberAt start' size := by
  induction size with
  | zero => rfl
  | succ size ih =>
    rw [numberAt, numberAt, ih fun i hi => h i (by omega), h size (by omega)]

theorem numberAt_lt (b : Bytes) (start size : Nat) : b.numberAt start size < 256 ^ size := by
  induction size with
  | zero => exact Nat.one_pos
  | succ size ih =>
    have hbyte := (b.get (start + size)).toNat_lt
    rw [numberAt, Nat.pow_succ]
    omega

theorem toNat_eq_numberAt (b : Bytes) : b.toNat = b.numberAt 0 b.size := by
  -- By induction on the string from its end, where the lowest digit stands.
  have hlist (l : List UInt8) : BigEndian.value l = (ofList l).numberAt 0 l.length := by
    induction l using List.reverseRecOn with
    | nil => rfl
    | append_singleton l x ih =>
      have hinit : (ofList (l ++ [x])).numberAt 0 l.length = (ofList l).numberAt 0 l.length := by
        refine numberAt_congr fun i hi => ?_
        rw [Nat.zero_add, get_eq_getElem?, get_eq_getElem?]
        simp [ofList, List.getElem?_append_left hi]
      have hlast : (ofList (l ++ [x])).get (0 + l.length) = x := by
        rw [Nat.zero_add, get_eq_getElem?]
        simp [ofList]
      rw [BigEndian.value_append_singleton, List.length_append, List.length_singleton, numberAt,
        hinit, hlast, ih]
  rw [toNat_eq_value]
  exact hlist b.toList

theorem toNat_read (b : Bytes) (start size : Nat) :
    (b.read start size).toNat = b.numberAt start size := by
  rw [toNat_eq_numberAt, size_read]
  exact numberAt_congr fun i hi => by rw [Nat.zero_add, get_read b start hi]

theorem get_ofNat (width n i : Nat) : (ofNat width n).get i =
    if i < width then (n / 256 ^ (width - 1 - i)).toUInt8 else 0 := by
  have hdigits : (BigEndian.digits width n)[i]? =
      if i < width then some (n / 256 ^ (width - 1 - i)).toUInt8 else none := by
    induction width generalizing n with
    | zero => rfl
    | succ width ih =>
      rw [BigEndian.digits, List.getElem?_append, BigEndian.length_digits, ih]
      by_cases hi : i < width
      · have hpow : 256 ^ (width + 1 - 1 - i) = 256 * 256 ^ (width - 1 - i) := by
          rw [← Nat.pow_succ']
          congr 1
          omega
        rw [if_pos hi, if_pos hi, if_pos (by omega), hpow, Nat.div_div_eq_div_mul]
      · rw [if_neg hi]
        by_cases hlast : i = width
        · subst hlast
          simp
        · rw [if_neg (by omega), List.getElem?_eq_none (by simp; omega)]
  rw [get_eq_getElem?, ofNat, BigEndian.digitsOnto_eq, List.append_nil, ofList,
    List.getElem?_toArray, hdigits, apply_ite (Option.getD · 0)]
  rfl

theorem toNat_ofNat {width n : Nat} (h : n < 256 ^ width) : (ofNat width n).toNat = n := by
  rw [toNat_eq_value, ofNat, toList_ofList, BigEndian.digitsOnto_eq, List.append_nil,
    BigEndian.value_digits, Nat.mod_eq_of_lt h]

theorem getLsbD_toUInt8 (n t : Nat) : n.toUInt8.toBitVec.getLsbD t = (decide (t < 8) && n.testBit t) :=
  BitVec.getLsbD_ofNat 8 n t

theorem getLsbD_get_fixedBytes {w : Nat} (x : BitVec w) {i t : Nat} (hi : i < w / 8) (ht : t < 8) :
    ((fixedBytes x).get i).toBitVec.getLsbD t = x.getLsbD (8 * (w / 8 - 1 - i) + t) := by
  rw [fixedBytes, get_ofNat, if_pos hi, getLsbD_toUInt8, decide_eq_true ht, Bool.true_and,
    pow_eq_two_pow, Nat.testBit_div_two_pow, BitVec.testBit_toNat, Nat.add_comm]

theorem byte_ext {x y : UInt8} (h : ∀ t < 8, x.toBitVec.getLsbD t = y.toBitVec.getLsbD t) : x = y :=
  UInt8.toBitVec_inj.mp (BitVec.eq_of_getLsbD_eq h)

end ExecutionLayer.Bytes
