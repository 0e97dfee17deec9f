import ExecutionLayer.Evm.Gas
import ExecutionLayer.Proofs.Rlp.Prefix

/-! # The price of memory

Memory grows in units of 32 bytes. An extension costs the difference between the prices of the
memory after and before it, so that the price of a frame's memory is part of the gas it has used.
Gas that fits 64 bits buys less than `2 ^ 42` bytes.
-/
namespace ExecutionLayer

namespace Bytes

theorem size_part_le (b : Bytes) (start stop : Nat) : (b.part start stop).size ≤ b.size := by
  unfold part
  rw [ByteArray.size_extract]
  omega

theorem size_part_le_stop (b : Bytes) (stop : Nat) : (b.part 0 stop).size ≤ stop := by
  unfold part
  rw [ByteArray.size_extract]
  omega

theorem size_read (b : Bytes) (start size : Nat) : (b.read start size).size = size := by
  have hp : (b.part start (start + size)).size ≤ size := by
    unfold part
    rw [ByteArray.size_extract]
    omega
  unfold read padRight
  split
  · rw [ByteArray.size_append, size_zeros]
    omega
  · omega

theorem size_ofNat (width n : Nat) : (ofNat width n).size = width := by
  change (BigEndian.digitsOnto width n []).length = width
  rw [BigEndian.digitsOnto_eq, List.append_nil, BigEndian.length_digits]

theorem size_ofNatLittle (width n : Nat) : (ofNatLittle width n).size = width := by
  change (BigEndian.digitsOnto width n []).reverse.length = width
  rw [List.length_reverse, BigEndian.digitsOnto_eq, List.append_nil, BigEndian.length_digits]

theorem size_foldl_ofNatLittle (width : Nat) (l : List Nat) (b : Bytes) :
    (l.foldl (fun b n => b ++ ofNatLittle width n) b).size = b.size + width * l.length := by
  induction l generalizing b with
  | nil => rfl
  | cons n l ih =>
    rw [List.foldl_cons, ih, ByteArray.size_append, size_ofNatLittle, List.length_cons, Nat.mul_succ]
    omega

theorem toNatLittle_lt (b : Bytes) : b.toNatLittle < 256 ^ b.size := by
  have hlist (l : List UInt8) : l.foldr (fun x n => n * 256 + x.toNat) 0 < 256 ^ l.length := by
    induction l with
    | nil => exact Nat.one_pos
    | cons x l ih =>
      have hx := x.toNat_lt
      rw [List.foldr_cons, List.length_cons, Nat.pow_succ]
      omega
  have h := hlist b.data.toList
  rw [Array.foldr_toList] at h
  exact h

theorem size_padLeft_le (b : Bytes) (size : Nat) : (b.padLeft size).size ≤ max b.size size := by
  unfold padLeft
  split
  · rw [ByteArray.size_append, size_zeros]
    omega
  · omega

theorem size_splice {b value : Bytes} {start : Nat}
    (h : value.size = 0 ∨ start + value.size ≤ b.size) : (b.splice start value).size = b.size := by
  have hdata (c : Bytes) : c.data.size = c.size := rfl
  unfold splice
  split
  · next hle =>
    rw [ByteArray.copySlice_eq_append]
    simp only [ByteArray.size_append, ByteArray.size_extract, hdata]
    omega
  · next hgt =>
    have hz : value.size = 0 := h.resolve_right hgt
    unfold part
    simp only [ByteArray.size_append, ByteArray.size_extract]
    omega

end Bytes

theorem le_ceil32 (n : Nat) : n ≤ ceil32 n := by
  unfold ceil32
  omega

theorem dvd_ceil32 (n : Nat) : 32 ∣ ceil32 n := Nat.dvd_mul_left 32 _

theorem ceil32_of_dvd {n : Nat} (h : 32 ∣ n) : ceil32 n = n := by
  unfold ceil32
  omega

namespace Evm.Gas

theorem memoryCost_mono {m n : Nat} (h : m ≤ n) : memoryCost m ≤ memoryCost n := by
  have hw : ceil32 m / 32 ≤ ceil32 n / 32 := by
    unfold ceil32
    omega
  unfold memoryCost
  exact Nat.add_le_add (Nat.mul_le_mul_right _ hw) (Nat.div_le_div_right (Nat.mul_le_mul hw hw))

theorem size_lt_of_memoryCost {n : Nat} (h : memoryCost n < Nat.pow 2 64) : n < Nat.pow 2 42 := by
  have hn := le_ceil32 n
  have hd : ceil32 n / 32 * 32 = ceil32 n := Nat.div_mul_cancel (dvd_ceil32 n)
  have hq : ceil32 n / 32 * (ceil32 n / 32) / 512 < Nat.pow 2 64 :=
    Nat.lt_of_le_of_lt (Nat.le_add_left _ _) h
  generalize ceil32 n / 32 = words at hd hq
  have hsquare : words * words < Nat.pow 2 64 * 512 := by omega
  have hwords : words < Nat.pow 2 37 := by
    by_contra hge
    have hmul := Nat.mul_le_mul (Nat.le_of_not_lt hge) (Nat.le_of_not_lt hge)
    have : Nat.pow 2 64 * 512 ≤ Nat.pow 2 37 * Nat.pow 2 37 := by decide
    omega
  have : Nat.pow 2 42 = Nat.pow 2 37 * 32 := by decide
  omega

/-- The size that a range of memory asks for, which is in units. An empty range asks for nothing. -/
def demand (range : Nat × Nat) : Nat := if range.2 = 0 then 0 else ceil32 (range.1 + range.2)

def sizeFor (size : Nat) (ranges : List (Nat × Nat)) : Nat :=
  ranges.foldl (fun n range => max n (demand range)) size

section SizeFor
variable {size : Nat} {range : Nat × Nat} {ranges : List (Nat × Nat)}

theorem dvd_demand (range : Nat × Nat) : 32 ∣ demand range := by
  unfold demand
  split
  · exact Nat.dvd_zero 32
  · exact dvd_ceil32 _

theorem sizeFor_cons (size : Nat) (range : Nat × Nat) (ranges : List (Nat × Nat)) :
    sizeFor size (range :: ranges) = sizeFor (max size (demand range)) ranges := rfl

theorem sizeFor_append (size : Nat) (ranges ranges' : List (Nat × Nat)) :
    sizeFor size (ranges ++ ranges') = sizeFor (sizeFor size ranges) ranges' := List.foldl_append

theorem le_sizeFor (size : Nat) (ranges : List (Nat × Nat)) : size ≤ sizeFor size ranges := by
  induction ranges generalizing size with
  | nil => exact le_rfl
  | cons range ranges ih => exact (Nat.le_max_left _ _).trans (ih _)

theorem demand_le_sizeFor (h : range ∈ ranges) : demand range ≤ sizeFor size ranges := by
  induction ranges generalizing size with
  | nil => cases h
  | cons first ranges ih =>
    rcases List.mem_cons.mp h with rfl | h
    · exact (Nat.le_max_right _ _).trans (le_sizeFor _ _)
    · exact ih h

theorem dvd_sizeFor (h : 32 ∣ size) (ranges : List (Nat × Nat)) : 32 ∣ sizeFor size ranges := by
  induction ranges generalizing size with
  | nil => exact h
  | cons range ranges ih =>
    rw [sizeFor_cons]
    rcases max_choice size (demand range) with hm | hm
    · rw [hm]
      exact ih h
    · rw [hm]
      exact ih (dvd_demand range)

end SizeFor

theorem extendFrom_eq {size : Nat} (h : 32 ∣ size) (done : Extension) (ranges : List (Nat × Nat)) :
    extendFrom size done ranges =
      ⟨done.cost + (memoryCost (sizeFor size ranges) - memoryCost size),
        done.expandBy + (sizeFor size ranges - size)⟩ := by
  induction ranges generalizing size done with
  | nil => simp [extendFrom, sizeFor]
  | cons range ranges ih =>
    obtain ⟨start, length⟩ := range
    unfold extendFrom
    rw [sizeFor_cons, ceil32_of_dvd h]
    by_cases hc : length = 0 ∨ ceil32 (start + length) ≤ size
    · have hsize : max size (demand (start, length)) = size := by
        refine Nat.max_eq_left ?_
        unfold demand
        split
        · exact Nat.zero_le _
        · next hl => exact hc.resolve_left hl
      simp only [Bool.or_eq_true, decide_eq_true_eq, hc, ↓reduceIte]
      rw [hsize, ih h]
    · obtain ⟨hl, hlt⟩ := not_or.mp hc
      have hsize : max size (demand (start, length)) = ceil32 (start + length) := by
        rw [demand, if_neg hl]
        exact Nat.max_eq_right (Nat.le_of_not_le hlt)
      simp only [Bool.or_eq_true, decide_eq_true_eq, hc, ↓reduceIte]
      rw [hsize, ih (dvd_ceil32 _)]
      -- The price of the memory in between is paid once and counted off once.
      have hbetween := memoryCost_mono (Nat.le_of_not_le hlt)
      have hrest := le_sizeFor (ceil32 (start + length)) ranges
      have hafter := memoryCost_mono hrest
      congr 1 <;> dsimp only <;> omega

theorem extendMemory_eq {size : Nat} (h : 32 ∣ size) (ranges : List (Nat × Nat)) :
    extendMemory size ranges = ⟨memoryCost (sizeFor size ranges) - memoryCost size,
      sizeFor size ranges - size⟩ := by
  rw [extendMemory, extendFrom_eq h, Nat.zero_add, Nat.zero_add]

/-- What an extension of a memory of the given size does, whose size is in units. -/
structure Extension.Covers (size : Nat) (ranges : List (Nat × Nat)) (e : Extension) : Prop where
  dvd : 32 ∣ e.expandBy
  cost : memoryCost (size + e.expandBy) = memoryCost size + e.cost
  covers : ∀ r ∈ ranges, r.2 = 0 ∨ r.1 + r.2 ≤ size + e.expandBy

theorem extendMemory_covers {size : Nat} (h : 32 ∣ size) (ranges : List (Nat × Nat)) :
    (extendMemory size ranges).Covers size ranges := by
  have hle := le_sizeFor size ranges
  have hcost := memoryCost_mono hle
  have hsize : size + (sizeFor size ranges - size) = sizeFor size ranges := by omega
  rw [extendMemory_eq h]
  refine ⟨Nat.dvd_sub (dvd_sizeFor h ranges) h, ?_, fun r hr => ?_⟩
  · dsimp only
    rw [hsize]
    omega
  · by_cases hr₂ : r.2 = 0
    · exact Or.inl hr₂
    · have hdemand : demand r ≤ sizeFor size ranges := demand_le_sizeFor hr
      rw [demand, if_neg hr₂] at hdemand
      refine Or.inr ?_
      dsimp only
      rw [hsize]
      exact (le_ceil32 _).trans hdemand

end Evm.Gas

end ExecutionLayer
