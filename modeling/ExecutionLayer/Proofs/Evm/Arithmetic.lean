import ExecutionLayer.Evm.Arithmetic
import Mathlib.Data.Int.DivMod
import Mathlib.Tactic.Linarith

/-! # Arithmetic on words in two's complement

The instructions compute with exact integers, and each result is represented by a word again. So the
results are those of truncated division, of shifts and of reduction on bit vectors.
-/
namespace ExecutionLayer

namespace Word

theorem ofNat?_of_lt {n : Nat} (h : n < limit) : ofNat? n = .ok (BitVec.ofNat 256 n) := if_pos h

theorem toNat_lt (x : Word) : x.toNat < limit := x.isLt

theorem limit_eq : limit = half + half := by decide

theorem toSigned_eq (x : Word) : x.toSigned = x.toInt := by
  have hl : limit = 2 ^ 256 := by decide
  have hh : 2 * half = 2 ^ 256 := by decide
  rw [BitVec.toInt_eq_toNat_cond, toSigned, hl]
  split <;> split <;> omega

theorem ofSigned_of_lt {i : Int} (h : i < limit) : ofSigned i = .ok (BitVec.ofInt 256 i) := by
  unfold ofSigned
  split
  · next hi =>
    have hcast : BitVec.ofInt 256 i = BitVec.ofNat 256 i.toNat := by
      rw [← BitVec.ofInt_natCast, Int.toNat_of_nonneg hi]
    rw [ofNat?_of_lt (by omega), hcast]
  · rfl

theorem natAbs_toInt_le (x : Word) : x.toInt.natAbs ≤ half := by
  have hx := x.toNat_lt
  have hl := limit_eq
  rw [← toSigned_eq]
  unfold toSigned
  split <;> omega

end Word

namespace Evm.Arithmetic

theorem toNat_pos_of_ne {z : Word} (h : z ≠ 0) : 0 < z.toNat :=
  Nat.pos_of_ne_zero fun hz => h (BitVec.eq_of_toNat_eq hz)

theorem toInt_eq_zero {y : Word} : y.toInt = 0 ↔ y = 0 := by
  rw [← BitVec.toInt_inj]
  rfl

theorem sign_eq (i : Int) : Numeric.sign i = i.sign := by
  unfold Numeric.sign
  rcases Int.lt_trichotomy i 0 with h | rfl | h
  · rw [if_pos h, Int.sign_eq_neg_one_of_neg h]
  · rfl
  · rw [if_neg (by omega), if_neg (by omega), Int.sign_eq_one_of_pos h]

theorem sign_mul_div (a b : Int) :
    Numeric.sign (a * b) * (a.natAbs / b.natAbs : Nat) = a.tdiv b := by
  have habs : (a.tdiv b).natAbs = a.natAbs / b.natAbs := Int.natAbs_tdiv a b
  rw [sign_eq, Int.sign_mul, ← habs]
  conv_rhs => rw [← Int.sign_mul_natAbs (a.tdiv b)]
  rw [Int.sign_tdiv]
  split
  · next hlt => rw [habs, Nat.div_eq_of_lt hlt, Nat.cast_zero, Int.mul_zero, Int.mul_zero]
  · rfl

theorem sign_mul_mod (a b : Int) : Numeric.sign a * (a.natAbs % b.natAbs : Nat) = a.tmod b := by
  have habs : (a.tmod b).natAbs = a.natAbs % b.natAbs := Int.natAbs_tmod a b
  rw [sign_eq, ← habs]
  conv_rhs => rw [← Int.sign_mul_natAbs (a.tmod b)]
  rw [Int.sign_tmod]
  split
  · next hdvd =>
    rw [Int.tmod_eq_zero_of_dvd hdvd, Int.natAbs_zero, Nat.cast_zero, Int.mul_zero, Int.mul_zero]
  · rfl

theorem sdiv_eq (x y : Word) : sdiv x y =
    .ok (if y = 0 then 0 else BitVec.ofInt 256 (x.toInt.tdiv y.toInt)) := by
  have hx := x.natAbs_toInt_le
  have hl := Word.limit_eq
  have hhalf : 0 < Word.half := by decide
  unfold sdiv
  simp only [Word.toSigned_eq, toInt_eq_zero]
  split
  · rfl
  · split
    · next hover =>
      -- The one quotient that is no word wraps to where the dividend is.
      rw [Word.ofSigned_of_lt (by omega), hover.1, hover.2]
      rfl
    · have hle := Int.natAbs_tdiv_le_natAbs x.toInt y.toInt
      rw [sign_mul_div, Word.ofSigned_of_lt (by omega)]

theorem smod_eq (x y : Word) : smod x y =
    .ok (if y = 0 then 0 else BitVec.ofInt 256 (x.toInt.tmod y.toInt)) := by
  have hx := x.natAbs_toInt_le
  have hl := Word.limit_eq
  have hhalf : 0 < Word.half := by decide
  unfold smod
  simp only [Word.toSigned_eq, toInt_eq_zero]
  split
  · rfl
  · have habs : (x.toInt.tmod y.toInt).natAbs = x.toInt.natAbs % y.toInt.natAbs :=
      Int.natAbs_tmod _ _
    have hle := Nat.mod_le x.toInt.natAbs y.toInt.natAbs
    rw [sign_mul_mod, Word.ofSigned_of_lt (by omega)]

theorem ofNat?_mod {n : Nat} {z : Word} (h : z ≠ 0) :
    Word.ofNat? (n % z.toNat) = .ok (BitVec.ofNat 256 (n % z.toNat)) :=
  Word.ofNat?_of_lt ((Nat.mod_lt _ (toNat_pos_of_ne h)).trans z.toNat_lt)

theorem addmod_eq (x y z : Word) : addmod x y z =
    .ok (if z = 0 then 0 else BitVec.ofNat 256 ((x.toNat + y.toNat) % z.toNat)) := by
  unfold addmod
  split
  · rfl
  · next h => exact ofNat?_mod h

theorem mulmod_eq (x y z : Word) : mulmod x y z =
    .ok (if z = 0 then 0 else BitVec.ofNat 256 (x.toNat * y.toNat % z.toNat)) := by
  unfold mulmod
  split
  · rfl
  · next h => exact ofNat?_mod h

theorem exp_ok (x y : Word) : ∃ z, exp x y = .ok z :=
  ⟨_, Word.ofNat?_of_lt (powMod_lt (by decide) _ _)⟩

theorem shl_eq (shift x : Word) : shl shift x = .ok (x <<< shift.toNat) := by
  unfold shl
  split
  · rw [Word.ofNat?_of_lt (Nat.mod_lt _ (by decide))]
    congr 1
    refine BitVec.eq_of_toNat_eq ?_
    have hl : Word.limit = 2 ^ 256 := by decide
    rw [BitVec.toNat_ofNat, BitVec.toNat_shiftLeft, hl, Nat.mod_mod]
  · next h =>
    rw [BitVec.shiftLeft_eq_zero (Nat.le_of_not_lt h)]
    rfl

theorem shr_eq (shift x : Word) : shr shift x = x >>> shift.toNat := by
  unfold shr
  split
  · rfl
  · next h =>
    rw [BitVec.ushiftRight_eq_zero (Nat.le_of_not_lt h)]
    rfl

theorem sshiftRight_of_ge {x : Word} {n : Nat} (h : 256 ≤ n) :
    x.sshiftRight n = if x.toInt < 0 then BitVec.allOnes 256 else 0 := by
  cases hm : x.msb with
  | false =>
    have hpos := BitVec.toInt_nonneg_of_msb_false hm
    rw [if_neg (by omega), BitVec.sshiftRight_eq_of_msb_false hm, BitVec.ushiftRight_eq_zero h]
    rfl
  | true =>
    rw [if_pos (BitVec.toInt_neg_of_msb_true hm), BitVec.sshiftRight_eq_of_msb_true hm,
      BitVec.ushiftRight_eq_zero h, BitVec.not_zero]

theorem sar_eq (shift x : Word) : sar shift x = .ok (x.sshiftRight shift.toNat) := by
  have hx := x.natAbs_toInt_le
  have hl := Word.limit_eq
  have hhalf : 0 < Word.half := by decide
  unfold sar
  rw [Word.toSigned_eq]
  split
  · have hlt : x.toInt >>> shift.toNat < (Word.limit : Int) := by
      have hpow : (0 : Int) < 2 ^ shift.toNat := by positivity
      rw [Int.shiftRight_eq_div_pow]
      push_cast
      rcases le_or_gt 0 x.toInt with h | h
      · exact (Int.ediv_le_self _ h).trans_lt (by omega)
      · exact (Int.ediv_neg_of_neg_of_pos h hpow).trans_le (by omega)
    rw [Word.ofSigned_of_lt hlt, BitVec.sshiftRight_eq]
  · next h =>
    rw [sshiftRight_of_ge (Nat.le_of_not_lt h)]
    by_cases hneg : x.toInt < 0
    · rw [if_neg (by omega), if_pos hneg]
    · rw [if_pos (by omega), if_neg hneg]

theorem signextend_eq (k x : Word) :
    signextend k x = (x.setWidth (8 * k.toNat + 8)).signExtend 256 := by
  unfold signextend
  split
  · rw [BitVec.signExtend_eq_setWidth_of_le _ (by omega), BitVec.setWidth_setWidth_of_le _ (by omega),
      BitVec.setWidth_eq]
  · next hk =>
    have hbits : 8 * (k.toNat + 1) = 8 * k.toNat + 8 := by omega
    have hle : 2 ^ (8 * k.toNat + 8) ≤ 2 ^ 256 := Nat.pow_le_pow_right (by decide) (by omega)
    have hlow : x.toNat % 2 ^ (8 * k.toNat + 8) < 2 ^ (8 * k.toNat + 8) :=
      Nat.mod_lt _ (Nat.two_pow_pos _)
    have hl : Word.limit = 2 ^ 256 := by decide
    have hpow (n : Nat) : Nat.pow 2 n = 2 ^ n := rfl
    refine BitVec.eq_of_toNat_eq ?_
    rw [hbits, BitVec.toNat_signExtend, BitVec.msb_eq_decide, BitVec.toNat_setWidth,
      BitVec.toNat_setWidth, hl]
    simp only [hpow, decide_eq_true_eq]
    generalize x.toNat % 2 ^ (8 * k.toNat + 8) = low at hlow ⊢
    by_cases hsign : low < 2 ^ (8 * k.toNat + 8 - 1)
    · rw [if_pos hsign, if_neg (Nat.not_le.mpr hsign), BitVec.toNat_ofNat, Nat.add_zero]
    · rw [if_neg hsign, if_pos (Nat.le_of_not_lt hsign), BitVec.toNat_ofNat,
        Nat.mod_eq_of_lt (hlow.trans_le hle), Nat.mod_eq_of_lt (by omega)]

theorem getLsbD_signextend (k x : Word) {i : Nat} (hi : i < 256) :
    (signextend k x).getLsbD i = x.getLsbD (min i (8 * k.toNat + 7)) := by
  rw [signextend_eq, BitVec.getLsbD_signExtend, BitVec.msb_setWidth]
  by_cases h : i < 8 * k.toNat + 8
  · rw [if_pos h, BitVec.getLsbD_setWidth, Nat.min_eq_left (by omega)]
    simp [hi, h]
  · rw [if_neg h, Nat.min_eq_right (by omega)]
    simp [hi]

end Evm.Arithmetic

end ExecutionLayer
