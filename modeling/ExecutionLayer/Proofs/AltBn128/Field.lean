import ExecutionLayer.AltBn128.Extension
import ExecutionLayer.Proofs.AltBn128.Primality
import Mathlib.FieldTheory.Finite.Basic

/-! # The base field as the integers modulo a prime

Elements of the base field are numbers below the prime, and their operations are those of the
integers modulo it.
-/
namespace ExecutionLayer.AltBn128

theorem natCast_ne_zero {n : Nat} (h : ¬prime ∣ n) : (n : ZMod prime) ≠ 0 :=
  fun h0 => h ((ZMod.natCast_eq_zero_iff n prime).mp h0)

theorem numeral_ne_zero (n : Nat) [n.AtLeastTwo] (h : ¬prime ∣ n) :
    (OfNat.ofNat n : ZMod prime) ≠ 0 := by
  rw [← Nat.cast_ofNat]
  exact natCast_ne_zero h

def nonPowers : List (Nat × Nat) := [(3, 3), (60516, 3), (82, 2), (82, 3)]

theorem nonPowers_checked : ∀ c ∈ nonPowers, ¬prime ∣ c.1 ∧ c.2 * ((prime - 1) / c.2) = prime - 1 ∧
    powMod c.1 ((prime - 1) / c.2) prime ≠ 1 := by
  decide +kernel

theorem pow_ne_of_mem_nonPowers {c q : Nat} (h : (c, q) ∈ nonPowers) (x : ZMod prime) :
    x ^ q ≠ c := by
  obtain ⟨hc, hexp, hone⟩ : ¬prime ∣ c ∧ q * ((prime - 1) / q) = prime - 1 ∧
      powMod c ((prime - 1) / q) prime ≠ 1 := nonPowers_checked _ h
  intro hx
  have hx0 : x ≠ 0 := by
    rintro rfl
    have hq : q ≠ 0 := by
      rintro rfl
      rw [zero_mul] at hexp
      exact absurd hexp (by decide)
    exact natCast_ne_zero hc (by rw [← hx, zero_pow hq])
  refine hone ((Certificate.pow_eq_one_iff prime_prime.one_lt _ _).mp ?_)
  rw [← hx, ← pow_mul, hexp]
  exact ZMod.pow_card_sub_one_eq_one hx0

namespace Base

def toZMod (a : Base) : ZMod prime := (a.val : ZMod prime)

def ofZMod (x : ZMod prime) : Base := ⟨x.val, ZMod.val_lt x⟩

variable (a b : Base) (x y : ZMod prime) (n : Nat)

@[simp] theorem toZMod_ofZMod : toZMod (ofZMod x) = x := ZMod.natCast_zmod_val x

@[simp] theorem ofZMod_toZMod : ofZMod (toZMod a) = a := Fin.ext (ZMod.val_cast_of_lt a.isLt)

theorem toZMod_injective : Function.Injective toZMod :=
  Function.LeftInverse.injective ofZMod_toZMod

theorem ofZMod_injective : Function.Injective ofZMod :=
  Function.LeftInverse.injective toZMod_ofZMod

@[simp] theorem toZMod_ofNat : toZMod (ofNat n) = n := ZMod.natCast_mod n prime

@[simp] theorem toZMod_zero : toZMod 0 = 0 := (toZMod_ofNat 0).trans Nat.cast_zero

@[simp] theorem toZMod_one : toZMod 1 = 1 := (toZMod_ofNat 1).trans Nat.cast_one

@[simp] theorem toZMod_numeral [n.AtLeastTwo] :
    toZMod (no_index (OfNat.ofNat n)) = OfNat.ofNat n := toZMod_ofNat n

@[simp] theorem toZMod_add : toZMod (a + b) = toZMod a + toZMod b := by
  unfold toZMod
  rw [Fin.val_add, ZMod.natCast_mod, Nat.cast_add]

@[simp] theorem toZMod_mul : toZMod (a * b) = toZMod a * toZMod b := by
  unfold toZMod
  rw [Fin.val_mul, ZMod.natCast_mod, Nat.cast_mul]

@[simp] theorem toZMod_sub : toZMod (a - b) = toZMod a - toZMod b := by
  unfold toZMod
  rw [Fin.sub_def, ZMod.natCast_mod, Nat.cast_add, Nat.cast_sub b.isLt.le, ZMod.natCast_self]
  ring

@[simp] theorem toZMod_neg : toZMod (-a) = -toZMod a := by
  unfold toZMod
  rw [Fin.neg_def, ZMod.natCast_mod, Nat.cast_sub a.isLt.le, ZMod.natCast_self, zero_sub]

@[simp] theorem toZMod_inverse : toZMod (inverse a) = (toZMod a)⁻¹ := by
  have hpow : toZMod (inverse a) = toZMod a ^ (prime - 2) := by
    unfold inverse pow
    rw [toZMod_ofNat, cast_powMod prime_pos]
    rfl
  rw [hpow]
  by_cases ha : toZMod a = 0
  · rw [ha, inv_zero, zero_pow (by decide)]
  · have hcard := ZMod.pow_card_sub_one_eq_one ha
    have hsucc : prime - 1 = prime - 2 + 1 := by decide
    rw [hsucc, pow_succ] at hcard
    exact eq_inv_of_mul_eq_one_left hcard

theorem toZMod_eq_zero_iff : toZMod a = 0 ↔ a = 0 := by
  rw [← toZMod_zero, toZMod_injective.eq_iff]

@[simp] theorem ofZMod_zero : ofZMod 0 = 0 := toZMod_injective (by simp)

theorem inverse?_of_ne {a : Base} (h : a ≠ 0) : inverse? a = .ok (inverse a) := if_neg h

end Base

end ExecutionLayer.AltBn128
