import ExecutionLayer.AltBn128.Pairing
import ExecutionLayer.Proofs.AltBn128.Twist
import Mathlib.Algebra.CharP.Frobenius

/-! # Powers of monomials and conjugate points

The `p`-th power of a monomial has the same degree up to a multiple of six, since six divides `p -
1`. So the map that takes coordinates to their `p`-th powers leads from the twist to the twist.
-/
namespace ExecutionLayer.AltBn128
open Quadratic (toField)
open AltBn128.Poly (term)

namespace Dodecic

section Powers
variable (m n k : Nat) (d : QuadraticField)

theorem pow_mono : Coordinate.pow (mono m d) n = mono (m * n) (d ^ n) := by
  refine extension.residue_injective ?_
  rw [Extension.residue_pow, residue_mono, residue_mono, mul_pow, pow_mul, map_pow]

theorem mono_add_six_mul : mono (m + 6 * k) d = mono m (d * QuadraticAlgebra.omega ^ k) := by
  rw [mono, mono, Nat.add_mul_mod_self_left, Nat.add_mul_div_left _ _ (by decide), pow_add,
    mul_comm (_ ^ _) (_ ^ k), mul_assoc]

theorem root_eq : root = mono 1 1 := by
  refine eq_mono 1 1 fun i _ => (Poly.term_basis 1 i).trans ?_
  simp [QuadraticAlgebra.re_one, QuadraticAlgebra.im_one]

theorem embed_eq (a : Quadratic) : a.embed = mono 0 (toField a) := by
  unfold Quadratic.embed
  rw [root_eq, pow_mono, one_pow, ofBase_eq, ofBase_eq, ofBase_numeral, one_mul, mono_add_six 0,
    one_mul, mono_sub, mono_mul, mono_add, Quadratic.toField_eq]
  rfl

end Powers

instance : CharP QuadraticField prime :=
  charP_of_injective_algebraMap (FaithfulSMul.algebraMap_injective (ZMod prime) QuadraticField) prime

theorem frobenius_mono {j : Nat} (x : QuadraticField) :
    (mono j x).frobenius =
      mono j (x ^ prime * QuadraticAlgebra.omega ^ (j * ((prime - 1) / 6))) := by
  have hdegree : j * prime = j + 6 * (j * ((prime - 1) / 6)) := by
    have hprime : prime = 1 + 6 * ((prime - 1) / 6) := by decide
    rw [Nat.mul_left_comm]
    nth_rewrite 1 [hprime]
    ring
  rw [← extension.pow_of_residue residue_frobenius, pow_mono, hdegree, mono_add_six_mul]

end Dodecic

namespace Twist
open Dodecic (mono_neg frobenius_mono)

theorem conjugate_solves {K : Type} [CommRing K] {x y b w u c t : K} (hpower : y ^ 2 = x ^ 3 + c)
    (hsix : u ^ 6 * w = t) (hcurve : c * t = 3) (hb : b * w = 3) :
    (y * u ^ 3) ^ 2 * w = ((x * u ^ 2) ^ 3 + b) * w := by
  linear_combination u ^ 6 * w * hpower + c * hsix + hcurve - hb

theorem nonsingular_conjugate {x y : QuadraticField} (h : twistCurve.Nonsingular x y) :
    twistCurve.Nonsingular (x ^ prime * QuadraticAlgebra.omega ^ (2 * ((prime - 1) / 6)))
      (y ^ prime * QuadraticAlgebra.omega ^ (3 * ((prime - 1) / 6))) := by
  obtain ⟨u, hu⟩ : ∃ u : QuadraticField, u = QuadraticAlgebra.omega ^ ((prime - 1) / 6) := ⟨_, rfl⟩
  have hsix : u ^ 6 * QuadraticAlgebra.omega = QuadraticAlgebra.omega ^ prime := by
    have hexp : (prime - 1) / 6 * 6 + 1 = prime := by decide
    rw [hu, ← pow_mul, ← pow_succ, hexp]
  have hcurve : toField Quadratic.curve ^ prime * QuadraticAlgebra.omega ^ prime = 3 := by
    have hthree : (3 : QuadraticField) = algebraMap (ZMod prime) QuadraticField 3 :=
      (map_ofNat _ 3).symm
    rw [← mul_pow, toField_curve, hthree, ← map_pow, ZMod.pow_card]
  have hpower : (y ^ prime) ^ 2 = (x ^ prime) ^ 3 + toField Quadratic.curve ^ prime := by
    rw [← pow_mul, ← pow_mul, mul_comm prime, mul_comm prime, pow_mul, pow_mul,
      nonsingular_iff.mp h, add_pow_char]
  rw [nonsingular_iff, mul_comm 2, mul_comm 3, pow_mul, pow_mul, ← hu]
  exact mul_right_cancel₀ Dodecic.omega_ne_zero (conjugate_solves hpower hsix hcurve toField_curve)

def conjugate : Twist → Twist
  | .zero => .zero
  | .some _ _ h => .some _ _ (nonsingular_conjugate h)

theorem conjugate_ne_zero {P : Twist} (hP : P ≠ 0) : conjugate P ≠ 0 := by
  cases P with
  | zero => exact absurd rfl hP
  | some => exact WeierstrassCurve.Affine.Point.some_ne_zero _

theorem frobenius_embed {P : Twist} (hP : P ≠ 0) :
    (embed P).x.frobenius = (embed (conjugate P)).x ∧
      (embed P).y.frobenius = (embed (conjugate P)).y := by
  cases P with
  | zero => exact absurd rfl hP
  | some x y h => exact ⟨frobenius_mono x, frobenius_mono y⟩

theorem embed_neg {P : Twist} (hP : P ≠ 0) :
    (embed (-P)).x = (embed P).x ∧ (embed (-P)).y = -(embed P).y := by
  cases P with
  | zero => exact absurd rfl hP
  | some x y h =>
    refine ⟨rfl, ?_⟩
    rw [WeierstrassCurve.Affine.Point.neg_some]
    simp only [embed, negY_eq, mono_neg]

end Twist

end ExecutionLayer.AltBn128
