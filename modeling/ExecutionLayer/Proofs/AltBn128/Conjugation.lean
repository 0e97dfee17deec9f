import ExecutionLayer.Proofs.AltBn128.Reciprocal
import Mathlib.Algebra.CharP.Algebra
import Mathlib.Algebra.CharP.Lemmas
import Mathlib.RingTheory.AdjoinRoot

/-! # The extensions as quotient rings

Elements of an extension are residue classes of polynomials modulo the modulus. The product in the
extension of degree twelve leaves out the terms that its modulus does not have. What it finds is the
product that every modulus has. The `p`-th power of a sum is the sum of the `p`-th powers, and the
elements of the base field are their own `p`-th powers. So the `p`-th powers of the basis make up
those of all elements.
-/
namespace ExecutionLayer.AltBn128
open Base (toZMod)

section Residues
open AltBn128.Poly (toPolynomial)
open Polynomial

namespace Dodecic
variable (a b : Dodecic)

theorem toPolynomial_mul : toPolynomial (a * b).coefficients =
    toPolynomial a.coefficients * toPolynomial b.coefficients %ₘ trinomial 6 := by
  rw [← monic_modulus]
  refine Poly.eq_modByMonic ?_
  rw [monic_modulus]
  exact dvd_mul_sub_mul a b

theorem coefficients_mul :
    (a * b).coefficients = Poly.mulMod modulus a.coefficients b.coefficients := by
  refine Poly.toPolynomial_injective ?_
  rw [toPolynomial_mul, Poly.toPolynomial_mulMod, monic_modulus]

/-- The product that uses the three terms of the modulus only is the one that uses all coefficients:
both are the remainder modulo `x¹² - 18 x⁶ + 82`. -/
theorem sparse_product_eq :
    (a * b).coefficients = Poly.mulMod modulus a.coefficients b.coefficients ∧
    toPolynomial (a * b).coefficients =
      toPolynomial a.coefficients * toPolynomial b.coefficients %ₘ trinomial 6 :=
  ⟨coefficients_mul a b, toPolynomial_mul a b⟩

end Dodecic

namespace Poly
variable {d : Nat} (m a b : Poly d)

noncomputable def residue : AdjoinRoot (monic m) := AdjoinRoot.mk (monic m) (toPolynomial a)

theorem residue_injective : Function.Injective (residue m) := by
  intro a b h
  exact eq_of_dvd_sub (AdjoinRoot.mk_eq_mk.mp h)

theorem residue_add : residue m (a.add b) = residue m a + residue m b := by
  have hadd : toPolynomial (a.add b) = toPolynomial a + toPolynomial b := by
    ext i
    rw [coeff_add, coeff_toPolynomial, coeff_toPolynomial, coeff_toPolynomial, term_add]
  rw [residue, hadd, map_add]
  rfl

theorem residue_mulMod : residue m (mulMod m a b) = residue m a * residue m b := by
  rw [residue, toPolynomial_mulMod]
  refine Eq.trans (AdjoinRoot.mk_eq_mk.mpr ?_) (map_mul (AdjoinRoot.mk (monic m)) _ _)
  exact ⟨-(toPolynomial a * toPolynomial b /ₘ monic m), by
    rw [mul_neg, eq_neg_iff_add_eq_zero, sub_add_eq_add_sub, modByMonic_add_div, sub_self]⟩

theorem residue_scale (q : Base) : residue m (a.scale q) =
    algebraMap (ZMod prime) (AdjoinRoot (monic m)) (toZMod q) * residue m a := by
  rw [residue, toPolynomial_scale, map_mul, AdjoinRoot.mk_C]
  rfl

theorem residue_ofBase (hd : 0 < d) (q : Base) : residue m (ofBase q) =
    algebraMap (ZMod prime) (AdjoinRoot (monic m)) (toZMod q) := by
  rw [residue, toPolynomial_ofBase hd, AdjoinRoot.mk_C]
  rfl

theorem charP (hd : 0 < d) : CharP (AdjoinRoot (monic m)) prime := by
  have hdegree : (monic m).degree ≠ 0 := by
    rw [degree_monic]
    exact_mod_cast hd.ne'
  have := AdjoinRoot.nontrivial (monic m) hdegree
  exact charP_of_injective_algebraMap
    (algebraMap (ZMod prime) (AdjoinRoot (monic m))).injective prime

theorem residue_eq_sum : residue m a = ∑ i : Fin d,
    algebraMap (ZMod prime) (AdjoinRoot (monic m)) (toZMod (a.get i)) * residue m (basis i) := by
  have hbasis (i : Fin d) : toPolynomial (basis i) = X ^ i.val := by
    ext j
    rw [coeff_toPolynomial, coeff_X_pow, term_basis]
  rw [residue, toPolynomial, low, map_sum, Finset.sum_range]
  refine Finset.sum_congr rfl fun i _ => ?_
  rw [residue, hbasis, ← C_mul_X_pow_eq_monomial, map_mul, AdjoinRoot.mk_C, term_of_lt a i.isLt]
  rfl

end Poly

end Residues

section Powers
variable {F R : Type} [Coordinate F] [CommMonoid R] {f : F → R}
  (hmul : ∀ a b, f (a * b) = f a * f b)
include hmul

theorem Coordinate.map_pow_loop (n : Nat) : ∀ square acc : F,
    f (Coordinate.pow.loop n square acc) = f acc * f square ^ n := by
  induction n using Nat.strong_induction_on with
  | _ n ih =>
    intro square acc
    rw [Coordinate.pow.loop]
    by_cases hn : n = 0
    · rw [dif_pos hn, hn, pow_zero, mul_one]
    · have hdigit := Nat.div_add_mod n 2
      rw [dif_neg hn, ih (n / 2) (by omega), hmul, ← pow_two, ← pow_mul]
      rcases Nat.mod_two_eq_zero_or_one n with h | h
      · rw [h, add_zero] at hdigit
        rw [h, if_neg (by decide), hdigit]
      · rw [h] at hdigit
        rw [h, if_pos rfl, hmul, mul_assoc, ← pow_succ', hdigit]

theorem Coordinate.map_pow (hone : f Coordinate.one = 1) (a : F) (n : Nat) :
    f (Coordinate.pow a n) = f a ^ n := by
  rw [Coordinate.pow, Coordinate.map_pow_loop hmul, hone, one_mul]

end Powers

structure Extension (F : Type) [Coordinate F] {d : Nat} (m : Poly d) where
  ofCoefficients : Poly d → F
  coefficients : F → Poly d
  coefficients_ofCoefficients (a : Poly d) : coefficients (ofCoefficients a) = a
  ofCoefficients_coefficients (a : F) : ofCoefficients (coefficients a) = a
  coefficients_add (a b : F) : coefficients (a + b) = (coefficients a).add (coefficients b)
  coefficients_mul (a b : F) :
    coefficients (a * b) = Poly.mulMod m (coefficients a) (coefficients b)
  coefficients_ofBase (q : Base) : coefficients (Coordinate.ofBase q) = Poly.ofBase q
  degree_pos : 0 < d

def Quadratic.extension : Extension Quadratic Quadratic.modulus where
  ofCoefficients := .mk
  coefficients := Quadratic.coefficients
  coefficients_ofCoefficients _ := rfl
  ofCoefficients_coefficients _ := rfl
  coefficients_add _ _ := rfl
  coefficients_mul _ _ := rfl
  coefficients_ofBase _ := rfl
  degree_pos := by decide

def Dodecic.extension : Extension Dodecic Dodecic.modulus where
  ofCoefficients := .mk
  coefficients := Dodecic.coefficients
  coefficients_ofCoefficients _ := rfl
  ofCoefficients_coefficients _ := rfl
  coefficients_add _ _ := rfl
  coefficients_mul := Dodecic.coefficients_mul
  coefficients_ofBase _ := rfl
  degree_pos := by decide

namespace Extension
variable {F : Type} [Coordinate F] {d : Nat} {m : Poly d} (e : Extension F m) (a b : F)

noncomputable def residue : AdjoinRoot (Poly.monic m) := Poly.residue m (e.coefficients a)

theorem residue_injective : Function.Injective e.residue :=
  (Poly.residue_injective m).comp (Function.LeftInverse.injective e.ofCoefficients_coefficients)

theorem residue_add : e.residue (a + b) = e.residue a + e.residue b := by
  rw [residue, e.coefficients_add, Poly.residue_add]
  rfl

theorem residue_mul : e.residue (a * b) = e.residue a * e.residue b := by
  rw [residue, e.coefficients_mul, Poly.residue_mulMod]
  rfl

theorem residue_ofBase (q : Base) : e.residue (Coordinate.ofBase q) =
    algebraMap (ZMod prime) (AdjoinRoot (Poly.monic m)) (toZMod q) := by
  rw [residue, e.coefficients_ofBase, Poly.residue_ofBase m e.degree_pos]

theorem residue_one : e.residue Coordinate.one = 1 := by
  rw [Coordinate.one, residue_ofBase, Base.toZMod_one, map_one]

theorem residue_pow (n : Nat) : e.residue (Coordinate.pow a n) = e.residue a ^ n :=
  Coordinate.map_pow e.residue_mul e.residue_one a n

theorem residue_foldl {ι : Type} (f : ι → F) (l : List ι) : ∀ c : F,
    e.residue (l.foldl (fun sum i => sum + f i) c) =
      e.residue c + (l.map fun i => e.residue (f i)).sum := by
  induction l with
  | nil => simp
  | cons i l ih =>
    intro c
    rw [List.foldl_cons, ih, residue_add, List.map_cons, List.sum_cons, add_assoc]

theorem residue_sum_table {table : Fin d → F}
    (htable : ∀ i, table i = Coordinate.pow (e.ofCoefficients (Poly.basis i)) prime) :
    e.residue ((List.finRange d).foldl (fun sum i => sum +
      e.ofCoefficients ((e.coefficients (table i)).scale ((e.coefficients a).get i)))
        (Coordinate.ofBase 0)) = e.residue a ^ prime := by
  have := Poly.charP m e.degree_pos
  have hbasis (i : Fin d) :
      e.residue (e.ofCoefficients (Poly.basis i)) = Poly.residue m (Poly.basis i) := by
    rw [residue, e.coefficients_ofCoefficients]
  have hterm (i : Fin d) :
      e.residue (e.ofCoefficients ((e.coefficients (table i)).scale ((e.coefficients a).get i))) =
        (algebraMap (ZMod prime) _ (toZMod ((e.coefficients a).get i)) *
          Poly.residue m (Poly.basis i)) ^ prime := by
    rw [residue, e.coefficients_ofCoefficients, Poly.residue_scale, mul_pow, ← map_pow,
      ZMod.pow_card, ← hbasis, ← residue_pow, ← htable]
    rfl
  rw [residue_foldl, residue_ofBase, Base.toZMod_zero, map_zero, zero_add, residue,
    Poly.residue_eq_sum, sum_pow_char, Fin.sum_univ_def]
  simp only [hterm]

end Extension

theorem Quadratic.residue_frobenius (a : Quadratic) :
    Quadratic.extension.residue a.frobenius = Quadratic.extension.residue a ^ prime := by
  refine Quadratic.extension.residue_sum_table a fun i => ?_
  rw [Fin.getElem_fin, Quadratic.frobeniusTable, Vector.getElem_ofFn]
  rfl

theorem Dodecic.residue_frobenius (a : Dodecic) :
    Dodecic.extension.residue a.frobenius = Dodecic.extension.residue a ^ prime := by
  refine Dodecic.extension.residue_sum_table a fun i => ?_
  rw [Fin.getElem_fin, Dodecic.frobeniusTable, Vector.getElem_ofFn]
  rfl

namespace Extension
variable {F : Type} [Coordinate F] {d : Nat} {m : Poly d} (e : Extension F m)

variable {frobenius : F → F} (h : ∀ a, e.residue (frobenius a) = e.residue a ^ prime) (a b : F)
include h

theorem pow_of_residue : Coordinate.pow a prime = frobenius a := by
  refine e.residue_injective ?_
  rw [h, residue_pow]

theorem laws_of_residue :
    Coordinate.power a prime = .ok (frobenius a) ∧
      frobenius (a + b) = frobenius a + frobenius b ∧
      frobenius (a * b) = frobenius a * frobenius b := by
  have := Poly.charP m e.degree_pos
  refine ⟨?_, e.residue_injective ?_, e.residue_injective ?_⟩
  · rw [Coordinate.power, if_pos (by decide), Int.toNat_natCast, e.pow_of_residue h]
  · rw [h, residue_add, residue_add, h, h, add_pow_char]
  · rw [h, residue_mul, residue_mul, h, h, mul_pow]

end Extension

/-- The map that is read off the table is the `p`-th power, in both extensions, and respects sums
and products. -/
theorem frobenius_eq_power (a b : Quadratic) (c d : Dodecic) :
    (Coordinate.power a prime = .ok a.frobenius ∧
      (a + b).frobenius = a.frobenius + b.frobenius ∧
      (a * b).frobenius = a.frobenius * b.frobenius) ∧
    Coordinate.power c prime = .ok c.frobenius ∧
      (c + d).frobenius = c.frobenius + d.frobenius ∧
      (c * d).frobenius = c.frobenius * d.frobenius :=
  ⟨Quadratic.extension.laws_of_residue Quadratic.residue_frobenius a b,
    Dodecic.extension.laws_of_residue Dodecic.residue_frobenius c d⟩

end ExecutionLayer.AltBn128
