import ExecutionLayer.Proofs.AltBn128.Euclid
import Mathlib.Algebra.Polynomial.SpecificDegree
import Mathlib.Algebra.QuadraticAlgebra.Basic
import Mathlib.NumberTheory.LegendreSymbol.Basic

/-! # The quadratic extension as a field

The quadratic extension is a field, since `-1` has no root in the base field. Here it is built on `9
+ i`, which is a root of `x² - 18 x + 82`. Euclid's algorithm finds inverses, unless the element
lies in the base field: then the result is zero.
-/
namespace ExecutionLayer.AltBn128
open Base (toZMod ofZMod)
open AltBn128.Poly (term toPolynomial coeff_toPolynomial)
open Polynomial

/-- The field that a root of `x² - 18 x + 82` generates. -/
abbrev QuadraticField := QuadraticAlgebra (ZMod prime) (-82) 18

theorem sq_ne_neg_one (x : ZMod prime) : x ^ 2 ≠ -1 := by
  intro h
  exact ZMod.mod_four_ne_three_of_sq_eq_neg_one h (by decide)

instance : Fact (∀ r : ZMod prime, r ^ 2 ≠ -82 + 18 * r) := by
  refine ⟨fun r h => sq_ne_neg_one (r - 9) ?_⟩
  linear_combination h

namespace Quadratic

def toField (a : Quadratic) : QuadraticField :=
  ⟨term a.coefficients 0 - 9 * term a.coefficients 1, term a.coefficients 1⟩

theorem toField_injective : Function.Injective toField := by
  intro a b h
  have him : term a.coefficients 1 = term b.coefficients 1 := congrArg QuadraticAlgebra.im h
  have hre : term a.coefficients 0 - 9 * term a.coefficients 1 =
      term b.coefficients 0 - 9 * term b.coefficients 1 := congrArg QuadraticAlgebra.re h
  have hcoefficients : a.coefficients = b.coefficients := by
    refine Poly.eq_of_term fun i hi => ?_
    interval_cases i
    · rw [him] at hre
      exact sub_left_injective hre
    · exact him
  cases a
  cases b
  exact congrArg Quadratic.mk hcoefficients

variable (a b : Quadratic)

@[simp] theorem toField_add : toField (a + b) = toField a + toField b := by
  change toField ⟨a.coefficients.add b.coefficients⟩ = _
  ext <;> simp only [toField, Poly.term_add, QuadraticAlgebra.re_add, QuadraticAlgebra.im_add]
  ring

@[simp] theorem toField_sub : toField (a - b) = toField a - toField b := by
  change toField ⟨a.coefficients.sub b.coefficients⟩ = _
  ext <;> simp only [toField, Poly.term_sub, QuadraticAlgebra.re_sub, QuadraticAlgebra.im_sub]
  ring

@[simp] theorem toField_neg : toField (-a) = -toField a := by
  change toField ⟨a.coefficients.neg⟩ = _
  ext <;> simp only [toField, Poly.term_neg, QuadraticAlgebra.re_neg, QuadraticAlgebra.im_neg]
  ring

@[simp] theorem toField_ofBase (q : Base) :
    toField (ofBase q) = algebraMap (ZMod prime) QuadraticField (toZMod q) := by
  ext <;> simp [toField, ofBase, Poly.term_ofBase]

theorem toField_make (m n : Nat) :
    toField (make (Base.ofNat m) (Base.ofNat n)) = ⟨m - 9 * n, n⟩ := by
  have hm : term (make (Base.ofNat m) (Base.ofNat n)).coefficients 0 = m := Base.toZMod_ofNat m
  have hn : term (make (Base.ofNat m) (Base.ofNat n)).coefficients 1 = n := Base.toZMod_ofNat n
  rw [toField, hm, hn]

theorem toField_eq : toField a =
    algebraMap (ZMod prime) QuadraticField (term a.coefficients 0) +
      algebraMap (ZMod prime) QuadraticField (term a.coefficients 1) *
        (QuadraticAlgebra.omega - 9) := by
  ext
  · simp [toField, QuadraticAlgebra.re_ofNat, QuadraticAlgebra.im_ofNat]
    ring
  · simp [toField, QuadraticAlgebra.im_ofNat]

/-- The element is the value of its polynomial at `i`, which is `9` less than the generator. -/
theorem toField_eq_aeval : toField a =
    aeval (QuadraticAlgebra.omega - 9 : QuadraticField) (toPolynomial a.coefficients) := by
  rw [toPolynomial, Poly.low, Finset.sum_range_succ, Finset.sum_range_one, map_add, aeval_monomial,
    aeval_monomial, pow_zero, pow_one, mul_one, toField_eq]

theorem modulus_eq : modulus = Poly.ofBase 1 := by decide

theorem monic_modulus : Poly.monic modulus = X ^ 2 + 1 := by
  rw [Poly.monic, modulus_eq, Poly.toPolynomial_ofBase (by decide), Base.toZMod_one, C_1]

theorem aeval_monic_modulus :
    aeval (QuadraticAlgebra.omega - 9 : QuadraticField) (Poly.monic modulus) = 0 := by
  rw [monic_modulus, map_add, map_pow, aeval_X, map_one]
  ext
  · simp [pow_two, QuadraticAlgebra.re_ofNat, QuadraticAlgebra.im_ofNat, QuadraticAlgebra.re_one]
    ring
  · simp [pow_two, QuadraticAlgebra.re_ofNat, QuadraticAlgebra.im_ofNat, QuadraticAlgebra.im_one]
    ring

@[simp] theorem toField_mul : toField (a * b) = toField a * toField b := by
  have hmul : toPolynomial (a * b).coefficients =
      toPolynomial a.coefficients * toPolynomial b.coefficients %ₘ Poly.monic modulus :=
    Poly.toPolynomial_mulMod _ _ _
  rw [toField_eq_aeval, hmul, aeval_modByMonic_eq_self_of_root aeval_monic_modulus, map_mul,
    toField_eq_aeval, toField_eq_aeval]

theorem irreducible_modulus : Irreducible (Poly.monic modulus) := by
  have hdegree : (Poly.monic modulus).natDegree = 2 :=
    natDegree_eq_of_degree_eq_some (Poly.degree_monic modulus)
  refine irreducible_of_degree_le_three_of_not_isRoot ?_ fun x hx => sq_ne_neg_one x ?_
  · rw [hdegree]
    decide
  · simp only [monic_modulus, IsRoot, eval_add, eval_pow, eval_X, eval_one] at hx
    linear_combination hx

variable {a}

theorem eq_ofBase (h : term a.coefficients 1 = 0) :
    a = ofBase (a.coefficients.coeff 0) := by
  refine congrArg Quadratic.mk (Poly.eq_ofBase fun i hi => ?_)
  obtain rfl | hlt := Nat.eq_or_lt_of_le hi
  · exact h
  · exact Poly.term_of_le _ hlt

theorem inverse_of_ne (h : term a.coefficients 1 ≠ 0) :
    ∃ c, inverse a = .ok c ∧ toField c = (toField a)⁻¹ := by
  have hne : toPolynomial a.coefficients ≠ 0 := fun h0 => h (by
    rw [← coeff_toPolynomial, h0, coeff_zero])
  have hdegree : (toPolynomial a.coefficients).natDegree = 1 :=
    natDegree_eq_of_le_of_coeff_ne_zero (Nat.le_of_lt_succ (Poly.natDegree_toPolynomial_lt hne))
      (by rwa [coeff_toPolynomial])
  have hm0 : term modulus 0 ≠ 0 := by
    rw [modulus_eq, Poly.term_ofBase_zero (by decide), Base.toZMod_one]
    exact one_ne_zero
  obtain ⟨c, hdvd, hinverse⟩ := Poly.inverseMod_of_pos irreducible_modulus hm0 hdegree Nat.one_pos
  have hmul : toField a * toField ⟨c⟩ = 1 := by
    have hroot := aeval_eq_zero_of_dvd_aeval_eq_zero hdvd aeval_monic_modulus
    rw [map_sub, map_mul, map_one, sub_eq_zero] at hroot
    rwa [toField_eq_aeval, toField_eq_aeval]
  refine ⟨⟨c⟩, ?_, eq_inv_of_mul_eq_one_right hmul⟩
  rw [inverse, hinverse, Poly.outcome, if_neg]
  · rfl
  -- If the constant terms were inverse to each other, the inverse would be zero.
  rintro ⟨hone, -⟩
  rw [Poly.coeff_mul_eq_one_iff] at hone
  have hre := congrArg QuadraticAlgebra.re hmul
  have him := congrArg QuadraticAlgebra.im hmul
  simp only [toField, QuadraticAlgebra.re_mul, QuadraticAlgebra.im_mul, QuadraticAlgebra.re_one,
    QuadraticAlgebra.im_one] at hre him
  have hsecond : term a.coefficients 1 * term c 1 = 0 := by linear_combination hone - hre - 9 * him
  have hc1 := (mul_eq_zero.mp hsecond).resolve_left h
  have hc0 : term a.coefficients 1 * term c 0 = 0 := by
    linear_combination him - term a.coefficients 0 * hc1
  rw [(mul_eq_zero.mp hc0).resolve_left h, mul_zero] at hone
  exact zero_ne_one hone

theorem inverse_of_eq (h1 : term a.coefficients 1 = 0) (h0 : term a.coefficients 0 ≠ 0) :
    ∃ c, inverse a = .ok c ∧ toField c = 0 := by
  have ha : a.coefficients = Poly.ofBase (a.coefficients.coeff 0) :=
    congrArg Quadratic.coefficients (eq_ofBase h1)
  have htop : Poly.topBelow modulus 2 = some 0 := by decide
  have hcoeff : a.coefficients.coeff 0 ≠ 0 := fun h => h0 (Poly.coeff_eq_zero_iff.mp h)
  rw [inverse, ha, Poly.inverseMod_eq (Poly.topBelow_ofBase (by decide) hcoeff) rfl
    (Poly.subShifted_all _) (Poly.subShifted_all _) htop, Poly.euclid_done rfl]
  refine ⟨_, rfl, ?_⟩
  rw [toField_eq_aeval, Poly.toPolynomial_scale, Poly.toPolynomial_ofBase (by decide),
    Base.toZMod_zero, C_0, mul_zero, map_zero]

theorem inverse_ok {a : Quadratic} (h : toField a ≠ 0) : ∃ c, inverse a = .ok c ∧
    toField c = if (toField a).im = 0 then 0 else (toField a)⁻¹ := by
  split
  · next him =>
    refine inverse_of_eq him fun h0 => h ?_
    have him' : term a.coefficients 1 = 0 := him
    ext
    · rw [toField, h0, him', mul_zero, sub_zero]
      rfl
    · exact him
  · next him => exact inverse_of_ne him

def pair (x y : ZMod prime) : Poly 2 := Poly.ofTerms 2 fun i => if i = 0 then x else y

@[simp] theorem term_pair_zero (x y : ZMod prime) : term (pair x y) 0 = x := by simp [pair]

@[simp] theorem term_pair_one (x y : ZMod prime) : term (pair x y) 1 = y := by simp [pair]

end Quadratic

end ExecutionLayer.AltBn128
