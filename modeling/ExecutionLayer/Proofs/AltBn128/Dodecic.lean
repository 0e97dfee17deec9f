import ExecutionLayer.Proofs.AltBn128.Conjugation

/-! # Monomials over the quadratic extension

The extension of degree twelve is one of degree six over the quadratic one: the sixth power of its
root is `9 + i`. Points of the twist have coordinates with one term only in this sense, and such
monomials are multiplied and inverted term by term.
-/
namespace ExecutionLayer.AltBn128
open Base (toZMod)
open AltBn128.Poly (term toPolynomial)
open Polynomial

namespace Dodecic

/-- The coefficients of a term of degree `j`, below six, over the quadratic extension. -/
def two (j : Nat) (d : QuadraticField) : Poly 12 :=
  Poly.ofTerms 12 fun i => if i = j then d.re else if i = j + 6 then d.im else 0

section Two
variable {j : Nat} (d : QuadraticField)

theorem term_two (hj : j < 6) (i : Nat) :
    term (two j d) i = if i = j then d.re else if i = j + 6 then d.im else 0 := by
  rw [two, Poly.term_ofTerms]
  split_ifs <;> first | rfl | omega

theorem two_injective (hj : j < 6) : Function.Injective (two j) := by
  intro c d h
  have hre := congrArg (term · j) h
  have him := congrArg (term · (j + 6)) h
  simp only [term_two _ hj, ↓reduceIte, Nat.add_eq_left, OfNat.ofNat_ne_zero] at hre him
  exact QuadraticAlgebra.ext hre him

end Two

def mono (m : Nat) (d : QuadraticField) : Dodecic :=
  ⟨two (m % 6) (d * QuadraticAlgebra.omega ^ (m / 6))⟩

theorem omega_ne_zero : (QuadraticAlgebra.omega : QuadraticField) ≠ 0 :=
  fun h => one_ne_zero (congrArg QuadraticAlgebra.im h)

section Mono
variable (m n : Nat) (c d : QuadraticField)

theorem mono_add_six : mono (m + 6) d = mono m (d * QuadraticAlgebra.omega) := by
  rw [mono, mono, Nat.add_mod_right, Nat.add_div_right m (by decide), pow_succ']
  ring_nf

theorem mono_injective : Function.Injective (mono m) := by
  intro c d h
  have hm : m % 6 < 6 := Nat.mod_lt m (by decide)
  have htwo := two_injective hm (congrArg Dodecic.coefficients h)
  exact mul_right_cancel₀ (pow_ne_zero _ omega_ne_zero) htwo

theorem term_mono (i : Nat) : term (mono m d).coefficients i =
    if i = m % 6 then (d * QuadraticAlgebra.omega ^ (m / 6)).re
    else if i = m % 6 + 6 then (d * QuadraticAlgebra.omega ^ (m / 6)).im else 0 :=
  term_two _ (Nat.mod_lt m (by decide)) i

theorem eq_mono {a : Dodecic} (h : ∀ i < 12, term a.coefficients i =
    if i = m % 6 then (d * QuadraticAlgebra.omega ^ (m / 6)).re
    else if i = m % 6 + 6 then (d * QuadraticAlgebra.omega ^ (m / 6)).im else 0) : a = mono m d :=
  congrArg Dodecic.mk (Poly.eq_of_term fun i hi => (h i hi).trans (term_mono m d i).symm)

theorem mono_add : mono m c + mono m d = mono m (c + d) := by
  refine eq_mono m _ fun i _ => ?_
  change term (Poly.add _ _) i = _
  rw [Poly.term_add, term_mono, term_mono, add_mul]
  split_ifs
  · rfl
  · rfl
  · exact add_zero 0

theorem mono_sub : mono m c - mono m d = mono m (c - d) := by
  refine eq_mono m _ fun i _ => ?_
  change term (Poly.sub _ _) i = _
  rw [Poly.term_sub, term_mono, term_mono, sub_mul]
  split_ifs
  · rfl
  · rfl
  · exact sub_zero 0

theorem mono_neg : -mono m d = mono m (-d) := by
  refine eq_mono m _ fun i _ => ?_
  change term (Poly.neg _) i = _
  rw [Poly.term_neg, term_mono, neg_mul]
  split_ifs
  · rfl
  · rfl
  · exact neg_zero

theorem ofBase_eq (q : Base) :
    Dodecic.ofBase q = mono 0 (algebraMap (ZMod prime) QuadraticField (toZMod q)) := by
  refine eq_mono 0 _ fun i hi => ?_
  rw [Nat.zero_mod, Nat.zero_div, pow_zero, mul_one]
  exact (Poly.term_ofBase q hi).trans (by simp)

theorem ofBase_numeral [n.AtLeastTwo] :
    Dodecic.ofBase (OfNat.ofNat n) = mono 0 (OfNat.ofNat n) := by
  rw [ofBase_eq, Base.toZMod_numeral, map_ofNat]

theorem mono_zero : mono m 0 = Dodecic.ofBase 0 := by
  refine (eq_mono m 0 fun i hi => ?_).symm
  rw [zero_mul, QuadraticAlgebra.re_zero, QuadraticAlgebra.im_zero, ite_self, ite_self]
  exact (Poly.term_ofBase 0 hi).trans (by simp)

/-! ## Products

In the quotient by the modulus the sixth power of the root generates a copy of the quadratic
extension, and a monomial is the product of an element of this copy and a power of the root.
-/

noncomputable def generator : AdjoinRoot (Poly.monic modulus) := AdjoinRoot.root _

theorem generator_pow_mul_self : generator ^ 6 * generator ^ 6 =
    (-82 : ZMod prime) • 1 + (18 : ZMod prime) • generator ^ 6 := by
  have hself : AdjoinRoot.mk (Poly.monic modulus) (X ^ (2 * 6) + (C 82 - C 18 * X ^ 6)) = 0 := by
    rw [← trinomial_eq, ← monic_modulus, AdjoinRoot.mk_self]
  simp only [map_add, map_sub, map_mul, map_pow, AdjoinRoot.mk_X, AdjoinRoot.mk_C] at hself
  rw [Algebra.smul_def, Algebra.smul_def, AdjoinRoot.algebraMap_eq, map_neg]
  unfold generator
  linear_combination hself

noncomputable def ofQuadratic : QuadraticField →ₐ[ZMod prime] AdjoinRoot (Poly.monic modulus) :=
  QuadraticAlgebra.lift ⟨generator ^ 6, generator_pow_mul_self⟩

theorem ofQuadratic_omega : ofQuadratic QuadraticAlgebra.omega = generator ^ 6 := by
  simp [ofQuadratic]

theorem residue_two {j : Nat} (hj : j < 6) :
    Poly.residue modulus (two j d) = generator ^ j * ofQuadratic d := by
  have htwo : toPolynomial (two j d) = X ^ j * (C d.re + C d.im * X ^ 6) := by
    ext i
    rw [Poly.coeff_toPolynomial, term_two d hj, coeff_X_pow_mul', coeff_add, coeff_C,
      coeff_C_mul_X_pow]
    split_ifs <;> first | omega | simp
  have hd : ofQuadratic d = d.re • 1 + d.im • generator ^ 6 := rfl
  rw [Poly.residue, htwo, hd, Algebra.smul_def, Algebra.smul_def, mul_one]
  simp only [map_mul, map_add, map_pow, AdjoinRoot.mk_X, AdjoinRoot.mk_C]
  rfl

theorem residue_mono : extension.residue (mono m d) = generator ^ m * ofQuadratic d := by
  change Poly.residue modulus (two (m % 6) (d * QuadraticAlgebra.omega ^ (m / 6))) = _
  rw [residue_two _ (Nat.mod_lt m (by decide)), map_mul, map_pow, ofQuadratic_omega, ← pow_mul,
    mul_left_comm, ← pow_add, Nat.mod_add_div, mul_comm]

theorem mono_mul : mono m c * mono n d = mono (m + n) (c * d) := by
  refine extension.residue_injective ?_
  rw [Extension.residue_mul, residue_mono, residue_mono, residue_mono, map_mul, pow_add]
  ring

theorem inverse_mono {j : Nat} (hj : 0 < j) (hj' : j < 6) {d : QuadraticField} (hd : d ≠ 0) :
    inverse (mono j d) = .ok (mono (6 - j) (d⁻¹ * QuadraticAlgebra.omega⁻¹)) := by
  have hmul : mono j d * mono (6 - j) (d⁻¹ * QuadraticAlgebra.omega⁻¹) = ofBase 1 := by
    rw [mono_mul, Nat.add_sub_cancel' hj'.le, mul_inv_cancel_left₀ hd, mono_add_six 0,
      inv_mul_cancel₀ omega_ne_zero, ofBase_eq, Base.toZMod_one, map_one]
  have hterm : term (mono j d).coefficients 0 = 0 := by
    rw [term_mono, Nat.mod_eq_of_lt hj', if_neg (by omega), if_neg (by omega)]
  have hne : mono j d ≠ ofBase 0 := fun h => hd (mono_injective j (h.trans (mono_zero j).symm))
  obtain ⟨b, hb, hinverse⟩ := inverse_eq hne
  have heq : b = mono (6 - j) (d⁻¹ * QuadraticAlgebra.omega⁻¹) := by
    refine extension.residue_injective (left_inv_eq_right_inv (a := extension.residue (mono j d)) ?_ ?_)
    · rw [mul_comm, ← Extension.residue_mul, hb]
      exact extension.residue_one
    · rw [← Extension.residue_mul, hmul]
      exact extension.residue_one
  rw [hinverse, Poly.outcome, if_neg, ← heq]
  · rfl
  · rintro ⟨hone, -⟩
    rw [Poly.coeff_mul_eq_one_iff, hterm, zero_mul] at hone
    exact zero_ne_one hone

end Mono

end Dodecic

end ExecutionLayer.AltBn128
