import ExecutionLayer.Proofs.AltBn128.Irreducible

/-! # Inverses in the extensions

The modulus of the extension of degree twelve is irreducible, so that every element but zero has an
inverse. The algorithm of Euclid finds it as long as the product of the constant terms of the two is
not one, and in the quadratic extension for elements outside of the base field.
-/
namespace ExecutionLayer.AltBn128
open Polynomial
open Base (toZMod)
open AltBn128.Poly (term low toPolynomial coeff_low coeff_toPolynomial)

namespace Dodecic

theorem term_setIfInBounds (p : Poly 24) (i : Nat) (q : Base) {t : Nat} (ht : t < 24) :
    term (p.setIfInBounds i q) t = if t = i then toZMod q else term p t := by
  rw [Poly.term_of_lt _ ht, Poly.term_of_lt p ht, Vector.getElem_setIfInBounds, eq_comm]
  split <;> split <;> first | rfl | omega

theorem term_reduceTerm (p : Poly 24) {i t : Nat} (hi : 12 ≤ i) (hi' : i < 24) (ht : t < 24) :
    term (reduceTerm p i) t = if t = i - 12 then term p t - term p i * 82
      else if t = i - 6 then term p t + term p i * 18 else term p t := by
  unfold reduceTerm
  dsimp only
  rw [term_setIfInBounds _ _ _ ht, term_setIfInBounds _ _ _ ht]
  by_cases h : t = i - 12
  · have hlow : term (p.setIfInBounds (i - 6) (p.coeff (i - 6) + p.coeff i * 18)) (i - 12) =
        term p (i - 12) := by
      rw [term_setIfInBounds _ _ _ (by omega), if_neg (by omega)]
    rw [if_pos h, if_pos h, h, ← hlow, Base.toZMod_sub, Base.toZMod_mul, Base.toZMod_numeral]
    rfl
  · rw [if_neg h, if_neg h]
    split
    · next h' =>
      rw [h', Base.toZMod_add, Base.toZMod_mul, Base.toZMod_numeral]
      rfl
    · rfl

theorem low_sub_low_reduceTerm (c : Poly 24) {i : Nat} (hi : 12 ≤ i) (hi' : i < 24) :
    low (i + 1) c - low i (reduceTerm c i) = monomial (i - 12) (term c i) * trinomial 6 := by
  have hmul : monomial (i - 12) (term c i) * trinomial 6 = monomial i (term c i) -
      monomial (i - 6) (term c i * 18) + monomial (i - 12) (term c i * 82) := by
    obtain ⟨k, rfl⟩ := Nat.exists_eq_add_of_le' hi
    have hk : k + 12 - 6 = k + 6 := rfl
    rw [hk, Nat.add_sub_cancel]
    simp only [trinomial_eq, ← C_mul_X_pow_eq_monomial, C_mul]
    ring
  rw [hmul]
  ext t
  rw [coeff_sub, coeff_low, coeff_low, coeff_add, coeff_sub, coeff_monomial, coeff_monomial,
    coeff_monomial]
  by_cases ht : t < 24
  · rw [term_reduceTerm c hi hi' ht]
    split_ifs <;> first | omega | (subst_vars; ring)
  · rw [if_neg (by omega), if_neg (by omega), if_neg (by omega), if_neg (by omega),
      if_neg (by omega)]
    ring

section Mul
variable (a b : Dodecic)

theorem term_product_top : term (Poly.product a.coefficients b.coefficients) 23 = 0 := by
  have hle (p : Poly 12) : (toPolynomial p).natDegree ≤ 11 :=
    natDegree_le_iff_coeff_eq_zero.mpr fun i hi => by
      rw [coeff_toPolynomial, Poly.term_of_le p hi]
  have hmul : (toPolynomial a.coefficients * toPolynomial b.coefficients).natDegree ≤ 11 + 11 :=
    natDegree_mul_le.trans (Nat.add_le_add (hle _) (hle _))
  rw [← coeff_toPolynomial, Poly.toPolynomial_product]
  exact coeff_eq_zero_of_natDegree_lt (hmul.trans_lt (by decide))

theorem dvd_mul_sub_mul : trinomial 6 ∣
    toPolynomial a.coefficients * toPolynomial b.coefficients -
      toPolynomial (a * b).coefficients := by
  have hlow : low 23 (Poly.product a.coefficients b.coefficients) =
      toPolynomial a.coefficients * toPolynomial b.coefficients := by
    have hsucc := Poly.low_succ (Poly.product a.coefficients b.coefficients) 23
    rw [term_product_top, monomial_zero_right, add_zero] at hsucc
    rw [← Poly.toPolynomial_product, ← hsucc]
    rfl
  have hcut : toPolynomial (a * b).coefficients = low 12 ((Poly.degreesDown 23 12).foldl reduceTerm
      (Poly.product a.coefficients b.coefficients)) := Poly.toPolynomial_ofFn_coeff _
  rw [← hlow, hcut]
  refine Poly.dvd_low_sub_foldl (fun c i hi hi' => ?_) _ (by decide) (by decide : 23 ≤ 24)
  exact ⟨_, (low_sub_low_reduceTerm c hi hi').trans (mul_comm _ _)⟩

end Mul

theorem term_modulus (i : Nat) :
    term modulus i = if i = 0 then 82 else if i = 6 then -18 else 0 := by
  by_cases hi : i < 12
  · interval_cases i
    case «0» => exact Base.toZMod_numeral 82
    case «6» => exact (Base.toZMod_neg 18).trans (congrArg _ (Base.toZMod_numeral 18))
    all_goals exact Base.toZMod_zero
  · rw [Poly.term_of_le _ (Nat.le_of_not_lt hi), if_neg (by omega), if_neg (by omega)]

theorem toPolynomial_modulus : toPolynomial modulus = C 82 - C 18 * X ^ 6 := by
  ext i
  rw [coeff_toPolynomial, term_modulus, coeff_sub, coeff_C, coeff_C_mul_X_pow]
  split_ifs <;> first | omega | ring

theorem monic_modulus : Poly.monic modulus = trinomial 6 := by
  rw [trinomial_eq, Poly.monic, toPolynomial_modulus]

theorem mul_eq_one_of_dvd {a b : Dodecic}
    (h : trinomial 6 ∣ toPolynomial a.coefficients * toPolynomial b.coefficients - 1) :
    a * b = ofBase 1 := by
  have hone : toPolynomial (ofBase 1).coefficients = 1 := by
    rw [ofBase, Poly.toPolynomial_ofBase (by decide), Base.toZMod_one, C_1]
  have hdvd := dvd_sub h (dvd_mul_sub_mul a b)
  rw [sub_sub_sub_cancel_left, ← hone, ← monic_modulus] at hdvd
  exact congrArg Dodecic.mk (Poly.eq_of_dvd_sub hdvd)

theorem topBelow_modulus : Poly.topBelow modulus 12 = some (5 + 1) := by
  refine Poly.topBelow_eq_some ?_ (by decide) fun i hi _ => ?_
  · rw [term_modulus, if_neg (by decide), if_pos rfl]
    exact neg_ne_zero.mpr (numeral_ne_zero 18 (by decide))
  · rw [term_modulus, if_neg (by omega), if_neg (by omega)]

theorem inverse_eq {a : Dodecic} (h : a ≠ ofBase 0) : ∃ b, a * b = ofBase 1 ∧
    inverse a = (Poly.outcome a.coefficients b.coefficients).map Dodecic.mk := by
  have hne : toPolynomial a.coefficients ≠ 0 := by
    intro hzero
    refine h (congrArg Dodecic.mk (Poly.toPolynomial_injective ?_))
    rw [hzero, Poly.toPolynomial_ofBase (by decide), Base.toZMod_zero, C_0]
  have hm0 : term modulus 0 ≠ 0 := by
    rw [term_modulus, if_pos rfl]
    exact numeral_ne_zero 82 (by decide)
  obtain ⟨b, hb, hinverse⟩ := Poly.inverseMod_eq_outcome (monic_modulus ▸ irreducible_trinomial_six)
    hm0 topBelow_modulus hne
  refine ⟨⟨b⟩, mul_eq_one_of_dvd (monic_modulus ▸ hb), ?_⟩
  rw [inverse, hinverse]

theorem inverse_ofBase {q : Base} (h0 : q ≠ 0) (h1 : q ≠ 1) :
    inverse (ofBase q) = .error (Poly.refusal 12 (Base.inverse q)) := by
  have hcoeff (x : Base) : Poly.coeff (Poly.ofBase x : Poly 12) 0 = x :=
    Base.toZMod_injective (Poly.term_ofBase_zero (by decide) x)
  have hmul : q * Base.inverse q = 1 := Base.toZMod_injective (by
    rw [Base.toZMod_mul, Base.toZMod_inverse, Base.toZMod_one]
    exact mul_inv_cancel₀ fun h => h0 ((Base.toZMod_eq_zero_iff q).mp h))
  rw [inverse, ofBase, Poly.inverseMod_ofBase topBelow_modulus h0, Poly.outcome, hcoeff, hcoeff,
    if_pos ⟨hmul, h1⟩]
  rfl

end Dodecic

namespace Quadratic

theorem inverse_eq {a : Quadratic} (h : a ≠ ofBase 0) : ∃ b, a * b = ofBase 1 ∧
    inverse a = .ok (if a.coefficients.coeff 1 = 0 then ofBase 0 else b) := by
  have hne : toField a ≠ 0 := by
    intro hzero
    refine h (toField_injective ?_)
    rw [hzero, toField_ofBase, Base.toZMod_zero, map_zero]
  by_cases h1 : term a.coefficients 1 = 0
  · have ha := eq_ofBase h1
    have h0 : term a.coefficients 0 ≠ 0 := by
      intro hzero
      rw [Poly.coeff_eq_zero_iff.mpr hzero] at ha
      exact h ha
    obtain ⟨c, hc, hfield⟩ := inverse_of_eq h1 h0
    refine ⟨ofBase (Base.inverse (a.coefficients.coeff 0)), toField_injective ?_, ?_⟩
    · have htoField : toField a =
          algebraMap (ZMod prime) QuadraticField (term a.coefficients 0) := by
        rw [ha]
        exact toField_ofBase _
      rw [toField_mul, htoField, toField_ofBase, toField_ofBase, ← map_mul, Base.toZMod_inverse,
        Base.toZMod_one]
      exact congrArg _ (mul_inv_cancel₀ h0)
    · rw [if_pos (Poly.coeff_eq_zero_iff.mpr h1), hc]
      refine congrArg _ (toField_injective ?_)
      rw [hfield, toField_ofBase, Base.toZMod_zero, map_zero]
  · obtain ⟨c, hc, hfield⟩ := inverse_of_ne h1
    refine ⟨c, toField_injective ?_, ?_⟩
    · rw [toField_mul, hfield, mul_inv_cancel₀ hne, toField_ofBase, Base.toZMod_one, map_one]
    · rw [if_neg fun h => h1 (Poly.coeff_eq_zero_iff.mp h), hc]

end Quadratic

/-- Every element but zero has an inverse. In the quadratic extension it is found, unless the
element lies in the base field, where the result is zero. In the extension of degree twelve it is
found, unless its constant term and that of the element are inverse to each other and other than
one. -/
theorem inverse_of_ne_zero (a : Quadratic) (c : Dodecic) (ha : a ≠ Quadratic.ofBase 0)
    (hc : c ≠ Dodecic.ofBase 0) :
    (∃ b, a * b = Quadratic.ofBase 1 ∧
      Quadratic.inverse a =
        .ok (if a.coefficients.coeff 1 = 0 then Quadratic.ofBase 0 else b)) ∧
    ∃ b, c * b = Dodecic.ofBase 1 ∧
      Dodecic.inverse c =
        if c.coefficients.coeff 0 * b.coefficients.coeff 0 = 1 ∧ c.coefficients.coeff 0 ≠ 1 then
          .error (Poly.refusal 12 (b.coefficients.coeff 0))
        else .ok b := by
  refine ⟨Quadratic.inverse_eq ha, ?_⟩
  obtain ⟨b, hmul, hinverse⟩ := Dodecic.inverse_eq hc
  refine ⟨b, hmul, ?_⟩
  rw [hinverse, Poly.outcome]
  split <;> rfl

theorem inverse_of_ne_zero_full :
    Quadratic.make 3 4 ≠ Quadratic.ofBase 0 ∧
    Dodecic.mk ⟨#[1, 2, 3, 4, 5, 6, 7, 8, 9, 10, 11, 12], rfl⟩ ≠ Dodecic.ofBase 0 ∧
    (∃ b, Quadratic.make 3 4 * b = Quadratic.ofBase 1 ∧
      Quadratic.inverse (Quadratic.make 3 4) = .ok b) ∧
    ∃ b, Dodecic.mk ⟨#[1, 2, 3, 4, 5, 6, 7, 8, 9, 10, 11, 12], rfl⟩ * b = Dodecic.ofBase 1 ∧
      Dodecic.inverse ⟨⟨#[1, 2, 3, 4, 5, 6, 7, 8, 9, 10, 11, 12], rfl⟩⟩ = .ok b := by
  have hquadratic : Quadratic.make 3 4 ≠ Quadratic.ofBase 0 := by decide
  have hdodecic : Dodecic.mk ⟨#[1, 2, 3, 4, 5, 6, 7, 8, 9, 10, 11, 12], rfl⟩ ≠
      Dodecic.ofBase 0 := by decide
  obtain ⟨⟨b, hmul, hb⟩, c, hmul', hc⟩ := inverse_of_ne_zero _ _ hquadratic hdodecic
  rw [if_neg (by decide)] at hb
  rw [if_neg fun h => h.2 (by decide)] at hc
  exact ⟨hquadratic, hdodecic, ⟨b, hmul, hb⟩, c, hmul', hc⟩

/-- The inverse of three is missed in both extensions. -/
theorem inverse_of_three_missed :
    Quadratic.inverse (Quadratic.ofBase 3) = .ok (Quadratic.ofBase 0) ∧
    Quadratic.ofBase 3 * Quadratic.ofBase 0 ≠ Quadratic.ofBase 1 ∧
    Dodecic.inverse (Dodecic.ofBase 3) = .error (Poly.refusal 12 (Base.inverse 3)) := by
  refine ⟨?_, fun h => ?_, Dodecic.inverse_ofBase (by decide) (by decide)⟩
  · obtain ⟨b, -, hb⟩ := Quadratic.inverse_eq (a := Quadratic.ofBase 3) (by decide)
    rw [hb, if_pos (by decide)]
  · have hfield := congrArg Quadratic.toField h
    rw [Quadratic.toField_mul, Quadratic.toField_ofBase, Quadratic.toField_ofBase,
      Quadratic.toField_ofBase, Base.toZMod_zero, Base.toZMod_one, map_zero, map_one, mul_zero]
      at hfield
    exact zero_ne_one hfield

end ExecutionLayer.AltBn128
