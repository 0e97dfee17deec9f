import ExecutionLayer.Proofs.AltBn128.Polynomial

/-! # The extended algorithm of Euclid

Every remainder of the algorithm is a multiple of the element modulo the modulus, the two at hand
have no common factor, and nothing is dropped when factors are shifted. So it ends with a constant.
Which of the two sequences the constant turns up in is told by the constant terms of the element and
its inverse.
-/
namespace ExecutionLayer.AltBn128.Poly
open Base (toZMod ofZMod)
open Polynomial
variable {d : Nat}

theorem ne_zero_of_isCoprime {p q : (ZMod prime)[X]} (h : IsCoprime p q) (hq : q.natDegree ≠ 0) :
    p ≠ 0 := by
  rintro rfl
  exact hq (natDegree_eq_zero_of_isUnit (isCoprime_zero_left.mp h))

namespace Remainder

/-- A remainder has the degree that it says and is a multiple of the element modulo the modulus. -/
structure Follows (m a : Poly d) (r : Remainder d) : Prop where
  ne_zero : toPolynomial r.value ≠ 0
  natDegree_eq : (toPolynomial r.value).natDegree = r.degree
  dvd : monic m ∣ toPolynomial r.factor * toPolynomial a - toPolynomial r.value

/-- Two remainders have no common factor, and the degrees of what belongs to them are bounded by
what the other has lost. -/
structure Balanced (r s : Remainder d) : Prop where
  coprime : IsCoprime (toPolynomial r.value) (toPolynomial s.value)
  first : (toPolynomial r.factor).natDegree + s.degree ≤ d
  second : (toPolynomial s.factor).natDegree + r.degree ≤ d

theorem Balanced.symm {r s : Remainder d} (h : r.Balanced s) : s.Balanced r :=
  ⟨h.coprime.symm, h.second, h.first⟩

/-- The term by which a multiple of the second remainder is subtracted from the first. -/
noncomputable def quotient (r s : Remainder d) : (ZMod prime)[X] :=
  C (term r.value r.degree * (term s.value s.degree)⁻¹) * X ^ (r.degree - s.degree)

section Cancel
variable {m a : Poly d} {r s : Remainder d}

theorem Follows.degree_lt (h : r.Follows m a) : r.degree < d :=
  h.natDegree_eq ▸ natDegree_toPolynomial_lt h.ne_zero

theorem Follows.term_eq_zero (h : r.Follows m a) {i : Nat} (hi : r.degree < i) :
    term r.value i = 0 :=
  term_eq_zero_of_natDegree_lt (h.natDegree_eq ▸ hi)

theorem Follows.term_ne_zero (h : r.Follows m a) : term r.value r.degree ≠ 0 :=
  h.natDegree_eq ▸ term_natDegree_ne_zero h.ne_zero

theorem Follows.cancel_value (hr : r.Follows m a) (hs : s.Follows m a) (hle : s.degree ≤ r.degree) :
    toPolynomial (r.cancel s).1 =
      toPolynomial r.value - r.quotient s * toPolynomial s.value := by
  have hlt := hr.degree_lt
  rw [cancel_eq r s rfl rfl, toPolynomial_subShifted _ _ _ _ fun i hi => hs.term_eq_zero (by omega)]
  rfl

theorem Balanced.cancel_factor (hb : r.Balanced s) (h0 : s.degree ≠ 0) (hle : s.degree ≤ r.degree) :
    toPolynomial (r.cancel s).2 =
      toPolynomial r.factor - r.quotient s * toPolynomial s.factor := by
  have hsecond := hb.second
  rw [cancel_eq r s rfl rfl, toPolynomial_subShifted]
  · rfl
  · exact fun i hi => term_eq_zero_of_natDegree_lt (by omega)

theorem Follows.degree_cancel_lt (hr : r.Follows m a) (hs : s.Follows m a)
    (hle : s.degree ≤ r.degree) : (toPolynomial (r.cancel s).1).degree < r.degree := by
  refine (degree_lt_iff_coeff_zero _ _).mpr fun i hi => ?_
  rw [hr.cancel_value hs hle, coeff_sub, coeff_toPolynomial, quotient, mul_assoc, coeff_C_mul,
    coeff_X_pow_mul', if_pos (by omega), coeff_toPolynomial]
  obtain rfl | hlt := Nat.eq_or_lt_of_le hi
  · rw [Nat.sub_sub_self hle, mul_assoc, inv_mul_cancel₀ hs.term_ne_zero, mul_one, sub_self]
  · have hzero : term s.value (i - (r.degree - s.degree)) = 0 := hs.term_eq_zero (by omega)
    rw [hr.term_eq_zero hlt, hzero, mul_zero, sub_zero]

theorem natDegree_quotient_mul_le (r s : Remainder d) (p : (ZMod prime)[X]) :
    (r.quotient s * p).natDegree ≤ r.degree - s.degree + p.natDegree :=
  natDegree_mul_le.trans (Nat.add_le_add_right (natDegree_C_mul_X_pow_le _ _) _)

theorem Follows.cancel (hr : r.Follows m a) (hs : s.Follows m a) (hb : r.Balanced s)
    (h0 : s.degree ≠ 0) (hle : s.degree ≤ r.degree) :
    ∃ k, topBelow (r.cancel s).1 r.degree = some k ∧
      (Remainder.mk (r.cancel s).1 (r.cancel s).2 k).Follows m a ∧
      (Remainder.mk (r.cancel s).1 (r.cancel s).2 k).Balanced s := by
  have hvalue := hr.cancel_value hs hle
  have hfactor := hb.cancel_factor h0 hle
  have hcoprime : IsCoprime (toPolynomial (r.cancel s).1) (toPolynomial s.value) := by
    rw [hvalue]
    exact IsCoprime.sub_mul_right_left_iff.mpr hb.coprime
  have hne := ne_zero_of_isCoprime hcoprime (hs.natDegree_eq ▸ h0)
  have hlt := (natDegree_lt_iff_degree_lt hne).mpr (hr.degree_cancel_lt hs hle)
  refine ⟨_, topBelow_eq_natDegree hne hlt, ⟨hne, rfl, ?_⟩, ⟨hcoprime, ?_, ?_⟩⟩
  · have hdvd := dvd_sub hr.dvd (hs.dvd.mul_left (r.quotient s))
    rw [hvalue, hfactor]
    convert hdvd using 1
    ring
  · have hmax := natDegree_sub_le (toPolynomial r.factor) (r.quotient s * toPolynomial s.factor)
    have hmul := natDegree_quotient_mul_le r s (toPolynomial s.factor)
    have hfirst := hb.first
    have hsecond := hb.second
    rw [← hfactor] at hmax
    dsimp only
    omega
  · have hsecond := hb.second
    dsimp only
    omega

end Cancel

/-- The constant terms of the first sequence change with those of its factors. Those of the second
one stay what they are. -/
structure Anchored (m a : Poly d) (r s : Remainder d) : Prop where
  first : term r.value 0 = term r.factor 0 * term a 0 + term m 0
  value : term s.value 0 = term a 0
  factor : term s.factor 0 = 1

section Anchored
variable {m a : Poly d} {r s : Remainder d} (hd : 0 < d) (h : Anchored m a r s)
include hd h

theorem Anchored.cancel_first (k : Nat) : Anchored m a ⟨(r.cancel s).1, (r.cancel s).2, k⟩ s := by
  refine ⟨?_, h.value, h.factor⟩
  rw [cancel_eq r s rfl rfl]
  dsimp only
  rw [term_subShifted _ _ _ _ hd, term_subShifted _ _ _ _ hd]
  split
  · rw [Nat.zero_sub, h.value, h.factor, h.first]
    ring
  · exact h.first

theorem Anchored.cancel_second (hlt : r.degree < s.degree) (k : Nat) :
    Anchored m a r ⟨(s.cancel r).1, (s.cancel r).2, k⟩ := by
  have hshift : ¬s.degree - r.degree ≤ 0 := by omega
  have hcancel := cancel_eq s r rfl rfl
  refine ⟨h.first, ?_, ?_⟩
  · rw [hcancel, term_subShifted _ _ _ _ hd, if_neg hshift, h.value]
  · rw [hcancel, term_subShifted _ _ _ _ hd, if_neg hshift, h.factor]

end Anchored

end Remainder

/-- What the algorithm makes of an element, when `b` is the inverse. -/
def outcome (a b : Poly d) : Except Fault (Poly d) :=
  if coeff a 0 * coeff b 0 = 1 ∧ coeff a 0 ≠ 1 then .error (refusal d (coeff b 0)) else .ok b

section Outcome
variable {m a b : Poly d} {r s : Remainder d}

theorem coeff_mul_eq_one_iff : coeff a 0 * coeff b 0 = 1 ↔ term a 0 * term b 0 = 1 := by
  rw [← Base.toZMod_injective.eq_iff, Base.toZMod_mul, Base.toZMod_one]
  rfl

theorem coeff_eq_one_iff {i : Nat} : coeff a i = 1 ↔ term a i = 1 := by
  rw [← Base.toZMod_injective.eq_iff, Base.toZMod_one]
  rfl

theorem Remainder.Follows.inverse (h : r.Follows m a) (h0 : r.degree = 0) :
    monic m ∣ toPolynomial a *
      toPolynomial (scale (ofZMod (term r.value 0)⁻¹) r.factor) - 1 := by
  have hne : term r.value 0 ≠ 0 := h0 ▸ h.term_ne_zero
  have hvalue : toPolynomial r.value = C (term r.value 0) := by
    rw [← coeff_toPolynomial]
    exact eq_C_of_natDegree_eq_zero (h.natDegree_eq.trans h0)
  have hone : (C (term r.value 0)⁻¹ * C (term r.value 0) : (ZMod prime)[X]) = 1 := by
    rw [← C_mul, inv_mul_cancel₀ hne, C_1]
  have hdvd := h.dvd.mul_left (C (term r.value 0)⁻¹)
  rw [hvalue] at hdvd
  rw [toPolynomial_scale, Base.toZMod_ofZMod]
  convert hdvd using 1
  linear_combination hone

theorem euclid_of_first (hm : term m 0 ≠ 0) (hr : r.Follows m a) (hc : r.Anchored m a s)
    (h0 : r.degree = 0) : euclid r s = outcome a (scale (ofZMod (term r.value 0)⁻¹) r.factor) := by
  rw [euclid_done h0, outcome, if_neg]
  rintro ⟨hmul, -⟩
  rw [coeff_mul_eq_one_iff, term_scale, Base.toZMod_ofZMod] at hmul
  have hne : term r.value 0 ≠ 0 := h0 ▸ hr.term_ne_zero
  refine hm ?_
  field_simp at hmul
  linear_combination -hc.first - hmul

theorem euclid_of_second (ha : term a 0 ≠ 0) (hr : r.degree ≠ 0) (h0 : s.degree = 0)
    (hvalue : term s.value 0 = term a 0) (hfactor : term s.factor 0 = 1) :
    euclid r s = outcome a (scale (ofZMod (term s.value 0)⁻¹) s.factor) := by
  have hcoeff : coeff (scale (ofZMod (term s.value 0)⁻¹) s.factor) 0 =
      Base.inverse (coeff s.value 0) := by
    rw [coeff_eq, term_scale, hfactor, mul_one, inverse_coeff, Base.toZMod_ofZMod]
  have hmul : coeff a 0 * coeff (scale (ofZMod (term s.value 0)⁻¹) s.factor) 0 = 1 := by
    rw [coeff_mul_eq_one_iff, term_scale, hfactor, mul_one, Base.toZMod_ofZMod, hvalue]
    exact mul_inv_cancel₀ ha
  have hinv : Base.inverse (coeff s.value 0) = 1 ↔ coeff a 0 = 1 := by
    rw [← hcoeff, coeff_eq_one_iff, coeff_eq_one_iff, term_scale, hfactor, mul_one,
      Base.toZMod_ofZMod, hvalue, inv_eq_one]
  rw [euclid, if_neg hr, if_pos h0, outcome, hcoeff]
  by_cases hone : coeff a 0 = 1
  · have hterm : term s.value 0 = 1 := hvalue.trans (coeff_eq_one_iff.mp hone)
    rw [if_pos (hinv.mpr hone), if_neg fun h => h.2 hone, hterm, inv_one]
    refine congrArg _ (eq_of_term fun i _ => ?_)
    rw [term_scale, Base.toZMod_ofZMod, one_mul]
  · rw [if_neg fun h => hone (hinv.mp h), if_pos ⟨hcoeff ▸ hmul, hone⟩]

/-- The algorithm finds the inverse, unless the constant turns up in the second sequence. -/
theorem euclid_eq_outcome (hm : term m 0 ≠ 0) (hr : r.Follows m a) (hs : s.Follows m a)
    (hb : r.Balanced s) (hc : r.Anchored m a s) :
    ∃ b, monic m ∣ toPolynomial a * toPolynomial b - 1 ∧ euclid r s = outcome a b := by
  -- Each division lowers one of the two degrees.
  induction hn : r.degree + s.degree using Nat.strong_induction_on generalizing r s with
  | _ n ih =>
    have hd : 0 < d := Nat.zero_lt_of_lt hr.degree_lt
    by_cases hr0 : r.degree = 0
    · exact ⟨_, hr.inverse hr0, euclid_of_first hm hr hc hr0⟩
    by_cases hs0 : s.degree = 0
    · have ha : term a 0 ≠ 0 := hc.value ▸ hs0 ▸ hs.term_ne_zero
      exact ⟨_, hs.inverse hs0, euclid_of_second ha hr0 hs0 hc.value hc.factor⟩
    by_cases hlt : r.degree < s.degree
    · obtain ⟨k, hk, hs', hb'⟩ := hs.cancel hr hb.symm hr0 hlt.le
      have hkn := topBelow_lt hk
      rw [euclid_second hr0 hs0 hlt rfl hk]
      exact ih (r.degree + k) (by omega) hr hs' hb'.symm (hc.cancel_second hd hlt k) rfl
    · have hle := Nat.le_of_not_lt hlt
      obtain ⟨k, hk, hr', hb'⟩ := hr.cancel hs hb hs0 hle
      have hkn := topBelow_lt hk
      rw [euclid_first hr0 hs0 hle rfl hk]
      exact ih (k + s.degree) (by omega) hr' hs hb' (hc.cancel_first hd k) rfl

end Outcome

section Start
variable {m a : Poly d}

theorem isCoprime_monic (hm : Irreducible (monic m)) (ha : toPolynomial a ≠ 0) :
    IsCoprime (monic m) (toPolynomial a) := by
  refine hm.coprime_iff_not_dvd.mpr ((monic_monic m).not_dvd_of_degree_lt ha ?_)
  rw [degree_monic]
  exact degree_toPolynomial_lt a

def startValue (m a : Poly d) (n : Nat) : Poly d := subShifted (d - n) (ofZMod (term a n)⁻¹) m a

def startFactor (a : Poly d) (n : Nat) : Poly d :=
  subShifted (d - n) (ofZMod (term a n)⁻¹) (ofBase 0) (ofBase 1)

theorem toPolynomial_startValue (m : Poly d) (ha : toPolynomial a ≠ 0) {n : Nat}
    (hn : (toPolynomial a).natDegree = n) : toPolynomial (startValue m a n) =
      monic m - C (term a n)⁻¹ * X ^ (d - n) * toPolynomial a := by
  have hlt : n < d := hn ▸ natDegree_toPolynomial_lt ha
  ext i
  rw [startValue, coeff_toPolynomial, coeff_sub, monic, coeff_add, coeff_X_pow, coeff_toPolynomial,
    mul_assoc, coeff_C_mul, coeff_X_pow_mul', coeff_toPolynomial]
  by_cases hi : i < d
  · rw [term_subShifted _ _ _ _ hi, Base.toZMod_ofZMod, if_neg hi.ne, zero_add]
    split
    · rfl
    · rw [mul_zero, sub_zero]
  · have hshift : d - n ≤ i := by omega
    rw [term_of_le _ (Nat.le_of_not_lt hi), term_of_le _ (Nat.le_of_not_lt hi), if_pos hshift,
      add_zero]
    by_cases hid : i = d
    · have hlead : term a n ≠ 0 := hn ▸ term_natDegree_ne_zero ha
      rw [if_pos hid, hid, Nat.sub_sub_self hlt.le, inv_mul_cancel₀ hlead, sub_self]
    · have hzero : term a (i - (d - n)) = 0 := term_eq_zero_of_natDegree_lt (by omega)
      rw [if_neg hid, hzero, mul_zero, sub_zero]

section Positive
variable {n : Nat} (hpos : 0 < n) (hlt : n < d)
include hpos hlt

theorem toPolynomial_startFactor (a : Poly d) :
    toPolynomial (startFactor a n) = -(C (term a n)⁻¹ * X ^ (d - n)) := by
  have hd : 0 < d := by omega
  rw [startFactor, toPolynomial_subShifted, toPolynomial_ofBase hd, toPolynomial_ofBase hd,
    Base.toZMod_zero, Base.toZMod_one, C_0, C_1, zero_sub, mul_one]
  intro i hi
  rw [← coeff_toPolynomial, toPolynomial_ofBase hd, coeff_C, if_neg (by omega)]

theorem anchored_start (m a : Poly d) (top : Nat) :
    Remainder.Anchored m a ⟨startValue m a n, startFactor a n, top⟩ ⟨a, ofBase 1, n⟩ := by
  have hd : 0 < d := by omega
  have hshift : ¬d - n ≤ 0 := by omega
  refine ⟨?_, rfl, ?_⟩
  · rw [startValue, startFactor, term_subShifted _ _ _ _ hd, if_neg hshift,
      term_subShifted _ _ _ _ hd, if_neg hshift, term_ofBase_zero hd, Base.toZMod_zero, zero_mul,
      zero_add]
  · rw [term_ofBase_zero hd, Base.toZMod_one]

end Positive

theorem follows_start (m : Poly d) (ha : toPolynomial a ≠ 0) {n : Nat}
    (hn : (toPolynomial a).natDegree = n) : Remainder.Follows m a ⟨a, ofBase 1, n⟩ := by
  refine ⟨ha, hn, ?_⟩
  rw [toPolynomial_ofBase (Nat.zero_lt_of_lt (natDegree_toPolynomial_lt ha)), Base.toZMod_one, C_1,
    one_mul, sub_self]
  exact dvd_zero _

theorem inverseMod_of_pos (hm : Irreducible (monic m)) (hm0 : term m 0 ≠ 0) {n : Nat}
    (hn : (toPolynomial a).natDegree = n) (hpos : 0 < n) :
    ∃ b, monic m ∣ toPolynomial a * toPolynomial b - 1 ∧ inverseMod m a = outcome a b := by
  have ha : toPolynomial a ≠ 0 := ne_zero_of_natDegree_gt (hn ▸ hpos)
  have hlt : n < d := hn ▸ natDegree_toPolynomial_lt ha
  have hvalue := toPolynomial_startValue m ha hn
  have hfactor := toPolynomial_startFactor hpos hlt a
  have hcoprime : IsCoprime (toPolynomial (startValue m a n)) (toPolynomial a) := by
    rw [hvalue]
    exact IsCoprime.sub_mul_right_left_iff.mpr (isCoprime_monic hm ha)
  have hne := ne_zero_of_isCoprime hcoprime (hn ▸ hpos.ne')
  have htop := natDegree_toPolynomial_lt hne
  rw [inverseMod_eq (hn ▸ topBelow_eq_natDegree ha (hn ▸ hlt)) rfl rfl rfl
    (topBelow_eq_natDegree hne htop)]
  refine euclid_eq_outcome hm0 ⟨hne, rfl, ?_⟩ (follows_start m ha hn) ⟨hcoprime, ?_, ?_⟩
    (anchored_start hpos hlt m a _)
  · refine ⟨-1, ?_⟩
    change toPolynomial (startFactor a n) * _ - toPolynomial (startValue m a n) = _
    rw [hvalue, hfactor]
    ring
  · have hle := natDegree_C_mul_X_pow_le (term a n)⁻¹ (d - n)
    change (toPolynomial (startFactor a n)).natDegree + n ≤ d
    rw [hfactor, natDegree_neg]
    omega
  · rw [toPolynomial_ofBase (by omega), natDegree_C, zero_add]
    exact htop.le

theorem topBelow_ofBase (hd : 0 < d) {q : Base} (hq : q ≠ 0) :
    topBelow (ofBase q : Poly d) d = some 0 := by
  refine topBelow_eq_some ?_ hd fun i hi hid => by rw [term_ofBase q hid, if_neg hi.ne']
  rw [term_ofBase_zero hd, Ne, Base.toZMod_eq_zero_iff]
  exact hq

theorem subShifted_all {p p' : Poly d} (x : Base) : subShifted d x p p' = p :=
  eq_of_term fun i hi => by rw [term_subShifted _ _ _ _ hi, if_neg (by omega)]

theorem inverseMod_ofBase {k : Nat} (hk : topBelow m d = some (k + 1)) {q : Base} (hq : q ≠ 0) :
    inverseMod m (ofBase q) = outcome (ofBase q) (ofBase (Base.inverse q)) := by
  have hd : 0 < d := Nat.zero_lt_of_lt (topBelow_lt hk)
  have hzero := term_ofBase_zero hd q
  have hlead : term (ofBase q : Poly d) 0 ≠ 0 := by
    rw [hzero, Ne, Base.toZMod_eq_zero_iff]
    exact hq
  have hone : term (ofBase 1 : Poly d) 0 = 1 := by rw [term_ofBase_zero hd, Base.toZMod_one]
  rw [inverseMod_eq (topBelow_ofBase hd hq) rfl (subShifted_all _) (subShifted_all _) hk,
    euclid_of_second (s := ⟨ofBase q, ofBase 1, 0⟩) hlead (Nat.succ_ne_zero k) rfl rfl hone]
  refine congrArg (outcome (ofBase q)) (eq_of_term fun i hi => ?_)
  rw [term_scale, Base.toZMod_ofZMod, hzero, term_ofBase _ hi, term_ofBase _ hi,
    Base.toZMod_inverse, Base.toZMod_one, mul_ite, mul_one, mul_zero]

theorem inverseMod_eq_outcome (hm : Irreducible (monic m)) (hm0 : term m 0 ≠ 0) {k : Nat}
    (hk : topBelow m d = some (k + 1)) (ha : toPolynomial a ≠ 0) :
    ∃ b, monic m ∣ toPolynomial a * toPolynomial b - 1 ∧ inverseMod m a = outcome a b := by
  obtain h0 | hpos := Nat.eq_zero_or_pos (toPolynomial a).natDegree
  · have hd : 0 < d := Nat.zero_lt_of_lt (topBelow_lt hk)
    obtain ⟨q, rfl⟩ : ∃ q, a = ofBase q :=
      ⟨_, eq_ofBase fun i hi => term_eq_zero_of_natDegree_lt (h0 ▸ hi)⟩
    rw [toPolynomial_ofBase hd, Ne, C_eq_zero] at ha
    have hq : q ≠ 0 := fun h => ha ((Base.toZMod_eq_zero_iff q).mpr h)
    refine ⟨_, ?_, inverseMod_ofBase hk hq⟩
    rw [toPolynomial_ofBase hd, toPolynomial_ofBase hd, ← C_mul, Base.toZMod_inverse,
      mul_inv_cancel₀ ha, C_1, sub_self]
    exact dvd_zero _
  · exact inverseMod_of_pos hm hm0 rfl hpos

end Start

end ExecutionLayer.AltBn128.Poly
