import ExecutionLayer.Proofs.AltBn128.Poly
import Mathlib.Algebra.Polynomial.FieldDivision

/-! # Coefficients as polynomials

Elements of an extension are polynomials over the base field, and their product is the remainder of
the product of the polynomials modulo the modulus.
-/
namespace ExecutionLayer.AltBn128.Poly
open Base (toZMod ofZMod)
open Polynomial
variable {d : Nat}

noncomputable def low (n : Nat) (a : Poly d) : (ZMod prime)[X] :=
  ∑ i ∈ Finset.range n, monomial i (term a i)

noncomputable def toPolynomial (a : Poly d) : (ZMod prime)[X] := low d a

noncomputable def monic (m : Poly d) : (ZMod prime)[X] := X ^ d + toPolynomial m

section Coefficients
variable (a b : Poly d)

theorem coeff_low (n i : Nat) : (low n a).coeff i = if i < n then term a i else 0 := by
  simp only [low, finsetSum_coeff, coeff_monomial, Finset.sum_ite_eq', Finset.mem_range]

theorem low_succ (n : Nat) : low (n + 1) a = low n a + monomial n (term a n) :=
  Finset.sum_range_succ _ n

@[simp] theorem coeff_toPolynomial (i : Nat) : (toPolynomial a).coeff i = term a i := by
  rw [toPolynomial, coeff_low]
  split
  · rfl
  · next h => exact (term_of_le a (Nat.le_of_not_lt h)).symm

theorem toPolynomial_injective : Function.Injective (toPolynomial (d := d)) := by
  intro a b h
  refine eq_of_term fun i _ => ?_
  rw [← coeff_toPolynomial, ← coeff_toPolynomial, h]

theorem degree_toPolynomial_lt : (toPolynomial a).degree < d :=
  (degree_lt_iff_coeff_zero _ _).mpr fun i hi => by rw [coeff_toPolynomial, term_of_le a hi]

theorem natDegree_toPolynomial_lt {a : Poly d} (h : toPolynomial a ≠ 0) :
    (toPolynomial a).natDegree < d :=
  (natDegree_lt_iff_degree_lt h).mpr (degree_toPolynomial_lt a)

theorem term_eq_zero_of_natDegree_lt {a : Poly d} {i : Nat} (h : (toPolynomial a).natDegree < i) :
    term a i = 0 := by
  rw [← coeff_toPolynomial]
  exact coeff_eq_zero_of_natDegree_lt h

theorem term_natDegree_ne_zero {a : Poly d} (h : toPolynomial a ≠ 0) :
    term a (toPolynomial a).natDegree ≠ 0 := by
  rw [← coeff_toPolynomial]
  exact leadingCoeff_ne_zero.mpr h

theorem topBelow_eq_natDegree {a : Poly d} (h : toPolynomial a ≠ 0) {n : Nat}
    (hn : (toPolynomial a).natDegree < n) : topBelow a n = some (toPolynomial a).natDegree :=
  topBelow_eq_some (term_natDegree_ne_zero h) hn fun _ hi _ => term_eq_zero_of_natDegree_lt hi

theorem term_ofBase_zero (hd : 0 < d) (q : Base) : term (ofBase q : Poly d) 0 = toZMod q := by
  rw [term_ofBase q hd, if_pos rfl]

theorem eq_ofBase {a : Poly d} (h : ∀ i, 0 < i → term a i = 0) : a = ofBase (coeff a 0) := by
  refine eq_of_term fun i hi => ?_
  rw [term_ofBase _ hi]
  split
  · next hi0 =>
    rw [hi0]
    rfl
  · next hi0 => exact h i (Nat.pos_of_ne_zero hi0)

theorem toPolynomial_ofBase (hd : 0 < d) (q : Base) :
    toPolynomial (ofBase q : Poly d) = C (toZMod q) := by
  ext i
  rw [coeff_toPolynomial, coeff_C]
  by_cases h : i < d
  · exact term_ofBase q h
  · rw [term_of_le _ (Nat.le_of_not_lt h), if_neg (by omega)]

theorem toPolynomial_scale (q : Base) :
    toPolynomial (a.scale q) = C (toZMod q) * toPolynomial a := by
  ext i
  rw [coeff_toPolynomial, term_scale, coeff_C_mul, coeff_toPolynomial]

theorem toPolynomial_subShifted (k : Nat) (q : ZMod prime) (h : ∀ i, d ≤ i + k → term b i = 0) :
    toPolynomial (subShifted k (ofZMod q) a b) =
      toPolynomial a - C q * X ^ k * toPolynomial b := by
  ext i
  rw [coeff_toPolynomial, coeff_sub, coeff_toPolynomial, mul_assoc, coeff_C_mul, coeff_X_pow_mul']
  by_cases hi : i < d
  · rw [term_subShifted _ _ _ _ hi, Base.toZMod_ofZMod, coeff_toPolynomial]
    split
    · rfl
    · rw [mul_zero, sub_zero]
  · have hi := Nat.le_of_not_lt hi
    rw [term_of_le _ hi, term_of_le _ hi, coeff_toPolynomial]
    split
    · rw [h _ (by omega), mul_zero, sub_zero]
    · rw [mul_zero, sub_zero]

end Coefficients

theorem monic_monic (m : Poly d) : (monic m).Monic := monic_X_pow_add (degree_toPolynomial_lt m)

theorem degree_monic (m : Poly d) : (monic m).degree = d := by
  rw [monic, degree_add_eq_left_of_degree_lt, degree_X_pow]
  rw [degree_X_pow]
  exact degree_toPolynomial_lt m

/-! ## Products as remainders

A product is reduced from the highest degree down. To replace its leading term is to subtract a
multiple of the modulus, so that the remainder of the product modulo the modulus is left in the end.
-/

theorem toPolynomial_product (a b : Poly d) :
    toPolynomial (product a b) = toPolynomial a * toPolynomial b := by
  ext k
  rw [coeff_mul, Finset.Nat.sum_antidiagonal_eq_sum_range_succ_mk, coeff_toPolynomial]
  simp only [coeff_toPolynomial]
  by_cases hk : k < 2 * d
  · rw [term_product a b hk, ← Finset.sum_filter]
    refine Finset.sum_subset (fun i hi => ?_) fun i hi hid => ?_
    · rw [Finset.mem_filter] at hi
      exact Finset.mem_range_succ_iff.mpr hi.2
    · rw [Finset.mem_range_succ_iff] at hi
      have hle : d ≤ i := Nat.le_of_not_lt fun hlt =>
        hid (Finset.mem_filter.mpr ⟨Finset.mem_range.mpr hlt, hi⟩)
      rw [term_of_le a hle, zero_mul]
  · rw [term_of_le _ (Nat.le_of_not_lt hk)]
    refine (Finset.sum_eq_zero fun i _ => ?_).symm
    by_cases hi : i < d
    · rw [term_of_le b (by omega), mul_zero]
    · rw [term_of_le a (Nat.le_of_not_lt hi), zero_mul]

theorem toPolynomial_ofFn_coeff {k : Nat} (c : Poly k) :
    toPolynomial (Vector.ofFn fun i : Fin d => coeff c i.val) = low d c := by
  rw [toPolynomial, low, low]
  refine Finset.sum_congr rfl fun i hi => ?_
  rw [term_ofFn (Finset.mem_range.mp hi)]
  rfl

theorem degreesDown_succ {n lo : Nat} (h : lo ≤ n) :
    degreesDown (n + 1) lo = n :: degreesDown n lo := by
  obtain ⟨k, rfl⟩ := Nat.exists_eq_add_of_le h
  have hk : lo + k + 1 - lo = k + 1 := by omega
  rw [degreesDown, degreesDown, hk, Nat.add_sub_cancel_left, List.range'_1_concat,
    List.reverse_append, List.reverse_singleton, List.singleton_append]

theorem dvd_low_sub_foldl {k lo hi : Nat} {m : (ZMod prime)[X]} {step : Poly k → Nat → Poly k}
    (hstep : ∀ c i, lo ≤ i → i < hi → m ∣ low (i + 1) c - low i (step c i)) (c : Poly k) {n : Nat}
    (hn : lo ≤ n) (hn' : n ≤ hi) : m ∣ low n c - low lo ((degreesDown n lo).foldl step c) := by
  induction n, hn using Nat.le_induction generalizing c with
  | base =>
    have hnil : degreesDown lo lo = [] := by
      rw [degreesDown, Nat.sub_self]
      rfl
    rw [hnil, List.foldl_nil, sub_self]
    exact dvd_zero _
  | succ n hn ih =>
    rw [degreesDown_succ hn, List.foldl_cons]
    have hsum := dvd_add (hstep c n hn hn') (ih (step c n) (by omega))
    rwa [sub_add_sub_cancel] at hsum

theorem low_sub_low_reduceTerm (m : Poly d) {k : Nat} (c : Poly k) {i : Nat} (hi : d ≤ i)
    (hi' : i < k) :
    low (i + 1) c - low i (reduceTerm m c i) = monomial (i - d) (term c i) * monic m := by
  ext t
  have hcoeff : (monomial (i - d) (term c i) * monic m).coeff t =
      if i - d ≤ t then term c i * ((if t - (i - d) = d then 1 else 0) + term m (t - (i - d)))
      else 0 := by
    rw [← C_mul_X_pow_eq_monomial, mul_assoc, coeff_C_mul, coeff_X_pow_mul', monic, coeff_add,
      coeff_X_pow, coeff_toPolynomial, mul_ite, mul_zero]
  rw [hcoeff, coeff_sub, coeff_low, coeff_low]
  rcases Nat.lt_trichotomy t i with ht | rfl | ht
  · rw [if_pos (by omega), if_pos ht, term_reduceTerm m c i (by omega)]
    by_cases hlow : i - d ≤ t
    · rw [if_pos ⟨hlow, ht⟩, if_pos hlow, if_neg (by omega), zero_add, sub_sub_cancel]
    · rw [if_neg fun h => hlow h.1, if_neg hlow, sub_self]
  · have hd : t - (t - d) = d := by omega
    rw [if_pos (by omega), if_neg (by omega), if_pos (by omega), hd, if_pos rfl,
      term_of_le m le_rfl, add_zero, mul_one, sub_zero]
  · rw [if_neg (by omega), if_neg (by omega), if_pos (by omega), if_neg (by omega),
      term_of_le m (by omega), add_zero, mul_zero, sub_zero]

theorem eq_of_dvd_sub {m a b : Poly d} (h : monic m ∣ toPolynomial a - toPolynomial b) : a = b := by
  have hzero := eq_zero_of_dvd_of_degree_lt h (by
    rw [degree_monic]
    exact (degree_sub_le _ _).trans_lt
      (max_lt (degree_toPolynomial_lt a) (degree_toPolynomial_lt b)))
  exact toPolynomial_injective (sub_eq_zero.mp hzero)

theorem eq_modByMonic {m c : Poly d} {p : (ZMod prime)[X]} (h : monic m ∣ p - toPolynomial c) :
    toPolynomial c = p %ₘ monic m := by
  obtain ⟨q, hq⟩ := h
  refine (div_modByMonic_unique q _ (monic_monic m) ⟨?_, ?_⟩).2.symm
  · rw [← hq, add_sub_cancel]
  · rw [degree_monic]
    exact degree_toPolynomial_lt c

theorem toPolynomial_mulMod (m a b : Poly d) :
    toPolynomial (mulMod m a b) = toPolynomial a * toPolynomial b %ₘ monic m := by
  refine eq_modByMonic ?_
  rw [mulMod, toPolynomial_ofFn_coeff, ← toPolynomial_product]
  refine dvd_low_sub_foldl (fun c i hi hi' => ?_) _ (by omega) le_rfl
  exact ⟨_, (low_sub_low_reduceTerm m c hi hi').trans (mul_comm _ _)⟩

end ExecutionLayer.AltBn128.Poly
