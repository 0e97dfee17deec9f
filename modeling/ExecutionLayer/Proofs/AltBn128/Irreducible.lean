import ExecutionLayer.Proofs.AltBn128.Quadratic
import Mathlib.FieldTheory.KummerExtension

/-! # The modulus of the extension of degree twelve

The modulus `x¹² - 18 x⁶ + 82` arises from `x² - 18 x + 82` when `x` is replaced by its cube and
then by its square. Such a step keeps a polynomial irreducible, as long as its constant term is not
such a power.
-/
namespace ExecutionLayer.AltBn128
open Polynomial

/-- An irreducible polynomial of even degree stays irreducible in a prime power of the variable,
unless its constant term is such a power. -/
theorem irreducible_comp_pow {f : (ZMod prime)[X]} (hmonic : f.Monic) (hf : Irreducible f)
    (heven : Even f.natDegree) {q : Nat} (hq : q.Prime) (hpow : ∀ y, y ^ q ≠ f.coeff 0) :
    Irreducible (f.comp (X ^ q)) := by
  refine irreducible_comp hmonic (monic_X_pow q) hf fun E _ _ x hx => ?_
  rw [Polynomial.map_pow, map_X]
  refine X_pow_sub_C_irreducible_of_prime hq fun b hb => hpow (Algebra.norm (ZMod prime) b) ?_
  have hx' : IsIntegral (ZMod prime) x := minpoly.ne_zero_iff.mp (hx ▸ hf.ne_zero)
  rw [← map_pow, hb, ← IntermediateField.adjoin.powerBasis_gen hx',
    Algebra.PowerBasis.norm_gen_eq_coeff_zero_minpoly, IntermediateField.adjoin.powerBasis_gen,
    IntermediateField.minpoly_gen, IntermediateField.adjoin.powerBasis_dim, hx, heven.neg_one_pow,
    one_mul]

noncomputable def trinomial (n : Nat) : (ZMod prime)[X] :=
  X ^ (2 * n) - C ((18 : Nat) : ZMod prime) * X ^ n + C ((82 : Nat) : ZMod prime)

theorem trinomial_comp_pow (n q : Nat) : (trinomial n).comp (X ^ q) = trinomial (n * q) := by
  simp only [trinomial, add_comp, sub_comp, mul_comp, C_comp, X_pow_comp, ← pow_mul]
  ring_nf

theorem trinomial_eq (n : Nat) : trinomial n = X ^ (2 * n) + (C 82 - C 18 * X ^ n) := by
  rw [trinomial, Nat.cast_ofNat, Nat.cast_ofNat]
  ring

section Trinomial
variable {n : Nat} (hn : 0 < n)
include hn

theorem degree_tail_lt : (C 82 - C 18 * X ^ n : (ZMod prime)[X]).degree < (2 * n : Nat) := by
  refine (degree_sub_le _ _).trans_lt (max_lt ?_ ?_)
  · exact degree_C_le.trans_lt (by exact_mod_cast (by omega : 0 < 2 * n))
  · exact (degree_C_mul_X_pow_le n 18).trans_lt (by exact_mod_cast (by omega : n < 2 * n))

theorem trinomial_monic : (trinomial n).Monic := by
  rw [trinomial_eq]
  exact monic_X_pow_add (degree_tail_lt hn)

theorem natDegree_trinomial : (trinomial n).natDegree = 2 * n := by
  rw [trinomial_eq, natDegree_add_eq_left_of_degree_lt, natDegree_X_pow]
  rw [degree_X_pow]
  exact degree_tail_lt hn

theorem coeff_trinomial_zero : (trinomial n).coeff 0 = 82 := by
  simp [trinomial, coeff_X_pow, hn.ne, hn.ne']

theorem irreducible_trinomial_mul (h : Irreducible (trinomial n)) {q : Nat} (hq : q.Prime)
    (hmem : (82, q) ∈ nonPowers) : Irreducible (trinomial (n * q)) := by
  rw [← trinomial_comp_pow]
  refine irreducible_comp_pow (trinomial_monic hn) h ?_ hq fun y => ?_
  · rw [natDegree_trinomial hn]
    exact even_two_mul n
  · rw [coeff_trinomial_zero hn, ← Nat.cast_ofNat]
    exact pow_ne_of_mem_nonPowers hmem y

end Trinomial

theorem irreducible_trinomial_one : Irreducible (trinomial 1) := by
  refine irreducible_of_degree_le_three_of_not_isRoot ?_ fun x hx => sq_ne_neg_one (x - 9) ?_
  · rw [natDegree_trinomial Nat.one_pos]
    decide
  · simp only [trinomial_eq, IsRoot, eval_add, eval_sub, eval_mul, eval_pow, eval_C, eval_X] at hx
    linear_combination hx

theorem irreducible_trinomial_six : Irreducible (trinomial 6) := by
  have hthree : Irreducible (trinomial (1 * 3)) :=
    irreducible_trinomial_mul Nat.one_pos irreducible_trinomial_one Nat.prime_three (by decide)
  have hsix : Irreducible (trinomial (1 * 3 * 2)) :=
    irreducible_trinomial_mul (Nat.succ_pos 2) hthree Nat.prime_two (by decide)
  rwa [one_mul] at hsix

end ExecutionLayer.AltBn128
