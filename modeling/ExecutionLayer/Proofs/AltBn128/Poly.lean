import ExecutionLayer.Proofs.AltBn128.Field

/-! # Coefficients

What the operations on polynomials do to each of the coefficients, as residue classes.
-/
namespace ExecutionLayer.AltBn128.Poly
open Base (toZMod ofZMod toZMod_injective)
variable {i k : Nat} {d n : Nat}

def term (a : Poly d) (i : Nat) : ZMod prime := toZMod (coeff a i)

def ofTerms (d : Nat) (f : Nat → ZMod prime) : Poly d := Vector.ofFn fun i => ofZMod (f i.val)

theorem coeff_of_lt (a : Poly d) (h : i < d) : coeff a i = a[i] := by
  simp [coeff, h]

theorem coeff_of_le (a : Poly d) (h : d ≤ i) : coeff a i = 0 := by
  simp [coeff, Nat.not_lt.mpr h]

theorem term_of_lt (a : Poly d) (h : i < d) : term a i = toZMod a[i] := by
  rw [term, coeff_of_lt a h]

theorem term_of_le (a : Poly d) (h : d ≤ i) : term a i = 0 := by
  rw [term, coeff_of_le a h, Base.toZMod_zero]

theorem coeff_eq_zero_iff {a : Poly d} : coeff a i = 0 ↔ term a i = 0 :=
  (Base.toZMod_eq_zero_iff _).symm

theorem eq_of_term {a b : Poly d} (h : ∀ i < d, term a i = term b i) : a = b := by
  refine Vector.ext fun i hi => toZMod_injective ?_
  rw [← term_of_lt a hi, ← term_of_lt b hi]
  exact h i hi

@[simp] theorem term_ofTerms (f : Nat → ZMod prime) (i : Nat) :
    term (ofTerms d f) i = if i < d then f i else 0 := by
  split
  · next h => rw [term_of_lt _ h, ofTerms, Vector.getElem_ofFn, Base.toZMod_ofZMod]
  · next h => exact term_of_le _ (Nat.le_of_not_lt h)

theorem term_ofFn {f : Fin d → Base} (h : i < d) : term (Vector.ofFn f) i = toZMod (f ⟨i, h⟩) := by
  rw [term_of_lt _ h, Vector.getElem_ofFn]

@[simp] theorem term_add (a b : Poly d) (i : Nat) : term (a.add b) i = term a i + term b i := by
  by_cases h : i < d
  · rw [add, term_ofFn h, term_of_lt a h, term_of_lt b h]
    exact Base.toZMod_add _ _
  · have hd := Nat.le_of_not_lt h
    rw [term_of_le _ hd, term_of_le _ hd, term_of_le _ hd, add_zero]

@[simp] theorem term_sub (a b : Poly d) (i : Nat) : term (a.sub b) i = term a i - term b i := by
  by_cases h : i < d
  · rw [sub, term_ofFn h, term_of_lt a h, term_of_lt b h]
    exact Base.toZMod_sub _ _
  · have hd := Nat.le_of_not_lt h
    rw [term_of_le _ hd, term_of_le _ hd, term_of_le _ hd, sub_zero]

@[simp] theorem term_neg (a : Poly d) (i : Nat) : term a.neg i = -term a i := by
  by_cases h : i < d
  · rw [term_of_lt _ h, term_of_lt a h, neg, Vector.getElem_map, Base.toZMod_neg]
  · have hd := Nat.le_of_not_lt h
    rw [term_of_le _ hd, term_of_le _ hd, neg_zero]

@[simp] theorem term_scale (q : Base) (a : Poly d) (i : Nat) :
    term (a.scale q) i = toZMod q * term a i := by
  by_cases h : i < d
  · rw [term_of_lt _ h, term_of_lt a h, scale, Vector.getElem_map, Base.toZMod_mul]
  · have hd := Nat.le_of_not_lt h
    rw [term_of_le _ hd, term_of_le _ hd, mul_zero]

theorem term_ofBase (q : Base) (h : i < d) :
    term (ofBase q : Poly d) i = if i = 0 then toZMod q else 0 := by
  rw [ofBase, term_ofFn h]
  dsimp only
  split
  · rfl
  · exact Base.toZMod_zero

def basis (i : Fin d) : Poly d := Vector.ofFn fun j => if i = j then 1 else 0

theorem term_basis (i : Fin d) (j : Nat) : term (basis i) j = if j = i.val then 1 else 0 := by
  by_cases hj : j < d
  · rw [basis, term_ofFn hj]
    by_cases h : i = ⟨j, hj⟩
    · rw [if_pos h, if_pos (congrArg Fin.val h).symm, Base.toZMod_one]
    · rw [if_neg h, if_neg fun hv => h (Fin.ext hv.symm), Base.toZMod_zero]
  · rw [term_of_le _ (Nat.le_of_not_lt hj), if_neg (by omega)]

theorem term_subShifted (k : Nat) (q : Base) (a b : Poly d) (h : i < d) :
    term (subShifted k q a b) i =
      if k ≤ i then term a i - toZMod q * term b (i - k) else term a i := by
  rw [subShifted, term_ofFn h]
  dsimp only
  split
  · rw [Base.toZMod_sub, Base.toZMod_mul, term_of_lt a h]
    rfl
  · rw [term_of_lt a h]
    rfl

theorem cast_convolve (a b : Poly d) (k n : Nat) : ((convolve a b k n : Nat) : ZMod prime) =
    ∑ i ∈ Finset.range n, if i ≤ k then term a i * term b (k - i) else 0 := by
  induction n with
  | zero => exact Nat.cast_zero
  | succ n ih =>
    rw [Finset.sum_range_succ, ← ih, convolve]
    split
    · rw [Nat.cast_add, Nat.cast_mul]
      rfl
    · rw [add_zero]

theorem term_product (a b : Poly d) (h : k < 2 * d) : term (product a b) k =
    ∑ i ∈ Finset.range d, if i ≤ k then term a i * term b (k - i) else 0 := by
  rw [product, term_ofFn h, Base.toZMod_ofNat, cast_convolve]

theorem topBelow_eq_some {a : Poly d} (hk : term a k ≠ 0) :
    ∀ {n : Nat}, k < n → (∀ i, k < i → i < n → term a i = 0) → topBelow a n = some k
  | 0, h, _ => absurd h (Nat.not_lt_zero k)
  | n + 1, h, hz => by
    rw [topBelow]
    by_cases hn : n = k
    · rw [if_neg, hn]
      rw [coeff_eq_zero_iff, hn]
      exact hk
    · rw [if_pos (coeff_eq_zero_iff.mpr (hz n (by omega) (by omega)))]
      exact topBelow_eq_some hk (by omega) fun i hi hin => hz i hi (by omega)

theorem term_reduceTerm (modulus : Poly d) (p : Poly n) (i : Nat) {j : Nat} (h : j < n) :
    term (reduceTerm modulus p i) j = if i - d ≤ j ∧ j < i then
      term p j - term p i * term modulus (j - (i - d)) else term p j := by
  rw [reduceTerm, term_ofFn h]
  simp only [Bool.and_eq_true, decide_eq_true_eq]
  split
  · rw [Base.toZMod_sub, Base.toZMod_mul, term_of_lt p h]
    rfl
  · rw [term_of_lt p h]
    rfl

theorem coeff_eq (a : Poly d) (i : Nat) : coeff a i = ofZMod (term a i) :=
  (Base.ofZMod_toZMod _).symm

theorem inverse_coeff (a : Poly d) (i : Nat) : Base.inverse (coeff a i) = ofZMod (term a i)⁻¹ := by
  refine toZMod_injective ?_
  rw [Base.toZMod_inverse, Base.toZMod_ofZMod]
  rfl

section Euclid
variable {a b : Remainder d} {value factor : Poly d}

theorem Remainder.cancel_eq (a b : Remainder d) {q : ZMod prime}
    (hq : q = term a.value a.degree * (term b.value b.degree)⁻¹) (hk : k = a.degree - b.degree) :
    a.cancel b = (subShifted k (ofZMod q) a.value b.value,
      subShifted k (ofZMod q) a.factor b.factor) := by
  have hcoeff : coeff a.value a.degree * Base.inverse (coeff b.value b.degree) = ofZMod q := by
    refine toZMod_injective ?_
    rw [inverse_coeff, coeff_eq, Base.toZMod_mul]
    simp only [Base.toZMod_ofZMod]
    exact hq.symm
  unfold cancel
  rw [hcoeff, hk]

theorem euclid_done (h : a.degree = 0) :
    euclid a b = .ok (scale (ofZMod (term a.value 0)⁻¹) a.factor) := by
  rw [euclid, if_pos h, inverse_coeff]

theorem euclid_first (ha : a.degree ≠ 0) (hb : b.degree ≠ 0) (hle : b.degree ≤ a.degree)
    (hc : a.cancel b = (value, factor)) (ht : topBelow value a.degree = some k) :
    euclid a b = euclid ⟨value, factor, k⟩ b := by
  rw [euclid, if_neg ha, if_neg hb, if_neg (Nat.not_lt.mpr hle)]
  simp only [hc]
  split
  · next degree h =>
    rw [hc, ht] at h
    cases h
    rfl
  · next h =>
    rw [hc, ht] at h
    cases h

theorem euclid_second (ha : a.degree ≠ 0) (hb : b.degree ≠ 0) (hlt : a.degree < b.degree)
    (hc : b.cancel a = (value, factor)) (ht : topBelow value b.degree = some k) :
    euclid a b = euclid a ⟨value, factor, k⟩ := by
  rw [euclid, if_neg ha, if_neg hb, if_pos hlt]
  simp only [hc]
  split
  · next degree h =>
    rw [hc, ht] at h
    cases h
    rfl
  · next h =>
    rw [hc, ht] at h
    cases h

theorem inverseMod_eq {modulus p : Poly d} {degree top : Nat} (hd : topBelow p d = some degree)
    {q : ZMod prime} (hq : q = (term p degree)⁻¹)
    (hv : subShifted (d - degree) (ofZMod q) modulus p = value)
    (hf : subShifted (d - degree) (ofZMod q) (ofBase 0) (ofBase 1) = factor)
    (ht : topBelow value d = some top) :
    inverseMod modulus p = euclid ⟨value, factor, top⟩ ⟨p, ofBase 1, degree⟩ := by
  have hdegree : p.degree = .ok degree := by
    rw [Poly.degree, hd]
  rw [hq, ← inverse_coeff] at hv hf
  unfold inverseMod
  simp only [hdegree, bind, Except.bind, hv, ht, hf]

end Euclid

end ExecutionLayer.AltBn128.Poly
