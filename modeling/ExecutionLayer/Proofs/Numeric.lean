import ExecutionLayer.Proofs.Sequence
import Mathlib.Analysis.Complex.Exponential
import Mathlib.Data.Nat.Cast.Order.Field

/-! # Series, sums and products in whole numbers

The terms of the exponential series are rounded down one after the other, and the sum ends with the
first that vanishes. So it stays below as many terms of the exact series, and grows with each
argument, though a greater argument may bring more terms. Sums and products of words are exact or
there is an overflow.
-/
namespace ExecutionLayer.Numeric
open Finset Evm.Gas
variable {a a' x x' d : Nat}
variable (K : Type) [Field K] [LinearOrder K] [IsStrictOrderedRing K]

/-- The terms of `a * e ^ (x / d)` as they are computed, in units of `1 / d`. -/
def seriesTerm (a x d : Nat) : Nat → Nat
  | 0 => a * d
  | k + 1 => seriesTerm a x d k * x / (d * (k + 1))

theorem seriesTerm_mono (hf : a ≤ a') (hn : x ≤ x') (k : Nat) :
    seriesTerm a x d k ≤ seriesTerm a' x' d k := by
  induction k with
  | zero => exact Nat.mul_le_mul_right _ hf
  | succ k ih => exact Nat.div_le_div_right (Nat.mul_le_mul ih hn)

theorem seriesTerm_one (hd : 0 < d) : seriesTerm a x d 1 = a * x := by
  rw [seriesTerm, seriesTerm, Nat.zero_add, Nat.mul_one, Nat.mul_right_comm, Nat.mul_div_cancel _ hd]

theorem seriesTerm_le (a x : Nat) (hd : 0 < d) (k : Nat) :
    (seriesTerm a x d k : K) ≤ d * (a * ((x / d) ^ k / k.factorial)) := by
  induction k with
  | zero => simp [seriesTerm, mul_comm]
  | succ k ih =>
    have hd' : (d : K) ≠ 0 := by exact_mod_cast hd.ne'
    calc (seriesTerm a x d (k + 1) : K) ≤ seriesTerm a x d k * x / (d * (k + 1)) := by
          exact_mod_cast Nat.cast_div_le
      _ ≤ d * (a * ((x / d) ^ k / k.factorial)) * x / (d * (k + 1)) := by gcongr
      _ = d * (a * ((x / d) ^ (k + 1) / (k + 1).factorial)) := by
          rw [Nat.factorial_succ, pow_succ]
          push_cast
          field_simp

/-- The number of terms up to the first that vanishes. -/
structure TermCount (term : Nat → Nat) (n : Nat) : Prop where
  zero : term n = 0
  pos : ∀ k < n, 0 < term k

theorem loop_eq_sum (a x : Nat) (hd : 0 < d) (k i term sum : Nat) (hi : i = k + 1)
    (hterm : term = seriesTerm a x d k) (hpos : ∀ j < k, 0 < seriesTerm a x d j) :
    ∃ n ≥ k, TermCount (seriesTerm a x d) n ∧
      expTaylor.loop x d i term sum = sum + ∑ j ∈ Ico k n, seriesTerm a x d j := by
  induction i, term, sum using expTaylor.loop.induct x d generalizing k with
  | case1 i term sum h ih =>
    subst hi hterm
    obtain ⟨n, hkn, hn, hloop⟩ := ih (k + 1) rfl rfl fun j hj => by
      rcases Nat.lt_succ_iff_lt_or_eq.mp hj with hj | rfl
      · exact hpos j hj
      · exact h.1
    refine ⟨n, by omega, hn, ?_⟩
    rw [expTaylor.loop, dif_pos h, hloop, sum_eq_sum_Ico_succ_bot hkn, Nat.add_assoc]
  | case2 i term sum h =>
    subst hi hterm
    have hzero : seriesTerm a x d k = 0 := by
      by_contra hne
      exact h ⟨Nat.pos_of_ne_zero hne, hd, k.succ_pos⟩
    exact ⟨k, le_rfl, ⟨hzero, hpos⟩, by rw [expTaylor.loop, dif_neg h, Ico_self, sum_empty]; rfl⟩

theorem expTaylor_eq (a x : Nat) (hd : 0 < d) : ∃ n, TermCount (seriesTerm a x d) n ∧
    expTaylor a x d = .ok ((∑ k ∈ range n, seriesTerm a x d k) / d) := by
  obtain ⟨n, -, hn, hloop⟩ := loop_eq_sum a x hd 0 1 _ 0 rfl rfl nofun
  refine ⟨n, hn, ?_⟩
  rw [expTaylor, if_neg hd.ne', range_eq_Ico, ← Nat.zero_add (∑ k ∈ _, _), ← hloop]
  rfl

theorem TermCount.sum_mono {term term' : Nat → Nat} {n n' : Nat} (h : TermCount term n)
    (h' : TermCount term' n') (hle : ∀ k, term k ≤ term' k) :
    ∑ k ∈ range n, term k ≤ ∑ k ∈ range n', term' k := by
  have hn : n ≤ n' := by
    by_contra hlt
    have hpos := h.pos n' (by omega)
    have hzero := h'.zero ▸ hle n'
    omega
  calc ∑ k ∈ range n, term k ≤ ∑ k ∈ range n, term' k := sum_le_sum fun k _ => hle k
    _ ≤ ∑ k ∈ range n', term' k := sum_le_sum_of_subset (range_subset_range.mpr hn)

theorem expTaylor_mono (hf : a ≤ a') (hn : x ≤ x') (hd : 0 < d) :
    ∃ r r', expTaylor a x d = .ok r ∧ expTaylor a' x' d = .ok r' ∧ r ≤ r' := by
  obtain ⟨n, hcount, heq⟩ := expTaylor_eq a x hd
  obtain ⟨n', hcount', heq'⟩ := expTaylor_eq a' x' hd
  exact ⟨_, _, heq, heq', Nat.div_le_div_right (hcount.sum_mono hcount' (seriesTerm_mono hf hn))⟩

theorem le_sum (hd : 0 < d) {n : Nat} (h : TermCount (seriesTerm a x d) n) :
    a + a * x / d ≤ (∑ k ∈ range n, seriesTerm a x d k) / d := by
  have htwo : a * d + a * x ≤ ∑ k ∈ range n, seriesTerm a x d k := by
    have hone := seriesTerm_one (a := a) (x := x) hd
    rcases n with _ | _ | n
    · have hzero : a = 0 := (Nat.mul_eq_zero.mp h.zero).resolve_right hd.ne'
      simp [hzero]
    · rw [← hone, h.zero, sum_range_one]
      rfl
    · rw [← hone, sum_range_succ', sum_range_succ', Nat.add_assoc, Nat.add_comm (a * d)]
      exact Nat.le_add_left _ _
  calc a + a * x / d = (a * d + a * x) / d := by
        rw [Nat.add_comm, Nat.add_comm (a * d), Nat.add_mul_div_right _ _ hd]
    _ ≤ (∑ k ∈ range n, seriesTerm a x d k) / d := Nat.div_le_div_right htwo

theorem sum_le (a x : Nat) (hd : 0 < d) (n : Nat) :
    (((∑ k ∈ range n, seriesTerm a x d k) / d : Nat) : K) ≤
      a * ∑ k ∈ range n, (x / d : K) ^ k / k.factorial := by
  have hd' : (0 : K) < d := by exact_mod_cast hd
  refine Nat.cast_div_le.trans ((div_le_iff₀' hd').mpr ?_)
  rw [Nat.cast_sum, mul_sum, mul_sum]
  exact sum_le_sum fun k _ => seriesTerm_le K a x hd k

theorem one_le_blobPrice (excess : Nat) : 1 ≤ blobPrice excess := by
  obtain ⟨n, hcount, heq⟩ := expTaylor_eq 1 excess (show 0 < 3338477 by decide)
  rw [blobPrice, heq]
  exact (Nat.le_add_right 1 _).trans (le_sum (by decide) hcount)

theorem blobPrice_mono : Monotone blobPrice := by
  intro excess excess' h
  obtain ⟨r, r', hr, hr', hle⟩ := expTaylor_mono (le_refl 1) h (show 0 < 3338477 by decide)
  rw [blobPrice, blobPrice, hr, hr']
  exact hle

/-- The series ends, and its value is at least that of the first two terms and at most that of as many
exact terms, hence of the exponential. It grows with the factor and the exponent, and so does the price
of blobs, which is never zero. -/
theorem exponential_by_series (factor numerator denominator : Nat) (hd : 0 < denominator) :
    (∃ n r, TermCount (seriesTerm factor numerator denominator) n ∧
      expTaylor factor numerator denominator = .ok r ∧
      r = (∑ k ∈ range n, seriesTerm factor numerator denominator k) / denominator ∧
      factor + factor * numerator / denominator ≤ r ∧
      (r : ℚ) ≤ factor * ∑ k ∈ range n, (numerator / denominator : ℚ) ^ k / k.factorial ∧
      (r : ℝ) ≤ factor * Real.exp (numerator / denominator) ∧
      ∀ factor' numerator', factor ≤ factor' → numerator ≤ numerator' →
        ∃ r', expTaylor factor' numerator' denominator = .ok r' ∧ r ≤ r') ∧
    (∀ excess, 1 ≤ blobPrice excess) ∧ Monotone blobPrice := by
  obtain ⟨n, hcount, heq⟩ := expTaylor_eq factor numerator hd
  refine ⟨⟨n, _, hcount, heq, rfl, le_sum hd hcount,
    sum_le ℚ factor numerator hd n, ?_, fun factor' numerator' hf hn => ?_⟩,
    one_le_blobPrice, blobPrice_mono⟩
  · have hseries : ∑ k ∈ range n, (numerator / denominator : ℝ) ^ k / k.factorial ≤
        Real.exp (numerator / denominator) := Real.sum_le_exp_of_nonneg (by positivity) n
    exact (sum_le ℝ factor numerator hd n).trans
      (mul_le_mul_of_nonneg_left hseries factor.cast_nonneg)
  · obtain ⟨r, r', hr, hr', hrr⟩ := expTaylor_mono hf hn hd
    cases heq.symm.trans hr
    exact ⟨r', hr', hrr⟩

/-- The square of `e` with one half as the unit. -/
theorem exponential_by_series_square : 0 < 2 ∧ expTaylor 1 4 2 = .ok 6 ∧ 1 + 1 * 4 / 2 ≤ 6 ∧
    ((6 : Nat) : ℝ) ≤ (1 : Nat) * Real.exp ((4 : Nat) / (2 : Nat)) := by
  have hsix : expTaylor 1 4 2 = .ok 6 := by simp [expTaylor, expTaylor.loop]
  obtain ⟨⟨n, r, -, hr, -, hge, -, hle, -⟩, -⟩ := exponential_by_series 1 4 2 (by decide)
  cases hsix.symm.trans hr
  exact ⟨by decide, hsix, hge, hle⟩

section Words
open Integer (Kind Operator)

def combine : Operator → Nat → Nat → Nat
  | .mul => (· * ·)
  | _ => (· + ·)

theorem foldl_combine_add (n : Nat) (l : List Nat) : l.foldl (combine .add) n = (n :: l).sum := by
  rw [List.sum_eq_foldl, List.foldl_cons, Nat.zero_add]
  rfl

theorem foldl_combine_mul (n : Nat) (l : List Nat) : l.foldl (combine .mul) n = (n :: l).prod := by
  rw [List.prod_eq_foldl, List.foldl_cons, Nat.one_mul]
  rfl

section Combined
variable {op : Operator} (hop : op = .add ∨ op = .mul) {kind : Kind} {n : Nat} {l : List Nat}
include hop

theorem apply_eq (kind : Kind) (n x : Nat) : Integer.apply kind op .left n x =
    (require (kind.admits (combine op n x)) .overflow).map fun _ => .number (combine op n x) := by
  have hchecked : require (decide (0 ≤ (x : Int))) .overflow = .ok () := if_pos (by simp)
  rcases hop with rfl | rfl <;> cases kind <;>
    · rw [Integer.apply, if_pos rfl, hchecked]
      rfl

theorem fold_cons (kind : Kind) (n x : Nat) (l : List Nat) : fold op kind n (x :: l) =
    if kind.admits (combine op n x) then fold op kind (combine op n x) l else .error .overflow := by
  rw [fold, apply_eq hop, require]
  split <;> rfl

theorem fold_cases (kind : Kind) (n : Nat) (l : List Nat) :
    fold op kind n l = .ok (l.foldl (combine op) n) ∨ fold op kind n l = .error .overflow := by
  induction l generalizing n with
  | nil => exact Or.inl rfl
  | cons x l ih =>
    rw [fold_cons hop]
    split
    · exact ih _
    · exact Or.inr rfl

theorem fold_of_fits (hkind : kind = .natural ∨ kind = .fixed 256)
    (h : ∀ k, (l.take k).foldl (combine op) n < Word.limit) :
    fold op kind n l = .ok (l.foldl (combine op) n) := by
  induction l generalizing n with
  | nil => rfl
  | cons x l ih =>
    have hfits : kind.admits (combine op n x) = true := by
      rcases hkind with rfl | rfl
      · simp [Kind.admits]
      · have hlt : combine op n x < 2 ^ 256 := h 1
        simpa [Kind.admits] using hlt
    rw [fold_cons hop, if_pos hfits]
    exact ih fun k => h (k + 1)

theorem word_of_fits (hkind : kind = .natural ∨ kind = .fixed 256)
    (h : ∀ k, (l.take k).foldl (combine op) n < Word.limit) (asked : Option Fault) :
    ∃ w : Word, reportInvalid asked (fold op kind n l >>= Word.ofNat?) = .ok w ∧
      w.toNat = l.foldl (combine op) n := by
  have hlt := h l.length
  rw [List.take_length] at hlt
  refine ⟨.ofNat 256 (l.foldl (combine op) n), ?_, Nat.mod_eq_of_lt hlt⟩
  rw [except_of_ok (fold_of_fits hop hkind h), Word.ofNat?, if_pos hlt]
  rfl

theorem word_of_le (h : Word.limit ≤ l.foldl (combine op) n) (asked : Option Fault)
    (kind : Kind) : reportInvalid asked (fold op kind n l >>= Word.ofNat?) = .error .overflow := by
  rcases fold_cases hop kind n l with hfold | hfold
  · rw [except_of_ok hfold, Word.ofNat?, if_neg (Nat.not_lt.mpr h)]
    rfl
  · rw [except_of_error hfold]
    rfl

end Combined

/-- Sums and products of words and naturals of any size are words, if all partial results are. If
they are too great there is an overflow, whatever fault the caller asks for. -/
theorem overflow_whatever_asked (asked : Option Fault) {numbers : List (Kind × Nat)}
    (hne : numbers ≠ []) (hkind : ∀ p ∈ numbers, p.1 = .natural ∨ p.1 = .fixed 256) :
    ((∀ k, ((numbers.map (·.2)).take k).sum < Word.limit) →
      ∃ w : Word, sumWord asked numbers = .ok w ∧ w.toNat = (numbers.map (·.2)).sum) ∧
    (Word.limit ≤ (numbers.map (·.2)).sum → sumWord asked numbers = .error .overflow) ∧
    ((∀ k, ((numbers.map (·.2)).take k).prod < Word.limit) →
      ∃ w : Word, productWord asked numbers = .ok w ∧ w.toNat = (numbers.map (·.2)).prod) ∧
    (Word.limit ≤ (numbers.map (·.2)).prod → productWord asked numbers = .error .overflow) := by
  obtain _ | ⟨⟨kind, n⟩, rest⟩ := numbers
  · exact absurd rfl hne
  have hkind := hkind _ List.mem_cons_self
  rw [List.map_cons, ← foldl_combine_add, ← foldl_combine_mul]
  refine ⟨fun h => ?_, fun h => word_of_le (Or.inl rfl) h asked kind, fun h => ?_,
    fun h => word_of_le (Or.inr rfl) h asked kind⟩
  · exact word_of_fits (Or.inl rfl) hkind
      (fun k => (foldl_combine_add _ _).trans_lt (h (k + 1))) asked
  · exact word_of_fits (Or.inr rfl) hkind
      (fun k => (foldl_combine_mul _ _).trans_lt (h (k + 1))) asked

/-- Half of the limit and two: their sum fits, and their product does not. -/
theorem overflow_whatever_asked_doubled :
    (∃ w : Word, sumWord (some .missingComponent) [(.fixed 256, 2 ^ 255), (.natural, 2)] = .ok w ∧
      w.toNat = 2 ^ 255 + 2) ∧
    productWord (some .missingComponent) [(.fixed 256, 2 ^ 255), (.natural, 2)] =
      .error .overflow := by
  have hkind : ∀ p ∈ [(Kind.fixed 256, 2 ^ 255), (.natural, 2)],
      p.1 = .natural ∨ p.1 = .fixed 256 := by simp
  obtain ⟨hsum, -, -, hproduct⟩ :=
    overflow_whatever_asked (some .missingComponent) (List.cons_ne_nil _ _) hkind
  refine ⟨hsum ?_, hproduct (by decide)⟩
  rintro (_ | _ | k) <;> simp [Word.limit]

theorem overflow_not_as_asked : sumWord (some .missingComponent)
    [(.natural, Word.limit - 1), (.natural, 1)] = .error .overflow := by
  have hle : Word.limit ≤ [1].foldl (combine .add) (Word.limit - 1) := by decide
  exact word_of_le (Or.inl rfl) hle (some .missingComponent) .natural

end Words

end ExecutionLayer.Numeric
