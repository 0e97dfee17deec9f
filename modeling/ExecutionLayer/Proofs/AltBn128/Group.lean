import ExecutionLayer.Proofs.AltBn128.Multiples
import ExecutionLayer.Proofs.Sequence
import Mathlib.AlgebraicGeometry.EllipticCurve.Affine.Point

/-! # Points as a group

The points of a curve `y² = x³ + b` over a field form a group. They are written down in a chart,
which represents coordinates and slopes. Wherever the slope of a line is found, addition of what is
written down is addition in the group.
-/
namespace ExecutionLayer.AltBn128
open Coordinate (inverse curve isNumberZero zero)
variable {K : Type} [Field K] {W : WeierstrassCurve.Affine K}

/-- The sum of `n` copies of a point, one after the other. -/
def Point.repeated {F : Type} [Coordinate F] (p : Point F) : Nat → Except Fault (Point F)
  | 0 => .ok .infinity
  | n + 1 => do (← p.repeated n).add p

/-- The curve has an equation `y² = x³ + b`, and no point of it has the second coordinate zero. -/
structure IsShort (W : WeierstrassCurve.Affine K) : Prop where
  a₁_eq : W.a₁ = 0
  a₂_eq : W.a₂ = 0
  a₃_eq : W.a₃ = 0
  a₄_eq : W.a₄ = 0
  two_ne_zero : (2 : K) ≠ 0
  pow_three_add_ne_zero (x : K) : x ^ 3 + W.a₆ ≠ 0

namespace IsShort
variable (hW : IsShort W) {x y x₁ x₂ y₁ y₂ slope : K}
include hW

theorem negY_eq : W.negY x y = -y := by
  simp [WeierstrassCurve.Affine.negY, hW.a₁_eq, hW.a₃_eq]

theorem addX_eq : W.addX x₁ x₂ slope = slope * slope - x₁ - x₂ := by
  simp [WeierstrassCurve.Affine.addX, hW.a₁_eq, hW.a₂_eq, pow_two]

theorem addY_eq : W.addY x₁ x₂ y₁ slope = slope * (x₁ - (slope * slope - x₁ - x₂)) - y₁ := by
  rw [WeierstrassCurve.Affine.addY, WeierstrassCurve.Affine.negAddY, hW.negY_eq, hW.addX_eq]
  ring

theorem equation_iff : W.Equation x y ↔ y ^ 2 = x ^ 3 + W.a₆ := by
  simp [WeierstrassCurve.Affine.equation_iff, hW.a₁_eq, hW.a₂_eq, hW.a₃_eq, hW.a₄_eq]

theorem y_ne_zero (h : y ^ 2 = x ^ 3 + W.a₆) : y ≠ 0 := by
  rintro rfl
  refine hW.pow_three_add_ne_zero x ?_
  rw [← h]
  ring

theorem nonsingular_iff : W.Nonsingular x y ↔ y ^ 2 = x ^ 3 + W.a₆ := by
  rw [WeierstrassCurve.Affine.nonsingular_iff', hW.equation_iff]
  refine ⟨fun h => h.1, fun h => ⟨h, Or.inr ?_⟩⟩
  have hy : 2 * y ≠ 0 := mul_ne_zero hW.two_ne_zero (hW.y_ne_zero h)
  simpa [hW.a₁_eq, hW.a₃_eq] using hy

theorem ne_negY (h : W.Nonsingular x y) : y ≠ W.negY x y := by
  rw [hW.negY_eq]
  intro hy
  refine mul_ne_zero hW.two_ne_zero (hW.y_ne_zero (hW.nonsingular_iff.mp h)) ?_
  linear_combination hy

variable [DecidableEq K]

theorem slope_self (h : W.Nonsingular x y) : W.slope x x y y = 3 * (x * x) / (2 * y) := by
  rw [WeierstrassCurve.Affine.slope_of_Y_ne rfl (hW.ne_negY h), hW.negY_eq, sub_neg_eq_add,
    ← two_mul]
  simp [hW.a₁_eq, hW.a₂_eq, hW.a₄_eq, pow_two]

omit hW in
theorem slope_of_ne (hx : x₁ ≠ x₂) : W.slope x₁ x₂ y₁ y₂ = (y₂ - y₁) / (x₂ - x₁) := by
  rw [WeierstrassCurve.Affine.slope_of_X_ne hx, ← neg_sub y₂, ← neg_sub x₂, neg_div_neg_eq]

end IsShort

structure Chart (W : WeierstrassCurve.Affine K) (F : Type) [Coordinate F] where
  isShort : IsShort W
  abscissa : K → F
  ordinate : K → F
  slope : K → F
  abscissa_injective : Function.Injective abscissa
  ordinate_injective : Function.Injective ordinate
  abscissa_zero : abscissa 0 = zero
  ordinate_zero : ordinate 0 = zero
  abscissa_line (s x₁ x₂ : K) :
    slope s * slope s - abscissa x₁ - abscissa x₂ = abscissa (s * s - x₁ - x₂)
  ordinate_line (s x₁ x y : K) :
    slope s * (abscissa x₁ - abscissa x) - ordinate y = ordinate (s * (x₁ - x) - y)
  equation_iff (x y : K) :
    ordinate y * ordinate y - abscissa x * abscissa x * abscissa x - curve = (zero : F) ↔
      y ^ 2 = x ^ 3 + W.a₆
  number_ordinate {y : K} (h : isNumberZero (ordinate y) = true) : y = 0

namespace Chart
variable {F : Type} [Coordinate F] (c : Chart W F)

def point : W.Point → Point F
  | .zero => .infinity
  | .some x y _ => ⟨c.abscissa x, c.ordinate y⟩

theorem point_zero : c.point 0 = .infinity := rfl

theorem isInfinity_mk_iff (x y : K) :
    (⟨c.abscissa x, c.ordinate y⟩ : Point F).isInfinity ↔ x = 0 ∧ y = 0 := by
  have hx : c.abscissa x = zero ↔ x = 0 := by rw [← c.abscissa_zero, c.abscissa_injective.eq_iff]
  have hy : c.ordinate y = zero ↔ y = 0 := by rw [← c.ordinate_zero, c.ordinate_injective.eq_iff]
  unfold Point.isInfinity
  rw [Bool.and_eq_true, decide_eq_true_eq, decide_eq_true_eq]
  exact and_congr hx hy

theorem isInfinity_point_iff {P : W.Point} : (c.point P).isInfinity ↔ P = 0 := by
  cases P with
  | zero => exact iff_of_true (by simp [point, Point.isInfinity, Point.infinity]) rfl
  | some x y h =>
    refine iff_of_false (fun hi => ?_) (WeierstrassCurve.Affine.Point.some_ne_zero h)
    have hy := ((c.isInfinity_mk_iff x y).mp hi).2
    exact c.isShort.y_ne_zero (c.isShort.nonsingular_iff.mp h) hy

theorem onCurve_point (P : W.Point) : (c.point P).onCurve := by
  cases P with
  | zero => exact Point.onCurve_of_isInfinity (c.isInfinity_point_iff.mpr rfl)
  | some x y h =>
    exact Point.onCurve_of_eq ((c.equation_iff x y).mpr (c.isShort.nonsingular_iff.mp h))

theorem exists_point (hx : Function.Surjective c.abscissa) (hy : Function.Surjective c.ordinate)
    {p : Point F} (hp : p.onCurve) : ∃ P, c.point P = p := by
  obtain ⟨px, py⟩ := p
  obtain ⟨x, rfl⟩ := hx px
  obtain ⟨y, rfl⟩ := hy py
  unfold Point.onCurve at hp
  rw [Bool.or_eq_true, decide_eq_true_eq, c.equation_iff] at hp
  rcases hp with hinf | hsolves
  · obtain ⟨rfl, rfl⟩ := (c.isInfinity_mk_iff x y).mp hinf
    refine ⟨0, ?_⟩
    rw [point_zero, c.abscissa_zero, c.ordinate_zero]
    rfl
  · exact ⟨.some x y (c.isShort.nonsingular_iff.mpr hsolves), rfl⟩

def Finds (s : K) (numerator denominator : F) : Prop :=
  ∃ i, inverse denominator = .ok i ∧ c.slope s = numerator * i

def HasTangent (x y : K) : Prop :=
  c.Finds (((3 : Nat) : K) * (x * x) / (((2 : Nat) : K) * y))
    (Coordinate.ofBase 3 * (c.abscissa x * c.abscissa x)) (Coordinate.ofBase 2 * c.ordinate y)

def HasChord (x₁ y₁ x₂ y₂ : K) : Prop :=
  c.Finds ((y₂ - y₁) / (x₂ - x₁)) (c.ordinate y₂ - c.ordinate y₁) (c.abscissa x₂ - c.abscissa x₁)

def HasLine : W.Point → W.Point → Prop
  | .some x₁ y₁ _, .some x₂ y₂ _ =>
    (x₁ = x₂ → y₁ = y₂ → c.HasTangent x₁ y₁) ∧ (x₁ ≠ x₂ → c.HasChord x₁ y₁ x₂ y₂)
  | _, _ => True

variable [DecidableEq K] {c}

theorem double_point {P : W.Point} (hP : P ≠ 0) (h : c.HasLine P P) :
    (c.point P).double = .ok (c.point (P + P)) := by
  cases P with
  | zero => exact absurd rfl hP
  | some x y hn =>
    obtain ⟨i, hi, hs⟩ := h.1 rfl rfl
    rw [Nat.cast_ofNat, Nat.cast_ofNat] at hs
    have hy := c.isShort.y_ne_zero (c.isShort.nonsingular_iff.mp hn)
    have hnumber : (isNumberZero (c.abscissa x) && isNumberZero (c.ordinate y)) = false := by
      rw [Bool.and_eq_false_iff, ← Bool.not_eq_true, ← Bool.not_eq_true]
      exact Or.inr fun hz => hy (c.number_ordinate hz)
    rw [WeierstrassCurve.Affine.Point.add_self_of_Y_ne (c.isShort.ne_negY hn)]
    refine (Point.double_of_ok (p := ⟨c.abscissa x, c.ordinate y⟩) hnumber hi hs).trans ?_
    simp only [point, c.isShort.slope_self hn, c.isShort.addX_eq, c.isShort.addY_eq,
      c.abscissa_line, c.ordinate_line]

theorem add_point {P Q : W.Point} (h : c.HasLine P Q) :
    (c.point P).add (c.point Q) = .ok (c.point (P + Q)) := by
  by_cases hP : P = 0
  · subst hP
    unfold Point.add
    rw [if_pos (c.isInfinity_point_iff.mpr rfl), zero_add]
    rfl
  by_cases hQ : Q = 0
  · subst hQ
    unfold Point.add
    rw [if_neg (mt c.isInfinity_point_iff.mp hP), if_pos (c.isInfinity_point_iff.mpr rfl), add_zero]
    rfl
  have hPi : (c.point P).isInfinity = false :=
    Bool.eq_false_iff.mpr (mt c.isInfinity_point_iff.mp hP)
  have hQi : (c.point Q).isInfinity = false :=
    Bool.eq_false_iff.mpr (mt c.isInfinity_point_iff.mp hQ)
  cases P with
  | zero => exact absurd rfl hP
  | some x₁ y₁ h₁ =>
    cases Q with
    | zero => exact absurd rfl hQ
    | some x₂ y₂ h₂ =>
      by_cases hx : x₁ = x₂
      · subst hx
        have hsame : (c.point (.some x₁ y₁ h₁)).x = (c.point (.some x₁ y₂ h₂)).x := rfl
        rw [Point.add_of_eq hPi hQi hsame]
        by_cases hy : y₁ = y₂
        · subst hy
          rw [if_pos rfl, double_point hP h]
        · have hroots : y₁ ^ 2 = y₂ ^ 2 :=
            (c.isShort.nonsingular_iff.mp h₁).trans (c.isShort.nonsingular_iff.mp h₂).symm
          have hneg : y₁ = W.negY x₁ y₂ := by
            rw [c.isShort.negY_eq]
            exact (sq_eq_sq_iff_eq_or_eq_neg.mp hroots).resolve_left hy
          have hne : (c.point (.some x₁ y₁ h₁)).y ≠ (c.point (.some x₁ y₂ h₂)).y :=
            fun he => hy (c.ordinate_injective he)
          rw [WeierstrassCurve.Affine.Point.add_of_Y_eq rfl hneg, if_neg hne, point_zero]
      · obtain ⟨i, hi, hs⟩ := h.2 hx
        rw [WeierstrassCurve.Affine.Point.add_of_X_ne hx]
        refine (Point.add_of_ok hPi hQi (fun he => hx (c.abscissa_injective he)) hi hs).trans ?_
        simp only [point, IsShort.slope_of_ne hx, c.isShort.addX_eq, c.isShort.addY_eq,
          c.abscissa_line, c.ordinate_line]

section Multiples
variable (h : ∀ P Q, c.HasLine P Q)
include h

theorem mulBy_loop_point (n : Nat) : ∀ P Q : W.Point,
    Point.mulBy.loop n (c.point P) (c.point Q) = .ok (c.point (Q + n • P)) := by
  induction n using Nat.strong_induction_on with
  | _ n ih =>
    intro P Q
    by_cases hn : n = 0
    · rw [hn, Point.mulBy_loop_zero, zero_nsmul, add_zero]
    · have hacc : (if n % 2 = 1 then (c.point Q).add (c.point P) else .ok (c.point Q)) =
          .ok (c.point (Q + (n % 2) • P)) := by
        rcases Nat.mod_two_eq_zero_or_one n with hd | hd
        · rw [hd, if_neg (by decide), zero_nsmul, add_zero]
        · rw [hd, if_pos rfl, one_nsmul, add_point (h Q P)]
      have hsum : Q + (n % 2) • P + (n / 2) • (P + P) = Q + n • P := by
        rw [← two_nsmul, ← mul_nsmul, add_assoc, ← add_nsmul, Nat.mod_add_div]
      rw [Point.mulBy_loop_of_ok hn (add_point (h P P)) hacc, ih (n / 2) (by omega), hsum]

theorem mulBy_point (P : W.Point) (n : Nat) : (c.point P).mulBy n = .ok (c.point (n • P)) := by
  have hloop := mulBy_loop_point h n P 0
  rwa [zero_add] at hloop

theorem repeated_point (P : W.Point) (n : Nat) :
    (c.point P).repeated n = .ok (c.point (n • P)) := by
  induction n with
  | zero => rw [Point.repeated, zero_nsmul, point_zero]
  | succ n ih => rw [Point.repeated, except_of_ok ih, add_point (h _ _), succ_nsmul]

end Multiples

end Chart

end ExecutionLayer.AltBn128
