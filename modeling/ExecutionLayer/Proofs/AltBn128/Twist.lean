import ExecutionLayer.Proofs.AltBn128.Dodecic
import ExecutionLayer.Proofs.AltBn128.Group

/-! # The twist as a group

The points of the twist form a group. In the extension of degree twelve their coordinates become
monomials of degrees two and three, and there sums and multiples are those of the group.
-/
namespace ExecutionLayer.AltBn128
open Quadratic (toField)
open Dodecic (mono mono_mul mono_sub mono_add_six)

def twistCurve : WeierstrassCurve.Affine QuadraticField := ⟨0, 0, 0, 0, toField Quadratic.curve⟩

abbrev Twist := twistCurve.Point

namespace Twist

section Coordinates
variable {x y x₁ x₂ y₁ y₂ slope : QuadraticField}

theorem isShort : IsShort twistCurve where
  a₁_eq := rfl
  a₂_eq := rfl
  a₃_eq := rfl
  a₄_eq := rfl
  two_ne_zero := two_ne_zero_of_field
  pow_three_add_ne_zero := pow_three_add_curve_ne_zero

theorem negY_eq : twistCurve.negY x y = -y := isShort.negY_eq

theorem addX_eq : twistCurve.addX x₁ x₂ slope = slope * slope - x₁ - x₂ := isShort.addX_eq

theorem addY_eq : twistCurve.addY x₁ x₂ y₁ slope =
    slope * (x₁ - (slope * slope - x₁ - x₂)) - y₁ := isShort.addY_eq

theorem y_ne_zero (h : y ^ 2 = x ^ 3 + toField Quadratic.curve) : y ≠ 0 := isShort.y_ne_zero h

theorem nonsingular_iff :
    twistCurve.Nonsingular x y ↔ y ^ 2 = x ^ 3 + toField Quadratic.curve := isShort.nonsingular_iff

theorem ne_negY (h : twistCurve.Nonsingular x y) : y ≠ twistCurve.negY x y := isShort.ne_negY h

theorem slope_self (h : twistCurve.Nonsingular x y) :
    twistCurve.slope x x y y = 3 * (x * x) / (2 * y) := isShort.slope_self h

theorem slope_of_ne (hx : x₁ ≠ x₂) :
    twistCurve.slope x₁ x₂ y₁ y₂ = (y₂ - y₁) / (x₂ - x₁) := IsShort.slope_of_ne hx

end Coordinates

theorem eq_zero_of_add_self {P : Twist} (h : P + P = 0) : P = 0 := by
  cases P with
  | zero => rfl
  | some x y hn =>
    rw [WeierstrassCurve.Affine.Point.add_self_of_Y_ne (ne_negY hn)] at h
    cases h

def embed : Twist → Point Dodecic
  | .zero => .infinity
  | .some x y _ => ⟨mono 2 x, mono 3 y⟩

theorem embed_zero : embed 0 = .infinity := rfl

theorem infinity_eq : (Point.infinity : Point Dodecic) = ⟨mono 2 0, mono 3 0⟩ := by
  rw [Dodecic.mono_zero, Dodecic.mono_zero]
  rfl

section Slopes
variable {x y : QuadraticField}

theorem line_slope (hx : x ≠ 0) :
    ∃ c, Coordinate.inverse (mono 2 x) = .ok c ∧ mono 1 (y / x) = mono 3 y * c := by
  refine ⟨_, Dodecic.inverse_mono (by decide) (by decide) hx, ?_⟩
  rw [mono_mul, mono_add_six 1]
  refine congrArg (mono 1) ?_
  have homega := inv_mul_cancel₀ Dodecic.omega_ne_zero
  rw [mul_assoc, mul_assoc, homega, mul_one, div_eq_mul_inv]

theorem tangent_slope (hy : y ≠ 0) :
    ∃ c, Coordinate.inverse (Coordinate.ofBase 2 * mono 3 y) = .ok c ∧
      mono 1 (3 * (x * x) / (2 * y)) = Coordinate.ofBase 3 * (mono 2 x * mono 2 x) * c := by
  have hden : Dodecic.ofBase 2 * mono 3 y = mono 3 (2 * y) := by
    rw [Dodecic.ofBase_numeral, mono_mul]
  change ∃ c, Dodecic.inverse (Dodecic.ofBase 2 * mono 3 y) = .ok c ∧
    _ = Dodecic.ofBase 3 * (mono 2 x * mono 2 x) * c
  rw [hden]
  refine ⟨_, Dodecic.inverse_mono (by decide) (by decide) (mul_ne_zero two_ne_zero_of_field hy), ?_⟩
  rw [Dodecic.ofBase_numeral, mono_mul, mono_mul, mono_mul, mono_add_six 1]
  refine congrArg (mono 1) ?_
  have homega := inv_mul_cancel₀ Dodecic.omega_ne_zero
  rw [mul_assoc (3 * (x * x)), mul_assoc (2 * y)⁻¹, homega, mul_one, div_eq_mul_inv]

end Slopes

def chart : Chart twistCurve Dodecic where
  isShort := isShort
  abscissa := mono 2
  ordinate := mono 3
  slope := mono 1
  abscissa_injective := Dodecic.mono_injective 2
  ordinate_injective := Dodecic.mono_injective 3
  abscissa_zero := Dodecic.mono_zero 2
  ordinate_zero := Dodecic.mono_zero 3
  abscissa_line _ _ _ := by rw [mono_mul, mono_sub, mono_sub]
  ordinate_line _ _ _ _ := by rw [mono_sub, mono_mul, mono_sub]
  equation_iff x y := by
    change mono 3 y * mono 3 y - mono 2 x * mono 2 x * mono 2 x - Dodecic.ofBase 3 =
      Dodecic.ofBase 0 ↔ y ^ 2 = x ^ 3 + toField Quadratic.curve
    rw [mono_mul, mono_mul, mono_mul, mono_sub, mono_add_six 0, Dodecic.ofBase_numeral, mono_sub,
      ← Dodecic.mono_zero 0, (Dodecic.mono_injective 0).eq_iff]
    constructor
    · intro h
      refine mul_right_cancel₀ Dodecic.omega_ne_zero ?_
      linear_combination h - toField_curve
    · intro h
      linear_combination QuadraticAlgebra.omega * h + toField_curve
  number_ordinate h := absurd h Bool.false_ne_true

theorem chart_point (P : Twist) : chart.point P = embed P := by
  cases P <;> rfl

theorem hasLine (P Q : Twist) : chart.HasLine P Q := by
  cases P with
  | zero => trivial
  | some x₁ y₁ h₁ =>
    cases Q with
    | zero => trivial
    | some x₂ y₂ h₂ =>
      refine ⟨fun _ _ => tangent_slope (y_ne_zero (nonsingular_iff.mp h₁)), fun hx => ?_⟩
      obtain ⟨c, hc, hs⟩ := line_slope (y := y₂ - y₁) (sub_ne_zero.mpr (Ne.symm hx))
      rw [← mono_sub] at hc hs
      exact ⟨c, hc, hs⟩

theorem isInfinity_embed (P : Twist) : (embed P).isInfinity = decide (P = 0) := by
  rw [Bool.eq_iff_iff, decide_eq_true_eq, ← chart_point]
  exact chart.isInfinity_point_iff

theorem onCurve_embed (P : Twist) : (embed P).onCurve := chart_point P ▸ chart.onCurve_point P

theorem double_embed {P : Twist} (hP : P ≠ 0) : (embed P).double = .ok (embed (P + P)) := by
  rw [← chart_point, ← chart_point]
  exact Chart.double_point hP (hasLine P P)

theorem add_embed (P Q : Twist) : (embed P).add (embed Q) = .ok (embed (P + Q)) := by
  rw [← chart_point, ← chart_point, ← chart_point]
  exact Chart.add_point (hasLine P Q)

theorem mulBy_embed (P : Twist) (n : Nat) : (embed P).mulBy n = .ok (embed (n • P)) := by
  rw [← chart_point, ← chart_point]
  exact Chart.mulBy_point hasLine P n

end Twist

end ExecutionLayer.AltBn128
