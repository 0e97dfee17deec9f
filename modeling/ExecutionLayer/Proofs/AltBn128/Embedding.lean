import ExecutionLayer.Proofs.AltBn128.Addition
import ExecutionLayer.Proofs.AltBn128.Frobenius

/-! # Embeddings into the extension of degree twelve

The quadratic extension is a subfield of the extension of degree twelve. The points of the curve and
of the twist are points of the same equation there: only the chart in which a point is written down
changes.
-/
namespace ExecutionLayer.AltBn128
open Base (toZMod ofZMod)
open Quadratic (toField)
open Dodecic (mono mono_mul mono_sub)

namespace Quadratic
variable (a b : Quadratic)

theorem embed_add : (a + b).embed = a.embed + b.embed := by
  rw [Dodecic.embed_eq, Dodecic.embed_eq, Dodecic.embed_eq, toField_add, Dodecic.mono_add]

theorem embed_mul : (a * b).embed = a.embed * b.embed := by
  rw [Dodecic.embed_eq, Dodecic.embed_eq, Dodecic.embed_eq, toField_mul, mono_mul]

theorem embed_injective : Function.Injective embed := by
  intro a b h
  rw [Dodecic.embed_eq, Dodecic.embed_eq] at h
  exact toField_injective (Dodecic.mono_injective 0 h)

end Quadratic

theorem Dodecic.sub_sub_eq_zero_iff (a b c : Dodecic) :
    a - b - c = Coordinate.zero ↔ a = b + c := by
  have hterm (i : Nat) (hi : i < 12) :
      Poly.term (a - b - c).coefficients i = Poly.term (Dodecic.ofBase 0).coefficients i ↔
        Poly.term a.coefficients i = Poly.term (b + c).coefficients i := by
    have hsub : Poly.term (a - b - c).coefficients i = Poly.term a.coefficients i -
        Poly.term b.coefficients i - Poly.term c.coefficients i :=
      (Poly.term_sub _ _ _).trans (congrArg (· - _) (Poly.term_sub _ _ _))
    have hadd : Poly.term (b + c).coefficients i =
        Poly.term b.coefficients i + Poly.term c.coefficients i := Poly.term_add _ _ _
    have hzero : Poly.term (Dodecic.ofBase 0).coefficients i = 0 :=
      (Poly.term_ofBase 0 hi).trans (by simp)
    rw [hsub, hadd, hzero, sub_sub, sub_eq_zero]
  constructor
  · intro h
    exact congrArg Dodecic.mk (Poly.eq_of_term fun i hi => (hterm i hi).mp (by rw [h]; rfl))
  · intro h
    exact congrArg Dodecic.mk (Poly.eq_of_term fun i hi => (hterm i hi).mpr (by rw [h]))

theorem Point.isInfinity_iff {F : Type} [Coordinate F] (p : Point F) :
    p.isInfinity ↔ p = .infinity := by
  cases p
  simp [isInfinity, infinity]

section Charts
variable {K : Type} [Field K] {W : WeierstrassCurve.Affine K} (c : Chart W Dodecic)

theorem Chart.point_solves {P : W.Point} (hP : P ≠ 0) : (c.point P).y * (c.point P).y =
    (c.point P).x * (c.point P).x * (c.point P).x + Dodecic.ofBase 3 := by
  cases P with
  | zero => exact absurd rfl hP
  | some x y h =>
    have hzero := (c.equation_iff x y).mpr (c.isShort.nonsingular_iff.mp h)
    exact (Dodecic.sub_sub_eq_zero_iff _ _ _).mp hzero

theorem Chart.point_eq_infinity_iff {F : Type} [Coordinate F] (c : Chart W F) {P : W.Point} :
    c.point P = .infinity ↔ P = 0 := by
  rw [← Point.isInfinity_iff, c.isInfinity_point_iff]

theorem Chart.embedded {F : Type} [Coordinate F] (c' : Chart W F)
    {embedding : Point F → Except Fault (Point Dodecic)}
    (hchange : ∀ P, embedding (c'.point P) = .ok (c.point P)) (P : W.Point) :
    ∃ r, embedding (c'.point P) = .ok r ∧ (r = .infinity ↔ c'.point P = .infinity) ∧
      (c'.point P ≠ .infinity → r.y * r.y = r.x * r.x * r.x + Dodecic.ofBase 3) := by
  refine ⟨_, hchange P, ?_, fun hP => c.point_solves ?_⟩
  · rw [c.point_eq_infinity_iff, c'.point_eq_infinity_iff]
  · rwa [Ne, c'.point_eq_infinity_iff] at hP

end Charts

theorem twist_eq (q : Point Quadratic) :
    twist q = Point.make (mono 2 (toField q.x)) (mono 3 (toField q.y)) := by
  unfold twist
  rw [Dodecic.embed_eq, Dodecic.embed_eq, Dodecic.root_eq, Dodecic.pow_mono, Dodecic.pow_mono,
    mono_mul, mono_mul]
  simp only [one_pow, mul_one, zero_add, one_mul]

theorem twist_point (Q : Twist) : twist (Quadratic.chart.point Q) = .ok (Twist.chart.point Q) := by
  have hmake := Point.make_of_onCurve (Twist.chart.onCurve_point Q)
  rw [twist_eq]
  cases Q with
  | zero =>
    have hzero : toField (Coordinate.zero : Quadratic) = 0 := Quadratic.reading.map_zero
    have hpoint : Quadratic.chart.point .zero = ⟨Coordinate.zero, Coordinate.zero⟩ := rfl
    rw [hpoint, hzero, Dodecic.mono_zero, Dodecic.mono_zero]
    exact hmake
  | some x y h =>
    have hpoint : Quadratic.chart.point (.some x y h) =
        ⟨Quadratic.ofField x, Quadratic.ofField y⟩ := rfl
    rw [hpoint, Quadratic.toField_ofField, Quadratic.toField_ofField]
    exact hmake

theorem Dodecic.ofBase_injective : Function.Injective Dodecic.ofBase := by
  intro a b h
  rw [Dodecic.ofBase_eq, Dodecic.ofBase_eq] at h
  exact Base.toZMod_injective
    (FaithfulSMul.algebraMap_injective (ZMod prime) QuadraticField (Dodecic.mono_injective 0 h))

theorem Dodecic.ofBase_sub (a b : Base) :
    Dodecic.ofBase a - Dodecic.ofBase b = Dodecic.ofBase (a - b) := by
  rw [Dodecic.ofBase_eq, Dodecic.ofBase_eq, Dodecic.ofBase_eq, mono_sub, Base.toZMod_sub, map_sub]

theorem Dodecic.ofBase_mul (a b : Base) :
    Dodecic.ofBase a * Dodecic.ofBase b = Dodecic.ofBase (a * b) := by
  rw [Dodecic.ofBase_eq, Dodecic.ofBase_eq, Dodecic.ofBase_eq, mono_mul, Base.toZMod_mul, map_mul]

def Base.dodecicChart : Chart baseCurve Dodecic where
  isShort := baseCurve_isShort
  abscissa x := Dodecic.ofBase (ofZMod x)
  ordinate y := Dodecic.ofBase (ofZMod y)
  slope s := Dodecic.ofBase (ofZMod s)
  abscissa_injective := Dodecic.ofBase_injective.comp Base.ofZMod_injective
  ordinate_injective := Dodecic.ofBase_injective.comp Base.ofZMod_injective
  abscissa_zero := congrArg Dodecic.ofBase Base.ofZMod_zero
  ordinate_zero := congrArg Dodecic.ofBase Base.ofZMod_zero
  abscissa_line s x₁ x₂ := by
    rw [Dodecic.ofBase_mul, Dodecic.ofBase_sub, Dodecic.ofBase_sub]
    exact congrArg Dodecic.ofBase (Base.chart.abscissa_line s x₁ x₂)
  ordinate_line s x₁ x y := by
    rw [Dodecic.ofBase_sub, Dodecic.ofBase_mul, Dodecic.ofBase_sub]
    exact congrArg Dodecic.ofBase (Base.chart.ordinate_line s x₁ x y)
  equation_iff x y := by
    rw [← Base.chart.equation_iff x y, Dodecic.ofBase_mul, Dodecic.ofBase_mul, Dodecic.ofBase_mul,
      Dodecic.ofBase_sub]
    change Dodecic.ofBase _ - Dodecic.ofBase 3 = Dodecic.ofBase 0 ↔ _
    rw [Dodecic.ofBase_sub, Dodecic.ofBase_injective.eq_iff]
    rfl
  number_ordinate h := absurd h Bool.false_ne_true

theorem embedPoint_point (P : baseCurve.Point) :
    embedPoint (Base.chart.point P) = .ok (Base.dodecicChart.point P) := by
  have hmake := Point.make_of_onCurve (Base.dodecicChart.onCurve_point P)
  cases P with
  | zero => exact hmake
  | some x y h => exact hmake

/-- The embedding of the quadratic extension respects sums and products and is injective. Each point
of the twist and each point of the curve has an image, which solves the equation `y² = x³ + 3` over
the extension of degree twelve, unless the point is infinity; and infinity alone becomes infinity. -/
theorem embeddings_sound (a b : Quadratic) (q : Point Quadratic) (p : Point Base) (hq : q.onCurve)
    (hp : p.onCurve) :
    (a + b).embed = a.embed + b.embed ∧ (a * b).embed = a.embed * b.embed ∧
    Function.Injective Quadratic.embed ∧
    (∃ r, twist q = .ok r ∧ (r = .infinity ↔ q = .infinity) ∧
      (q ≠ .infinity → r.y * r.y = r.x * r.x * r.x + Dodecic.ofBase 3)) ∧
    ∃ r, embedPoint p = .ok r ∧ (r = .infinity ↔ p = .infinity) ∧
      (p ≠ .infinity → r.y * r.y = r.x * r.x * r.x + Dodecic.ofBase 3) := by
  obtain ⟨Q, rfl⟩ := Quadratic.exists_point hq
  obtain ⟨P, rfl⟩ := Base.exists_point hp
  exact ⟨a.embed_add b, a.embed_mul b, Quadratic.embed_injective,
    Twist.chart.embedded Quadratic.chart twist_point Q,
    Base.dodecicChart.embedded Base.chart embedPoint_point P⟩

theorem embeddings_sound_one :
    pointAtOne.onCurve ∧ (⟨1, 2⟩ : Point Base).onCurve ∧
    (Quadratic.make 2 3 * Quadratic.make 5 7).embed =
      (Quadratic.make 2 3).embed * (Quadratic.make 5 7).embed ∧
    (∃ r, twist pointAtOne = .ok r ∧ r ≠ .infinity ∧
      r.y * r.y = r.x * r.x * r.x + Dodecic.ofBase 3) ∧
    ∃ r, embedPoint ⟨1, 2⟩ = .ok r ∧ r ≠ .infinity ∧
      r.y * r.y = r.x * r.x * r.x + Dodecic.ofBase 3 := by
  have hp : (⟨1, 2⟩ : Point Base).onCurve := by decide
  have hq : pointAtOne ≠ .infinity := by decide
  have hp' : (⟨1, 2⟩ : Point Base) ≠ .infinity := by decide
  obtain ⟨-, hmul, -, ⟨r, hr, hinf, hsolves⟩, s, hs, hinf', hsolves'⟩ :=
    embeddings_sound (Quadratic.make 2 3) (Quadratic.make 5 7) _ _ onCurve_pointAtOne hp
  exact ⟨onCurve_pointAtOne, hp, hmul, ⟨r, hr, mt hinf.mp hq, hsolves hq⟩,
    s, hs, mt hinf'.mp hp', hsolves' hp'⟩

end ExecutionLayer.AltBn128
