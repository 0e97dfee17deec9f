import ExecutionLayer.Proofs.AltBn128.Twist

/-! # Sums of points

Over the base field the sum of two points of the curve is the one of the group, and so it is on the
twist, as long as the slope of the line is found. It is missed if its denominator lies in the base
field: unless the slope is zero, the result is then hardly ever on the curve.
-/
namespace ExecutionLayer.AltBn128
open Base (toZMod ofZMod)
open Quadratic (toField pair)
open Coordinate (inverse curve isNumberZero zero)

/-! ## Coordinates that are a field -/

/-- Coordinates read as the elements of a field. -/
structure Reading (F K : Type) [Coordinate F] [Field K] where
  toField : F → K
  ofField : K → F
  toField_ofField (x : K) : toField (ofField x) = x
  ofField_toField (a : F) : ofField (toField a) = a
  map_sub (a b : F) : toField (a - b) = toField a - toField b
  map_mul (a b : F) : toField (a * b) = toField a * toField b
  map_ofNat (n : Nat) : toField (Coordinate.ofBase (Base.ofNat n)) = n
  number_zero {a : F} (h : isNumberZero a = true) : toField a = 0

namespace Reading
variable {F K : Type} [Coordinate F] [Field K] (r : Reading F K)

theorem toField_injective : Function.Injective r.toField :=
  Function.LeftInverse.injective r.ofField_toField

theorem ofField_injective : Function.Injective r.ofField :=
  Function.LeftInverse.injective r.toField_ofField

theorem ofField_surjective : Function.Surjective r.ofField := fun a => ⟨_, r.ofField_toField a⟩

theorem map_zero : r.toField zero = 0 := (r.map_ofNat 0).trans Nat.cast_zero

theorem ofField_zero : r.ofField 0 = zero := by rw [← r.map_zero, r.ofField_toField]

variable {W : WeierstrassCurve.Affine K}

def chart (hW : IsShort W) (hcurve : r.toField curve = W.a₆) : Chart W F where
  isShort := hW
  abscissa := r.ofField
  ordinate := r.ofField
  slope := r.ofField
  abscissa_injective := r.ofField_injective
  ordinate_injective := r.ofField_injective
  abscissa_zero := r.ofField_zero
  ordinate_zero := r.ofField_zero
  abscissa_line _ _ _ :=
    r.toField_injective (by simp only [r.map_sub, r.map_mul, r.toField_ofField])
  ordinate_line _ _ _ _ :=
    r.toField_injective (by simp only [r.map_sub, r.map_mul, r.toField_ofField])
  equation_iff x y := by
    rw [← r.toField_injective.eq_iff]
    simp only [r.map_sub, r.map_mul, r.toField_ofField, r.map_zero, hcurve]
    constructor <;> intro h <;> linear_combination h
  number_ordinate h := by
    have hzero := r.number_zero h
    rwa [r.toField_ofField] at hzero

def Divides (a b : F) : Prop :=
  ∃ i, inverse b = .ok i ∧ r.toField a * r.toField i = r.toField a / r.toField b

section Lines
variable {hW : IsShort W} {hcurve : r.toField curve = W.a₆}

theorem finds_of_divides {a b : F} (h : r.Divides a b) :
    (r.chart hW hcurve).Finds (r.toField a / r.toField b) a b := by
  obtain ⟨i, hi, hquotient⟩ := h
  refine ⟨i, hi, r.toField_injective ?_⟩
  rw [r.map_mul, hquotient]
  exact r.toField_ofField _

theorem hasTangent {x y : K}
    (h : r.Divides (Coordinate.ofBase 3 * (r.ofField x * r.ofField x))
      (Coordinate.ofBase 2 * r.ofField y)) : (r.chart hW hcurve).HasTangent x y := by
  have hfinds : (r.chart hW hcurve).Finds _ _ _ := r.finds_of_divides h
  have hthree : r.toField (Coordinate.ofBase 3) = 3 := (r.map_ofNat 3).trans (Nat.cast_ofNat)
  have htwo : r.toField (Coordinate.ofBase 2) = 2 := (r.map_ofNat 2).trans (Nat.cast_ofNat)
  rwa [r.map_mul, r.map_mul, r.map_mul, hthree, htwo, r.toField_ofField, r.toField_ofField]
    at hfinds

theorem hasChord {x₁ y₁ x₂ y₂ : K}
    (h : r.Divides (r.ofField y₂ - r.ofField y₁) (r.ofField x₂ - r.ofField x₁)) :
    (r.chart hW hcurve).HasChord x₁ y₁ x₂ y₂ := by
  have hfinds : (r.chart hW hcurve).Finds _ _ _ := r.finds_of_divides h
  rwa [r.map_sub, r.map_sub, r.toField_ofField, r.toField_ofField, r.toField_ofField,
    r.toField_ofField] at hfinds

end Lines

end Reading

/-! ## The curve over the base field -/

def baseCurve : WeierstrassCurve.Affine (ZMod prime) := ⟨0, 0, 0, 0, toZMod curve⟩

theorem baseCurve_isShort : IsShort baseCurve where
  a₁_eq := rfl
  a₂_eq := rfl
  a₃_eq := rfl
  a₄_eq := rfl
  two_ne_zero := two_ne_zero_of_base
  pow_three_add_ne_zero x := by
    have hcurve : baseCurve.a₆ = 3 := Base.toZMod_numeral 3
    rw [hcurve]
    exact pow_three_add_three_ne_zero x

namespace Base

def reading : Reading Base (ZMod prime) where
  toField := toZMod
  ofField := ofZMod
  toField_ofField := toZMod_ofZMod
  ofField_toField := ofZMod_toZMod
  map_sub := toZMod_sub
  map_mul := toZMod_mul
  map_ofNat := toZMod_ofNat
  number_zero h := by rw [of_decide_eq_true h, toZMod_zero]

theorem divides (a : Base) {b : Base} (hb : toZMod b ≠ 0) : reading.Divides a b := by
  refine ⟨_, inverse?_of_ne fun h => hb (by rw [h, toZMod_zero]), ?_⟩
  change toZMod a * toZMod (Base.inverse b) = toZMod a / toZMod b
  rw [toZMod_inverse, div_eq_mul_inv]

def chart : Chart baseCurve Base := reading.chart baseCurve_isShort rfl

theorem hasLine (P Q : baseCurve.Point) : chart.HasLine P Q := by
  cases P with
  | zero => trivial
  | some x₁ y₁ h₁ =>
    cases Q with
    | zero => trivial
    | some x₂ y₂ h₂ =>
      refine ⟨fun _ _ => reading.hasTangent (divides _ ?_),
        fun hx => reading.hasChord (divides _ ?_)⟩
      · have hy := baseCurve_isShort.y_ne_zero (baseCurve_isShort.nonsingular_iff.mp h₁)
        change toZMod (2 * ofZMod y₁) ≠ 0
        rw [toZMod_mul, toZMod_numeral, toZMod_ofZMod]
        exact mul_ne_zero two_ne_zero_of_base hy
      · rw [toZMod_sub]
        change toZMod (ofZMod x₂) - toZMod (ofZMod x₁) ≠ 0
        rw [toZMod_ofZMod, toZMod_ofZMod]
        exact sub_ne_zero.mpr (Ne.symm hx)

theorem exists_point {p : Point Base} (hp : p.onCurve) : ∃ P, chart.point P = p :=
  chart.exists_point reading.ofField_surjective reading.ofField_surjective hp

end Base

/-! ## The twist -/

namespace Quadratic

def ofField (x : QuadraticField) : Quadratic := ⟨pair (x.re + ((9 : Nat) : ZMod prime) * x.im) x.im⟩

theorem toField_ofField (x : QuadraticField) : toField (ofField x) = x := by
  ext <;> simp [toField, ofField]

def reading : Reading Quadratic QuadraticField where
  toField := toField
  ofField := ofField
  toField_ofField := toField_ofField
  ofField_toField a := toField_injective (toField_ofField (toField a))
  map_sub := toField_sub
  map_mul := toField_mul
  map_ofNat n := by
    change toField (ofBase (Base.ofNat n)) = n
    rw [toField_ofBase, Base.toZMod_ofNat, map_natCast]
  number_zero h := absurd h Bool.false_ne_true

theorem divides {a b : Quadratic} (hb : toField b ≠ 0) (h : (toField b).im ≠ 0 ∨ toField a = 0) :
    reading.Divides a b := by
  obtain ⟨i, hi, hfield⟩ := inverse_ok hb
  refine ⟨i, hi, ?_⟩
  change toField a * toField i = toField a / toField b
  rcases h with him | h0
  · rw [hfield, if_neg him, div_eq_mul_inv]
  · rw [h0, zero_mul, zero_div]

theorem inverse_of_im_eq_zero {b : Quadratic} (hb : toField b ≠ 0) (him : (toField b).im = 0)
    (a : Quadratic) : ∃ i, inverse b = .ok i ∧ toField (a * i) = 0 := by
  obtain ⟨i, hi, hfield⟩ := inverse_ok hb
  refine ⟨i, hi, ?_⟩
  rw [toField_mul, hfield, if_pos him, mul_zero]

def chart : Chart twistCurve Quadratic := reading.chart Twist.isShort rfl

section Lines
variable {x y x₁ x₂ y₁ y₂ : QuadraticField}

theorem hasTangent (hy : y ≠ 0) (h : y.im ≠ 0 ∨ x = 0) : chart.HasTangent x y := by
  have hden : toField (Coordinate.ofBase 2 * ofField y) = 2 * y := by
    rw [toField_numeral_mul, toField_ofField]
  refine reading.hasTangent (divides ?_ (h.imp (mt ?_) ?_))
  · exact hden ▸ mul_ne_zero two_ne_zero_of_field hy
  · intro h0
    change (toField (Coordinate.ofBase 2 * ofField y)).im = 0 at h0
    rw [hden, two_mul, QuadraticAlgebra.im_add, ← two_mul] at h0
    exact (mul_eq_zero.mp h0).resolve_left two_ne_zero_of_base
  · intro hx
    change toField (Coordinate.ofBase 3 * (ofField x * ofField x)) = 0
    rw [toField_numeral_mul, toField_mul, toField_ofField, hx, mul_zero, mul_zero]

theorem hasChord (hx : x₁ ≠ x₂) (h : x₁.im ≠ x₂.im ∨ y₁ = y₂) : chart.HasChord x₁ y₁ x₂ y₂ := by
  have hdifference (x y : QuadraticField) : toField (ofField x - ofField y) = x - y := by
    rw [toField_sub, toField_ofField, toField_ofField]
  refine reading.hasChord (divides ?_ (h.imp (mt ?_) ?_))
  · exact hdifference x₂ x₁ ▸ sub_ne_zero.mpr (Ne.symm hx)
  · intro h0
    change (toField (ofField x₂ - ofField x₁)).im = 0 at h0
    rw [hdifference, QuadraticAlgebra.im_sub, sub_eq_zero] at h0
    exact h0.symm
  · exact fun hy => (hdifference y₂ y₁).trans (sub_eq_zero.mpr hy.symm)

end Lines

theorem exists_point {t : Point Quadratic} (ht : t.onCurve) : ∃ P, chart.point P = t :=
  chart.exists_point reading.ofField_surjective reading.ofField_surjective ht

end Quadratic

/-! ## Slopes that are missed -/

theorem Quadratic.coeff_one_eq_iff (a b : Quadratic) :
    a.coefficients.coeff 1 = b.coefficients.coeff 1 ↔ (toField a).im = (toField b).im :=
  Base.toZMod_injective.eq_iff.symm

theorem Quadratic.coeff_one_eq_zero_iff (a : Quadratic) :
    a.coefficients.coeff 1 = 0 ↔ (toField a).im = 0 := Poly.coeff_eq_zero_iff

theorem Quadratic.eq_zero_iff (a : Quadratic) : a = zero ↔ toField a = 0 := by
  rw [← Quadratic.toField_injective.eq_iff]
  exact Quadratic.reading.map_zero ▸ Iff.rfl

namespace Point
variable {t u : Point Quadratic}

/-- The slope of the line through two points of the twist is not zero, but its denominator lies in
the base field. -/
def MissesSlope (t u : Point Quadratic) : Prop :=
  t.isInfinity = false ∧ u.isInfinity = false ∧
    (t = u ∧ t.x ≠ zero ∧ t.y.coefficients.coeff 1 = 0 ∨
      t.x ≠ u.x ∧ t.y ≠ u.y ∧ t.x.coefficients.coeff 1 = u.x.coefficients.coeff 1)

instance : Decidable (t.MissesSlope u) := inferInstanceAs (Decidable (_ ∧ _ ∧ (_ ∨ _)))

theorem MissesSlope.symm (h : t.MissesSlope u) : u.MissesSlope t := by
  obtain ⟨ht, hu, ⟨rfl, hx, hy⟩ | ⟨hx, hy, him⟩⟩ := h
  · exact ⟨ht, ht, Or.inl ⟨rfl, hx, hy⟩⟩
  · exact ⟨hu, ht, Or.inr ⟨hx.symm, hy.symm, him.symm⟩⟩

theorem solvesTwist_of_onCurve (ht : t.onCurve) (hi : t.isInfinity = false) : t.SolvesTwist :=
  (Point.onCurve_twist_iff.mp ht).resolve_left (Bool.eq_false_iff.mp hi)

theorem level_line {slope : Quadratic} (hs : toField slope = 0) (x₁ x₂ y : Quadratic) :
    (⟨slope * slope - x₁ - x₂, slope * (x₁ - (slope * slope - x₁ - x₂)) - y⟩ : Point Quadratic) =
      ⟨-x₁ - x₂, -y⟩ := by
  refine congrArg₂ Point.mk (Quadratic.toField_injective ?_) (Quadratic.toField_injective ?_) <;>
    simp only [Quadratic.toField_sub, Quadratic.toField_mul, Quadratic.toField_neg, hs] <;> ring

theorem MissesSlope.add_eq (ht : t.onCurve) (h : t.MissesSlope u) :
    t.add u = .ok ⟨-t.x - u.x, -t.y⟩ := by
  obtain ⟨hti, hui, ⟨rfl, hx, hy⟩ | ⟨hx, hy, him⟩⟩ := h
  · have hden : toField (Coordinate.ofBase 2 * t.y) = 2 * toField t.y := toField_numeral_mul 2 t.y
    have him : (toField (Coordinate.ofBase 2 * t.y)).im = 0 := by
      rw [hden, two_mul, QuadraticAlgebra.im_add, (Quadratic.coeff_one_eq_zero_iff t.y).mp hy,
        add_zero]
    have hne : toField (Coordinate.ofBase 2 * t.y) ≠ 0 := by
      rw [hden]
      exact mul_ne_zero two_ne_zero_of_field (Twist.y_ne_zero (solvesTwist_of_onCurve ht hti))
    obtain ⟨i, hi, hslope⟩ :=
      Quadratic.inverse_of_im_eq_zero hne him (Coordinate.ofBase 3 * (t.x * t.x))
    rw [Point.add_self, if_neg (by rw [hti]; exact Bool.false_ne_true),
      Point.double_of_ok rfl hi rfl, level_line hslope]
  · have hne : toField (u.x - t.x) ≠ 0 := by
      rw [Quadratic.toField_sub, sub_ne_zero]
      exact fun he => hx (Quadratic.toField_injective he).symm
    have him' : (toField (u.x - t.x)).im = 0 := by
      rw [Quadratic.toField_sub, QuadraticAlgebra.im_sub,
        (Quadratic.coeff_one_eq_iff t.x u.x).mp him, sub_self]
    obtain ⟨i, hi, hslope⟩ := Quadratic.inverse_of_im_eq_zero hne him' (u.y - t.y)
    rw [Point.add_of_ok hti hui hx hi rfl, level_line hslope]

theorem MissesSlope.add_comm_iff (hu : u.onCurve) (h : t.MissesSlope u) :
    u.add t = .ok ⟨-t.x - u.x, -t.y⟩ ↔ t = u := by
  rw [h.symm.add_eq hu, Except.ok.injEq, Point.mk.injEq]
  constructor
  · rintro ⟨-, hy⟩
    have hfield := congrArg toField hy
    rw [Quadratic.toField_neg, Quadratic.toField_neg, neg_inj] at hfield
    obtain ⟨-, -, ⟨rfl, -⟩ | ⟨-, hne, -⟩⟩ := h
    · rfl
    · exact absurd (Quadratic.toField_injective hfield).symm hne
  · rintro rfl
    exact ⟨rfl, rfl⟩

theorem onCurve_level_iff (ht : t.SolvesTwist) (x : Quadratic) :
    (⟨-t.x - x, -t.y⟩ : Point Quadratic).onCurve ↔
      2 * toField t.x + toField x = 0 ∨
        toField t.x ^ 2 + toField t.x * toField x + toField x ^ 2 = 0 := by
  have hcurve : toField t.y ^ 2 = toField t.x ^ 3 + toField Quadratic.curve := ht
  have hfinite : ¬(⟨-t.x - x, -t.y⟩ : Point Quadratic).isInfinity := by
    intro hi
    rw [Point.isInfinity, Bool.and_eq_true, decide_eq_true_eq, decide_eq_true_eq,
      Quadratic.eq_zero_iff, Quadratic.eq_zero_iff, Quadratic.toField_neg] at hi
    exact Twist.y_ne_zero hcurve (neg_eq_zero.mp hi.2)
  rw [Point.onCurve_twist_iff, or_iff_right hfinite, ← mul_eq_zero]
  simp only [Point.SolvesTwist, Quadratic.toField_sub, Quadratic.toField_neg]
  constructor <;> intro he
  · linear_combination he - hcurve
  · linear_combination he + hcurve

theorem MissesSlope.onCurve_iff (ht : t.onCurve) (hu : u.onCurve) (h : t.MissesSlope u) :
    (⟨-t.x - u.x, -t.y⟩ : Point Quadratic).onCurve ↔
      t.x ≠ u.x ∧ (u.y = -t.y ∨ u.x = -t.x - t.x) := by
  have hcurve : toField t.y ^ 2 = toField t.x ^ 3 + toField Quadratic.curve :=
    solvesTwist_of_onCurve ht h.1
  have hcurve' : toField u.y ^ 2 = toField u.x ^ 3 + toField Quadratic.curve :=
    solvesTwist_of_onCurve hu h.2.1
  rw [onCurve_level_iff (solvesTwist_of_onCurve ht h.1)]
  obtain ⟨-, -, ⟨rfl, hx, -⟩ | ⟨hx, hy, -⟩⟩ := h
  · have hne : toField t.x ≠ 0 := mt (Quadratic.eq_zero_iff t.x).mpr hx
    have hthree : (3 : QuadraticField) ≠ 0 := fun h0 =>
      numeral_ne_zero 3 (by decide) (congrArg QuadraticAlgebra.re h0)
    refine iff_of_false (not_or.mpr ⟨fun h0 => ?_, fun h0 => ?_⟩) fun hr => hr.1 rfl
    · exact mul_ne_zero hthree hne (by linear_combination h0)
    · exact mul_ne_zero hthree (pow_ne_zero 2 hne) (by linear_combination h0)
  · have hx' : toField u.x - toField t.x ≠ 0 :=
      sub_ne_zero.mpr fun he => hx (Quadratic.toField_injective he).symm
    have hy' : toField u.y - toField t.y ≠ 0 :=
      sub_ne_zero.mpr fun he => hy (Quadratic.toField_injective he).symm
    have hfactor : (toField u.x - toField t.x) *
        (toField t.x ^ 2 + toField t.x * toField u.x + toField u.x ^ 2) =
          (toField u.y - toField t.y) * (toField u.y + toField t.y) := by
      linear_combination hcurve - hcurve'
    rw [and_iff_right hx, or_comm, ← Quadratic.toField_injective.eq_iff,
      ← Quadratic.toField_injective.eq_iff, Quadratic.toField_neg, Quadratic.toField_sub,
      Quadratic.toField_neg]
    refine or_congr ⟨fun h0 => ?_, fun h0 => ?_⟩ ⟨fun h0 => ?_, fun h0 => ?_⟩
    · rw [h0, mul_zero] at hfactor
      exact eq_neg_of_add_eq_zero_left ((mul_eq_zero.mp hfactor.symm).resolve_left hy')
    · rw [h0, neg_add_cancel, mul_zero] at hfactor
      exact (mul_eq_zero.mp hfactor).resolve_left hx'
    · linear_combination h0
    · linear_combination h0

theorem hasLine_of_not_missesSlope {P Q : Twist}
    (h : ¬(Quadratic.chart.point P).MissesSlope (Quadratic.chart.point Q)) :
    Quadratic.chart.HasLine P Q := by
  cases P with
  | zero => trivial
  | some x₁ y₁ h₁ =>
    cases Q with
    | zero => trivial
    | some x₂ y₂ h₂ =>
      have hfinite {x y : QuadraticField} (hn : twistCurve.Nonsingular x y) :
          (Quadratic.chart.point (.some x y hn)).isInfinity = false := by
        rw [← Bool.not_eq_true, Quadratic.chart.isInfinity_point_iff]
        exact WeierstrassCurve.Affine.Point.some_ne_zero hn
      have hinjective := Quadratic.reading.ofField_injective
      have him (x : QuadraticField) : (toField (Quadratic.ofField x)).im = x.im := by
        rw [Quadratic.toField_ofField]
      constructor
      · rintro rfl rfl
        refine Quadratic.hasTangent (Twist.y_ne_zero (Twist.nonsingular_iff.mp h₁)) ?_
        by_contra hcon
        rw [not_or, not_not] at hcon
        refine h ⟨hfinite h₁, hfinite h₁, Or.inl ⟨rfl, fun hx => hcon.2 ?_, ?_⟩⟩
        · exact hinjective (hx.trans Quadratic.reading.ofField_zero.symm)
        · exact (Quadratic.coeff_one_eq_zero_iff _).mpr ((him y₁).trans hcon.1)
      · intro hx
        refine Quadratic.hasChord hx ?_
        by_contra hcon
        rw [not_or, not_not] at hcon
        refine h ⟨hfinite h₁, hfinite h₂,
          Or.inr ⟨fun he => hx (hinjective he), fun he => hcon.2 (hinjective he), ?_⟩⟩
        exact (Quadratic.coeff_one_eq_iff _ _).mpr
          ((him x₁).trans (hcon.1.trans (him x₂).symm))

theorem add_of_not_missesSlope (ht : t.onCurve) (hu : u.onCurve) (h : ¬t.MissesSlope u) :
    ∃ r, t.add u = .ok r ∧ u.add t = .ok r ∧ r.onCurve := by
  obtain ⟨P, rfl⟩ := Quadratic.exists_point ht
  obtain ⟨Q, rfl⟩ := Quadratic.exists_point hu
  refine ⟨_, Chart.add_point (hasLine_of_not_missesSlope h), ?_, Quadratic.chart.onCurve_point _⟩
  rw [add_comm]
  exact Chart.add_point (hasLine_of_not_missesSlope (mt MissesSlope.symm h))

/-! ## Infinity -/

theorem add_infinity {F : Type} [Coordinate F] (p : Point F) : p.add infinity = .ok p := by
  have hinf : (infinity : Point F).isInfinity := by simp [isInfinity, infinity]
  unfold add
  by_cases hp : p.isInfinity
  · obtain ⟨hx, hy⟩ : p.x = zero ∧ p.y = zero := by simpa [isInfinity] using hp
    obtain rfl : p = infinity := by
      cases p
      exact congrArg₂ Point.mk hx hy
    rw [if_pos hp]
    rfl
  · rw [if_neg hp, if_pos hinf]
    rfl

theorem double_of_isInfinity (h : t.isInfinity) : t.double = .error .zeroDegree := by
  obtain ⟨-, hy⟩ : t.x = zero ∧ t.y = zero := by simpa [isInfinity] using h
  have hden : toField (Coordinate.ofBase 2 * t.y) = 0 := by
    rw [toField_numeral_mul, (Quadratic.eq_zero_iff t.y).mp hy, mul_zero]
  have hinverse : Coordinate.inverse (Coordinate.ofBase 2 * t.y) = .error .zeroDegree := by
    rw [(Quadratic.eq_zero_iff _).mpr hden]
    rfl
  unfold double
  rw [if_neg (by exact Bool.false_ne_true), Coordinate.div, hinverse]
  rfl

theorem double_twist (t : Point Quadratic) :
    t.double = if t.isInfinity then .error .zeroDegree else t.add t := by
  split
  · next h => exact double_of_isInfinity h
  · next h => rw [add_self, if_neg h]

end Point

/-! ## Some points of the twist -/

theorem Point.onCurve_make (x₀ x₁ y₀ y₁ : Nat)
    (hre : (prime : Int) ∣ 82 * (2 * y₀ * y₁ - (3 * x₀ ^ 2 * x₁ - x₁ ^ 3)) + 3)
    (him : (prime : Int) ∣ y₀ ^ 2 - y₁ ^ 2 - (x₀ ^ 3 - 3 * x₀ * x₁ ^ 2) +
      9 * (2 * y₀ * y₁ - (3 * x₀ ^ 2 * x₁ - x₁ ^ 3))) :
    (⟨Quadratic.make (Base.ofNat x₀) (Base.ofNat x₁),
      Quadratic.make (Base.ofNat y₀) (Base.ofNat y₁)⟩ : Point Quadratic).onCurve := by
  rw [← ZMod.intCast_zmod_eq_zero_iff_dvd] at hre him
  push_cast at hre him
  refine Point.onCurve_twist_iff.mpr (Or.inr ?_)
  unfold Point.SolvesTwist
  rw [Quadratic.toField_make, Quadratic.toField_make]
  refine mul_right_cancel₀ Dodecic.omega_ne_zero ?_
  rw [add_mul, toField_curve]
  ext
  · simp only [pow_succ, pow_zero, one_mul, QuadraticAlgebra.re_mul, QuadraticAlgebra.im_mul,
      QuadraticAlgebra.re_add, QuadraticAlgebra.omega_re, QuadraticAlgebra.omega_im,
      QuadraticAlgebra.re_ofNat]
    linear_combination -hre
  · simp only [pow_succ, pow_zero, one_mul, QuadraticAlgebra.re_mul, QuadraticAlgebra.im_mul,
      QuadraticAlgebra.im_add, QuadraticAlgebra.omega_re, QuadraticAlgebra.omega_im,
      QuadraticAlgebra.im_ofNat]
    linear_combination him

def pointAtOne : Point Quadratic := ⟨Quadratic.make 1 0, Quadratic.make
  18278151005453108793778860132295291098363647455926340152056652516292830556603
  5912654199736721486680175016176231956195085055698687135131307249486702594212⟩

def pointAtTwo : Point Quadratic := ⟨Quadratic.make 2 0, Quadratic.make
  10993830646704400342460079956282858283368423716262815588736825818221725267450
  19651196284784701048630008112400756208183277717409031481820775712594563219220⟩

def pointAtFour : Point Quadratic := ⟨Quadratic.make
  16860447915893908144745022668869170094024604054612144315750478855813820146550
  18807563779788613928316331866962986488771121879176364591366657151207493717790,
  Quadratic.make 4 0⟩

theorem onCurve_pointAtOne : pointAtOne.onCurve :=
  Point.onCurve_make _ _ _ _ (by decide) (by decide)

theorem onCurve_pointAtTwo : pointAtTwo.onCurve :=
  Point.onCurve_make _ _ _ _ (by decide) (by decide)

theorem onCurve_pointAtFour : pointAtFour.onCurve :=
  Point.onCurve_make _ _ _ _ (by decide) (by decide)

/-! ## Closure -/

theorem Point.add_base {p q : Point Base} (hp : p.onCurve) (hq : q.onCurve) :
    ∃ r, p.add q = .ok r ∧ q.add p = .ok r ∧ r.onCurve := by
  obtain ⟨P, rfl⟩ := Base.exists_point hp
  obtain ⟨Q, rfl⟩ := Base.exists_point hq
  refine ⟨_, Chart.add_point (Base.hasLine P Q), ?_, Base.chart.onCurve_point _⟩
  rw [add_comm]
  exact Chart.add_point (Base.hasLine Q P)

theorem Point.mulBy_base {p : Point Base} (hp : p.onCurve) (n : Nat) :
    ∃ r, p.mulBy n = .ok r ∧ p.repeated n = .ok r ∧ r.onCurve := by
  obtain ⟨P, rfl⟩ := Base.exists_point hp
  exact ⟨_, Chart.mulBy_point Base.hasLine P n, Chart.repeated_point Base.hasLine P n,
    Base.chart.onCurve_point _⟩

theorem Point.mulBy_add_base {p : Point Base} (hp : p.onCurve) (m n : Nat) :
    ∃ r s, p.mulBy m = .ok r ∧ p.mulBy n = .ok s ∧ p.mulBy (m + n) = r.add s := by
  obtain ⟨P, rfl⟩ := Base.exists_point hp
  refine ⟨_, _, Chart.mulBy_point Base.hasLine P m, Chart.mulBy_point Base.hasLine P n, ?_⟩
  rw [Chart.mulBy_point Base.hasLine, Chart.add_point (Base.hasLine _ _), add_nsmul]

theorem Point.double_base (p : Point Base) : p.double = p.add p := by
  rw [Point.add_self]
  split
  · next h =>
    unfold Point.double
    exact if_pos h
  · rfl

/-- Sums of points of the curve are on the curve, doubles are sums, the order does not matter, and
infinity changes nothing. On the twist this holds wherever the slope of the line is found. Where it
is missed, the order matters and the result is off the curve but for two coincidences. The double
of infinity is refused there. -/
theorem sums_of_points (p q : Point Base) (t u : Point Quadratic) (hp : p.onCurve) (hq : q.onCurve)
    (ht : t.onCurve) (hu : u.onCurve) :
    (∃ r, p.add q = .ok r ∧ q.add p = .ok r ∧ r.onCurve) ∧
    (∃ r, p.double = .ok r ∧ p.add p = .ok r ∧ r.onCurve) ∧
    p.add .infinity = .ok p ∧
    (∃ r, t.add u = .ok r ∧
      if t.MissesSlope u then
        r = ⟨-t.x - u.x, -t.y⟩ ∧ (u.add t = .ok r ↔ t = u) ∧
          (r.onCurve ↔ t.x ≠ u.x ∧ (u.y = -t.y ∨ u.x = -t.x - t.x))
      else u.add t = .ok r ∧ r.onCurve) ∧
    t.double = (if t.isInfinity then .error .zeroDegree else t.add t) ∧
    t.add .infinity = .ok t := by
  refine ⟨Point.add_base hp hq, ?_, p.add_infinity, ?_, t.double_twist, t.add_infinity⟩
  · obtain ⟨r, hr, -, hcurve⟩ := Point.add_base hp hp
    exact ⟨r, p.double_base.trans hr, hr, hcurve⟩
  · by_cases h : t.MissesSlope u
    · refine ⟨_, h.add_eq ht, ?_⟩
      rw [if_pos h]
      exact ⟨rfl, h.add_comm_iff hu, h.onCurve_iff ht hu⟩
    · obtain ⟨r, hr, hr', hcurve⟩ := Point.add_of_not_missesSlope ht hu h
      refine ⟨r, hr, ?_⟩
      rw [if_neg h]
      exact ⟨hr', hcurve⟩

theorem sums_of_points_doubled :
    (⟨1, 2⟩ : Point Base).onCurve ∧ (⟨1, -2⟩ : Point Base).onCurve ∧ pointAtOne.onCurve ∧
    (∃ r, (⟨1, 2⟩ : Point Base).add ⟨1, -2⟩ = .ok r ∧ r.onCurve) ∧
    (∃ r, pointAtOne.add pointAtOne = .ok r ∧ r.onCurve) ∧
    pointAtOne.double = pointAtOne.add pointAtOne := by
  have hp : (⟨1, 2⟩ : Point Base).onCurve := by decide
  have hq : (⟨1, -2⟩ : Point Base).onCurve := by decide
  have h := sums_of_points _ _ _ _ hp hq onCurve_pointAtOne onCurve_pointAtOne
  obtain ⟨⟨r, hr, -, hcurve⟩, -, -, ⟨s, hs, hsum⟩, hdouble, -⟩ := h
  rw [if_neg (by decide)] at hsum hdouble
  exact ⟨hp, hq, onCurve_pointAtOne, ⟨r, hr, hcurve⟩, ⟨s, hs, hsum.2⟩, hdouble⟩

/-- On the twist the double of infinity is refused, a sum may depend on the order, and a double may
be off the curve. -/
theorem twist_not_closed :
    (Point.infinity : Point Quadratic).onCurve ∧
    (Point.infinity : Point Quadratic).double = .error .zeroDegree ∧
    pointAtOne.onCurve ∧ pointAtTwo.onCurve ∧
    pointAtTwo.add pointAtOne ≠ pointAtOne.add pointAtTwo ∧
    pointAtFour.onCurve ∧
    pointAtFour.double = .ok ⟨-pointAtFour.x - pointAtFour.x, -pointAtFour.y⟩ ∧
    ¬(⟨-pointAtFour.x - pointAtFour.x, -pointAtFour.y⟩ : Point Quadratic).onCurve := by
  have hchord : pointAtOne.MissesSlope pointAtTwo := by decide
  have htangent : pointAtFour.MissesSlope pointAtFour := by decide
  refine ⟨by decide, Point.double_of_isInfinity (by decide), onCurve_pointAtOne, onCurve_pointAtTwo,
    ?_, onCurve_pointAtFour, ?_, ?_⟩
  · rw [hchord.add_eq onCurve_pointAtOne, Ne, hchord.add_comm_iff onCurve_pointAtTwo]
    decide
  · rw [Point.double_twist, if_neg (by decide), htangent.add_eq onCurve_pointAtFour]
  · rw [htangent.onCurve_iff onCurve_pointAtFour onCurve_pointAtFour]
    exact fun h => h.1 rfl

end ExecutionLayer.AltBn128
