import ExecutionLayer.Proofs.AltBn128.Twist

/-! # Multiples without division

Multiples of given points of the twist are found by calculation, with fractions that have a common
denominator `z`: the point `(x / z², y / z³)` is written as `(x, y, z)`.
-/
namespace ExecutionLayer.AltBn128
open Base (toZMod)

/-- An element of the quadratic field by its coefficients. -/
structure Pair where
  (re im : Base)
deriving DecidableEq

namespace Pair

instance : Add Pair := ⟨fun a b => ⟨a.re + b.re, a.im + b.im⟩⟩

instance : Sub Pair := ⟨fun a b => ⟨a.re - b.re, a.im - b.im⟩⟩

instance : Mul Pair := ⟨fun a b =>
  ⟨a.re * b.re - 82 * (a.im * b.im), a.re * b.im + a.im * b.re + 18 * (a.im * b.im)⟩⟩

def toField (a : Pair) : QuadraticField := ⟨toZMod a.re, toZMod a.im⟩

variable (a b : Pair)

theorem toField_injective : Function.Injective toField := by
  intro a b h
  have hre := Base.toZMod_injective (congrArg QuadraticAlgebra.re h)
  have him := Base.toZMod_injective (congrArg QuadraticAlgebra.im h)
  cases a
  cases b
  exact congrArg₂ mk hre him

@[simp] theorem toField_add : toField (a + b) = toField a + toField b :=
  QuadraticAlgebra.ext (Base.toZMod_add _ _) (Base.toZMod_add _ _)

@[simp] theorem toField_sub : toField (a - b) = toField a - toField b :=
  QuadraticAlgebra.ext (Base.toZMod_sub _ _) (Base.toZMod_sub _ _)

@[simp] theorem toField_mul : toField (a * b) = toField a * toField b := by
  change toField ⟨_, _⟩ = _
  ext
  · simp only [toField, Base.toZMod_sub, Base.toZMod_mul, Base.toZMod_numeral,
      QuadraticAlgebra.re_mul]
    ring
  · simp only [toField, Base.toZMod_add, Base.toZMod_mul, Base.toZMod_numeral,
      QuadraticAlgebra.im_mul]
    ring

theorem toField_zero : toField ⟨0, 0⟩ = 0 :=
  QuadraticAlgebra.ext Base.toZMod_zero Base.toZMod_zero

theorem toField_one : toField ⟨1, 0⟩ = 1 :=
  QuadraticAlgebra.ext Base.toZMod_one Base.toZMod_zero

end Pair

/-- A point by fractions with a common denominator. -/
structure Projective where
  (x y z : Pair)

namespace Projective

def double (t : Projective) : Projective :=
  let square := t.y * t.y
  let twice := t.x * square + t.x * square
  let chord := twice + twice
  let slope := t.x * t.x + t.x * t.x + t.x * t.x
  let x := slope * slope - chord - chord
  let offset := square * square + square * square
  let offset := offset + offset
  ⟨x, slope * (chord - x) - (offset + offset), t.y * t.z + t.y * t.z⟩

/-- The difference of the first coordinates, times the square of the denominator. -/
def width (t : Projective) (u : Pair) : Pair := u * (t.z * t.z) - t.x

def add (t : Projective) (u v : Pair) : Projective :=
  let width := t.width u
  let height := v * (t.z * t.z * t.z) - t.y
  let square := width * width
  let cube := width * square
  let chord := t.x * square
  let x := height * height - cube - chord - chord
  ⟨x, height * (chord - x) - t.y * cube, t.z * width⟩

def IsAt (t : Projective) (P : Twist) : Prop :=
  ∃ x y h, P = .some x y h ∧ t.z.toField ≠ 0 ∧ t.x.toField = x * t.z.toField ^ 2 ∧
    t.y.toField = y * t.z.toField ^ 3

theorem isAt_double {t : Projective} {P : Twist} (h : t.IsAt P) : t.double.IsAt (P + P) := by
  obtain ⟨x, y, hP, rfl, hz, hx, hy⟩ := h
  have hy0 := Twist.y_ne_zero (Twist.nonsingular_iff.mp hP)
  have hne : 2 * y ≠ 0 := mul_ne_zero two_ne_zero_of_field hy0
  obtain ⟨slope, hs⟩ : ∃ slope, slope = 3 * (x * x) / (2 * y) := ⟨_, rfl⟩
  have htangent : slope * (2 * y) = 3 * (x * x) := by
    rw [hs, div_mul_cancel₀ _ hne]
  refine ⟨_, _, _, WeierstrassCurve.Affine.Point.add_self_of_Y_ne (Twist.ne_negY hP), ?_, ?_, ?_⟩
  · have hdenominator : t.double.z.toField = 2 * y * t.z.toField ^ 4 := by
      simp only [double, Pair.toField_add, Pair.toField_mul, hy]
      ring
    rw [hdenominator]
    exact mul_ne_zero hne (pow_ne_zero 4 hz)
  · rw [Twist.slope_self hP, ← hs, Twist.addX_eq]
    simp only [double, Pair.toField_add, Pair.toField_sub, Pair.toField_mul, hx, hy]
    linear_combination (-(slope * (2 * y) + 3 * (x * x)) * t.z.toField ^ 8) * htangent
  · rw [Twist.slope_self hP, ← hs, Twist.addY_eq]
    simp only [double, Pair.toField_add, Pair.toField_sub, Pair.toField_mul, hx, hy]
    linear_combination (-t.z.toField ^ 12 * (12 * x * y ^ 2 - ((3 * (x * x)) ^ 2 +
      3 * (x * x) * (slope * (2 * y)) + (slope * (2 * y)) ^ 2))) * htangent

theorem isAt_add {t : Projective} {P : Twist} (h : t.IsAt P) {u v : Pair}
    (hQ : twistCurve.Nonsingular u.toField v.toField) (hne : t.width u ≠ ⟨0, 0⟩) :
    (t.add u v).IsAt (P + .some _ _ hQ) := by
  obtain ⟨x, y, hP, rfl, hz, hx, hy⟩ := h
  have hwidth : (t.width u).toField = (u.toField - x) * t.z.toField ^ 2 := by
    simp only [width, Pair.toField_sub, Pair.toField_mul, hx]
    ring
  have hwidth0 : (t.width u).toField ≠ 0 := by
    rw [← Pair.toField_zero]
    exact fun h => hne (Pair.toField_injective h)
  have hd : u.toField - x ≠ 0 := by
    intro h0
    rw [hwidth, h0, zero_mul] at hwidth0
    exact hwidth0 rfl
  have hxu : x ≠ u.toField := fun h => hd (sub_eq_zero.mpr h.symm)
  obtain ⟨slope, hs⟩ : ∃ slope, slope = (v.toField - y) / (u.toField - x) := ⟨_, rfl⟩
  have hchord : slope * (u.toField - x) = v.toField - y := by
    rw [hs, div_mul_cancel₀ _ hd]
  refine ⟨_, _, _, WeierstrassCurve.Affine.Point.add_of_X_ne hxu, ?_, ?_, ?_⟩
  · have hdenominator : (t.add u v).z.toField = t.z.toField * (t.width u).toField :=
      Pair.toField_mul _ _
    rw [hdenominator]
    exact mul_ne_zero hz hwidth0
  · rw [Twist.slope_of_ne hxu, ← hs, Twist.addX_eq]
    simp only [add, Pair.toField_sub, Pair.toField_mul, hwidth, hx, hy]
    linear_combination (-t.z.toField ^ 6 * (slope * (u.toField - x) + (v.toField - y))) * hchord
  · rw [Twist.slope_of_ne hxu, ← hs, Twist.addY_eq]
    simp only [add, Pair.toField_sub, Pair.toField_mul, hwidth, hx, hy]
    linear_combination (-t.z.toField ^ 9 * (3 * x * (u.toField - x) ^ 2 + (u.toField - x) ^ 3 -
      ((v.toField - y) ^ 2 + (v.toField - y) * (slope * (u.toField - x)) +
        (slope * (u.toField - x)) ^ 2))) * hchord

/-- The multiple with a number that has the given number of binary digits after the first. The last
digit is taken last. -/
def multiple (u v : Pair) : Nat → Nat → Option Projective
  | 0, _ => some ⟨u, v, ⟨1, 0⟩⟩
  | digits + 1, n =>
    match multiple u v digits (n / 2) with
    | none => none
    | some t =>
      if n % 2 = 0 then some t.double
      else if t.double.width u = ⟨0, 0⟩ then none else some (t.double.add u v)

theorem isAt_multiple {u v : Pair} (hP : twistCurve.Nonsingular u.toField v.toField) :
    ∀ {digits n : Nat} {t : Projective}, n / 2 ^ digits = 1 → multiple u v digits n = some t →
      t.IsAt (n • WeierstrassCurve.Affine.Point.some _ _ hP)
  | 0, n, t, hn, h => by
    obtain rfl : n = 1 := by simpa using hn
    cases h
    rw [one_nsmul]
    refine ⟨_, _, hP, rfl, ?_, ?_, ?_⟩
    · rw [Pair.toField_one]
      exact one_ne_zero
    · rw [Pair.toField_one, one_pow, mul_one]
    · rw [Pair.toField_one, one_pow, mul_one]
  | digits + 1, n, t, hn, h => by
    rw [pow_succ', ← Nat.div_div_eq_div_mul] at hn
    rw [multiple] at h
    split at h
    · cases h
    · next t' ht' =>
      have hdouble := isAt_double (isAt_multiple hP hn ht')
      rw [← add_nsmul, ← two_mul] at hdouble
      have hdigit := Nat.div_add_mod n 2
      split at h
      · next heven =>
        cases h
        rw [heven, add_zero] at hdigit
        rwa [hdigit] at hdouble
      · next hodd =>
        split at h
        · cases h
        · next hne =>
          cases h
          have hsum := isAt_add hdouble hP hne
          rw [← succ_nsmul] at hsum
          rw [Nat.mod_two_ne_zero.mp hodd] at hdigit
          rwa [hdigit] at hsum

end Projective

end ExecutionLayer.AltBn128
