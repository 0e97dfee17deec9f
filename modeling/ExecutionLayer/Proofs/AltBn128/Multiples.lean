import ExecutionLayer.AltBn128.Curve
import ExecutionLayer.Proofs.AltBn128.Quadratic

/-! # Multiples of points

Every point of the twist has multiples: `-3` and the coefficient of the twist are no cubes, so there
is a tangent at each point but infinity. Over the quadratic extension a double may be wrong, where
the slope is divided by an element of the base field; but then the next one can be formed again.
-/
namespace ExecutionLayer.AltBn128
open Base (toZMod)
open Coordinate (inverse curve isNumberZero zero)

theorem two_ne_zero_of_base : (2 : ZMod prime) ≠ 0 := numeral_ne_zero 2 (by decide)

theorem pow_three_add_three_ne_zero (x : ZMod prime) : x ^ 3 + 3 ≠ 0 := by
  intro h
  have hcube := pow_ne_of_mem_nonPowers (c := 3) (q := 3) (by decide) (-x)
  refine hcube ?_
  rw [Nat.cast_ofNat]
  linear_combination -h

theorem tangent_solves {K : Type} [CommRing K] {x y b slope : K} (h : y ^ 2 = x ^ 3 + b)
    (hs : slope * (2 * y) = 3 * (x * x)) :
    (slope * (x - (slope * slope - x - x)) - y) ^ 2 = (slope * slope - x - x) ^ 3 + b := by
  linear_combination h - (3 * x - slope ^ 2) * hs

section Multiples
variable {F : Type} [Coordinate F]

theorem Point.onCurve_of_isInfinity {p : Point F} (h : p.isInfinity) : p.onCurve := by
  rw [Point.onCurve, h, Bool.true_or]

theorem Point.onCurve_of_eq {p : Point F} (h : p.y * p.y - p.x * p.x * p.x - curve = (zero : F)) :
    p.onCurve := by
  rw [Point.onCurve, decide_eq_true h, Bool.or_true]

theorem Point.make_of_onCurve {p : Point F} (h : p.onCurve) : Point.make p.x p.y = .ok p := if_pos h

theorem Point.add_self (p : Point F) : p.add p = if p.isInfinity then .ok p else p.double := by
  unfold Point.add
  cases p.isInfinity with
  | true => rfl
  | false =>
    simp only [Bool.false_eq_true, ↓reduceIte]

theorem Point.double_of_ok {p : Point F} (hn : (isNumberZero p.x && isNumberZero p.y) = false)
    {c slope : F} (hc : inverse (Coordinate.ofBase 2 * p.y) = .ok c)
    (hs : slope = Coordinate.ofBase 3 * (p.x * p.x) * c) :
    p.double = .ok ⟨slope * slope - p.x - p.x,
      slope * (p.x - (slope * slope - p.x - p.x)) - p.y⟩ := by
  unfold Point.double
  rw [if_neg (by rw [hn]; exact Bool.false_ne_true), Coordinate.div, hc, hs]
  rfl

theorem Point.add_of_eq {p q : Point F} (hp : p.isInfinity = false) (hq : q.isInfinity = false)
    (hx : p.x = q.x) : p.add q = if p.y = q.y then p.double else .ok infinity := by
  unfold Point.add
  rw [hp, hq, if_pos hx]
  rfl

theorem Point.add_of_ok {p q : Point F} (hp : p.isInfinity = false) (hq : q.isInfinity = false)
    (hx : p.x ≠ q.x) {c slope : F} (hc : inverse (q.x - p.x) = .ok c)
    (hs : slope = (q.y - p.y) * c) : p.add q = .ok ⟨slope * slope - p.x - q.x,
      slope * (p.x - (slope * slope - p.x - q.x)) - p.y⟩ := by
  unfold Point.add
  rw [hp, hq, if_neg hx, Coordinate.div, hc, hs]
  rfl

theorem Point.add_ok_of_double (hinv : ∀ a b : F, a ≠ b → ∃ c, inverse (b - a) = .ok c)
    {q : Point F} (hq : ∃ r, q.add q = .ok r) (p : Point F) : ∃ r, p.add q = .ok r := by
  unfold Point.add
  by_cases hp : p.isInfinity
  · rw [if_pos hp]
    exact ⟨_, rfl⟩
  rw [if_neg hp]
  by_cases hi : q.isInfinity
  · rw [if_pos hi]
    exact ⟨_, rfl⟩
  rw [if_neg hi]
  by_cases hx : p.x = q.x
  · rw [if_pos hx]
    by_cases hy : p.y = q.y
    · obtain rfl : p = q := by
        cases p
        cases q
        exact congrArg₂ Point.mk hx hy
      rw [if_pos hy]
      rw [Point.add_self, if_neg hp] at hq
      exact hq
    · rw [if_neg hy]
      exact ⟨_, rfl⟩
  · rw [if_neg hx]
    obtain ⟨c, hc⟩ := hinv _ _ hx
    rw [Coordinate.div, hc]
    exact ⟨_, rfl⟩

theorem Point.mulBy_loop_zero (p acc : Point F) : Point.mulBy.loop 0 p acc = .ok acc := by
  rw [Point.mulBy.loop, dif_pos rfl]
  rfl

theorem Point.mulBy_loop_of_ok {n : Nat} (hn : n ≠ 0) {p q acc acc' : Point F}
    (hq : p.add p = .ok q) (hacc : (if n % 2 = 1 then acc.add p else .ok acc) = .ok acc') :
    Point.mulBy.loop n p acc = Point.mulBy.loop (n / 2) q acc' := by
  rw [Point.mulBy.loop, dif_neg hn]
  dsimp only
  split
  · next hodd =>
    rw [if_pos hodd] at hacc
    rw [hacc, hq]
    rfl
  · next heven =>
    rw [if_neg heven] at hacc
    cases hacc
    rw [hq]
    rfl

theorem Point.mulBy_loop_ok (hinv : ∀ a b : F, a ≠ b → ∃ c, inverse (b - a) = .ok c)
    {I : Point F → Prop} (hI : ∀ p, I p → ∃ q, p.add p = .ok q ∧ I q) (n : Nat) :
    ∀ p acc : Point F, I p → ∃ r, Point.mulBy.loop n p acc = .ok r := by
  induction n using Nat.strong_induction_on with
  | _ n ih =>
    intro p acc hp
    by_cases hn : n = 0
    · rw [hn, Point.mulBy_loop_zero]
      exact ⟨_, rfl⟩
    · obtain ⟨q, hq, hIq⟩ := hI p hp
      obtain ⟨s, hs⟩ := Point.add_ok_of_double hinv ⟨q, hq⟩ acc
      have hacc : ∃ t, (if n % 2 = 1 then acc.add p else .ok acc) = .ok t := by
        split
        · exact ⟨s, hs⟩
        · exact ⟨acc, rfl⟩
      obtain ⟨t, ht⟩ := hacc
      rw [Point.mulBy_loop_of_ok hn hq ht]
      exact ih (n / 2) (by omega) q t hIq

end Multiples

section Base
variable {p : Point Base}

def Point.Solves (p : Point Base) : Prop := toZMod p.y ^ 2 = toZMod p.x ^ 3 + 3

theorem Point.onCurve_base_iff : p.onCurve ↔ p.isInfinity ∨ p.Solves := by
  have hcurve : p.y * p.y - p.x * p.x * p.x - (curve : Base) = (zero : Base) ↔ p.Solves := by
    rw [← Base.toZMod_injective.eq_iff]
    change toZMod (p.y * p.y - p.x * p.x * p.x - 3) = toZMod 0 ↔ toZMod p.y ^ 2 = toZMod p.x ^ 3 + 3
    simp only [Base.toZMod_sub, Base.toZMod_mul, Base.toZMod_numeral, Base.toZMod_zero]
    constructor <;> intro h <;> linear_combination h
  unfold Point.onCurve
  rw [Bool.or_eq_true, decide_eq_true_eq, hcurve]

end Base

section Twist
open Quadratic (toField)
variable {q : Point Quadratic}

theorem two_ne_zero_of_field : (2 : QuadraticField) ≠ 0 :=
  fun h => two_ne_zero_of_base (congrArg QuadraticAlgebra.re h)

theorem toField_curve : toField Quadratic.curve * QuadraticAlgebra.omega = 3 := by
  have hmake (m n : Nat) (hre : prime ∣ 82 * n + 3) (him : prime ∣ m + 9 * n) :
      toField (Quadratic.make (Base.ofNat m) (Base.ofNat n)) * QuadraticAlgebra.omega = 3 := by
    rw [← ZMod.natCast_eq_zero_iff] at hre him
    push_cast at hre him
    rw [Quadratic.toField_make]
    ext
    · simp only [QuadraticAlgebra.re_mul, QuadraticAlgebra.omega_re, QuadraticAlgebra.omega_im,
        QuadraticAlgebra.re_ofNat]
      linear_combination -hre
    · simp only [QuadraticAlgebra.im_mul, QuadraticAlgebra.omega_re, QuadraticAlgebra.omega_im,
        QuadraticAlgebra.im_ofNat]
      linear_combination him
  exact hmake _ _ (by decide) (by decide)

theorem pow_three_add_curve_ne_zero (x : QuadraticField) : x ^ 3 + toField Quadratic.curve ≠ 0 := by
  intro h
  have hnorm : x.norm ^ 3 * 82 = 9 := by
    have hcube : x ^ 3 * QuadraticAlgebra.omega = -3 := by
      linear_combination QuadraticAlgebra.omega * h - toField_curve
    have hroot : (QuadraticAlgebra.omega : QuadraticField).norm = 82 := by
      simp [QuadraticAlgebra.norm_def]
    have hthree : (3 : QuadraticField).norm = 9 := by
      have h := QuadraticAlgebra.norm_natCast (R := ZMod prime) (a := -82) (b := 18) 3
      rw [Nat.cast_ofNat] at h
      rw [h]
      norm_num
    have hval := congrArg QuadraticAlgebra.norm hcube
    rwa [map_mul, map_pow, QuadraticAlgebra.norm_neg, hroot, hthree] at hval
  have hcube := pow_ne_of_mem_nonPowers (c := 60516) (q := 3) (by decide) (82 * x.norm)
  refine hcube ?_
  rw [Nat.cast_ofNat]
  linear_combination 6724 * hnorm

theorem Quadratic.inverse_sub_ok (a b : Quadratic) (h : a ≠ b) :
    ∃ c, Coordinate.inverse (b - a) = .ok c := by
  have hne : toField (b - a) ≠ 0 := by
    rw [Quadratic.toField_sub, sub_ne_zero]
    exact fun he => h (Quadratic.toField_injective he).symm
  obtain ⟨c, hc, -⟩ := Quadratic.inverse_ok hne
  exact ⟨c, hc⟩

def Point.SolvesTwist (q : Point Quadratic) : Prop :=
  toField q.y ^ 2 = toField q.x ^ 3 + toField Quadratic.curve

theorem Point.onCurve_twist_iff : q.onCurve ↔ q.isInfinity ∨ q.SolvesTwist := by
  have hzero : toField (zero : Quadratic) = 0 := by
    change toField (Quadratic.ofBase 0) = 0
    rw [Quadratic.toField_ofBase, Base.toZMod_zero, map_zero]
  have hcurve : q.y * q.y - q.x * q.x * q.x - (curve : Quadratic) = (zero : Quadratic) ↔
      q.SolvesTwist := by
    rw [← Quadratic.toField_injective.eq_iff, hzero]
    change toField (q.y * q.y - q.x * q.x * q.x - Quadratic.curve) = 0 ↔ _
    simp only [Quadratic.toField_sub, Quadratic.toField_mul, Point.SolvesTwist]
    constructor <;> intro h <;> linear_combination h
  unfold Point.onCurve
  rw [Bool.or_eq_true, decide_eq_true_eq, hcurve]

def Point.Doubles (q : Point Quadratic) : Prop :=
  q.isInfinity ∨ q.SolvesTwist ∨ (toField q.y).im = 0 ∧ toField q.y ≠ 0

theorem toField_numeral_mul (n : Nat) [n.AtLeastTwo] (a : Quadratic) :
    toField (Coordinate.ofBase (OfNat.ofNat n) * a) = OfNat.ofNat n * toField a := by
  rw [Quadratic.toField_mul]
  change toField (Quadratic.ofBase _) * _ = _
  rw [Quadratic.toField_ofBase, Base.toZMod_numeral, map_ofNat]

theorem Point.double_doubles (h : q.SolvesTwist ∨ (toField q.y).im = 0 ∧ toField q.y ≠ 0) :
    ∃ r, q.double = .ok r ∧ r.Doubles := by
  have hy : toField q.y ≠ 0 := by
    rcases h with hs | hc
    · intro h0
      refine pow_three_add_curve_ne_zero (toField q.x) ?_
      rw [← hs, h0]
      ring
    · exact hc.2
  have hden : toField (Coordinate.ofBase 2 * q.y) = 2 * toField q.y := toField_numeral_mul 2 q.y
  have hne : toField (Coordinate.ofBase 2 * q.y) ≠ 0 := by
    rw [hden]
    exact mul_ne_zero two_ne_zero_of_field hy
  obtain ⟨c, hc, hfield⟩ := Quadratic.inverse_ok hne
  obtain ⟨slope, hs⟩ : ∃ slope : Quadratic, slope = Coordinate.ofBase 3 * (q.x * q.x) * c := ⟨_, rfl⟩
  have hslope : toField slope = 3 * (toField q.x * toField q.x) * toField c := by
    rw [hs, Quadratic.toField_mul, toField_numeral_mul 3, Quadratic.toField_mul]
  have him : (toField (Coordinate.ofBase 2 * q.y)).im = 2 * (toField q.y).im := by
    rw [hden, two_mul, QuadraticAlgebra.im_add, two_mul]
  refine ⟨_, Point.double_of_ok rfl hc hs, Or.inr ?_⟩
  by_cases h0 : (toField q.y).im = 0
  · -- The slope is zero, and so the second coordinate is only reflected.
    rw [if_pos (by rw [him, h0, mul_zero])] at hfield
    have hreflect : toField (slope * (q.x - (slope * slope - q.x - q.x)) - q.y) = -toField q.y := by
      rw [Quadratic.toField_sub, Quadratic.toField_mul, hslope, hfield]
      ring
    refine Or.inr ⟨?_, ?_⟩
    · dsimp only
      rw [hreflect, QuadraticAlgebra.im_neg, h0, neg_zero]
    · dsimp only
      rw [hreflect]
      exact neg_ne_zero.mpr hy
  · have hsolves := h.resolve_right fun hc => h0 hc.1
    rw [if_neg (by rw [him]; exact mul_ne_zero two_ne_zero_of_base h0)] at hfield
    have htangent : toField slope * (2 * toField q.y) = 3 * (toField q.x * toField q.x) := by
      rw [hslope, hfield, ← hden, mul_assoc, inv_mul_cancel₀ hne, mul_one]
    refine Or.inl ?_
    simp only [Point.SolvesTwist, Quadratic.toField_sub, Quadratic.toField_mul]
    exact tangent_solves hsolves htangent

theorem Point.Doubles.add_self_ok (h : q.Doubles) : ∃ r, q.add q = .ok r ∧ r.Doubles := by
  rw [Point.add_self]
  split
  · exact ⟨q, rfl, h⟩
  · next hn => exact Point.double_doubles (h.resolve_left hn)

theorem Point.twistMulBy_ok (h : q.onCurve) (n : Nat) : ∃ r, q.mulBy n = .ok r := by
  refine Point.mulBy_loop_ok Quadratic.inverse_sub_ok (fun _ => Point.Doubles.add_self_ok) n q
    .infinity ?_
  exact (Point.onCurve_twist_iff.mp h).imp id Or.inl

end Twist

end ExecutionLayer.AltBn128
