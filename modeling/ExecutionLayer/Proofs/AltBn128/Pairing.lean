import ExecutionLayer.Proofs.AltBn128.Frobenius
import ExecutionLayer.Proofs.AltBn128.TwistOrder

/-! # The pairing is defined

The loop of Miller meets only multiples of its point that are not infinity, as the factors are prime
to the order of the twist. So there are all the lines that it asks for, and the multiple that it ends
with is the one that is expected.
-/
namespace ExecutionLayer.AltBn128
open Base (toZMod)
open Quadratic (toField)
open Dodecic (mono mono_mul mono_sub)

theorem lineWith_ok {F : Type} [Coordinate F] {tangent : Except Fault F} {p q : Point F}
    (htangent : p.x = q.x → p.y = q.y → ∃ slope, tangent = .ok slope)
    (hchord : p.x ≠ q.x → ∃ c, Coordinate.inverse (q.x - p.x) = .ok c) (t : Point F) :
    ∃ f, lineWith tangent p q (.ok t) = .ok f := by
  unfold lineWith
  by_cases hx : p.x = q.x
  · by_cases hy : p.y = q.y
    · obtain ⟨slope, hs⟩ := htangent hx hy
      rw [if_neg (by simp [hy]), if_pos hx, hs]
      exact ⟨_, rfl⟩
    · rw [if_pos (by simp [hx, hy])]
      exact ⟨_, rfl⟩
  · obtain ⟨c, hc⟩ := hchord hx
    rw [if_neg (by simp [hx]), if_neg hx, Coordinate.div, hc]
    exact ⟨_, rfl⟩

namespace Twist

theorem embed_cases (P : Twist) : ∃ x y, embed P = ⟨mono 2 x, mono 3 y⟩ ∧ (y = 0 ↔ P = 0) := by
  cases P with
  | zero => exact ⟨0, 0, infinity_eq, iff_of_true rfl rfl⟩
  | some x y h =>
    exact ⟨x, y, rfl, iff_of_false (y_ne_zero (nonsingular_iff.mp h))
      (WeierstrassCurve.Affine.Point.some_ne_zero h)⟩

theorem line_ok {P Q : Twist} (h : P ≠ 0 ∨ Q ≠ 0) (t : Point Dodecic) :
    ∃ f, line (embed P) (embed Q) t = .ok f := by
  obtain ⟨x₁, y₁, hP, hP0⟩ := embed_cases P
  obtain ⟨x₂, y₂, hQ, hQ0⟩ := embed_cases Q
  rw [hP, hQ]
  refine lineWith_ok (fun _ hy => ?_) (fun hx => ?_) t
  · obtain rfl : y₁ = y₂ := Dodecic.mono_injective 3 hy
    have hne : y₁ ≠ 0 := by
      rcases h with h | h
      · exact fun h0 => h (hP0.mp h0)
      · exact fun h0 => h (hQ0.mp h0)
    obtain ⟨c, hc, -⟩ := tangent_slope (x := x₁) hne
    have htangent : tangent ⟨mono 2 x₁, mono 3 y₁⟩ =
        Except.bind (Coordinate.inverse (Coordinate.ofBase 2 * mono 3 y₁)) fun c =>
          .ok (Coordinate.ofBase 3 * (mono 2 x₁ * mono 2 x₁) * c) := rfl
    rw [htangent, hc]
    exact ⟨_, rfl⟩
  · have hne : x₂ - x₁ ≠ 0 := sub_ne_zero.mpr fun he => hx (congrArg (mono 2) he.symm)
    obtain ⟨c, hc, -⟩ := line_slope (y := 0) hne
    rw [← mono_sub] at hc
    exact ⟨c, hc⟩

end Twist

section Steps
variable {p q r r' r'' : Point Dodecic} {l l' : Dodecic} {i : Nat}

theorem millerSteps_of_false (hl : line r r p = .ok l) (hr : r.double = .ok r')
    (hi : (ateCount - 1).testBit i = false) (f : Dodecic) :
    millerSteps q p (i + 1) r f = millerSteps q p i r' (f * f * l) := by
  rw [millerSteps, except_of_ok hl, except_of_ok hr, if_neg (by rw [hi]; exact Bool.false_ne_true)]

theorem millerSteps_of_true (hl : line r r p = .ok l) (hr : r.double = .ok r')
    (hi : (ateCount - 1).testBit i = true) (hl' : line r' q p = .ok l') (ha : r'.add q = .ok r'')
    (f : Dodecic) : millerSteps q p (i + 1) r f = millerSteps q p i r'' (f * f * l * l') := by
  rw [millerSteps, except_of_ok hl, except_of_ok hr, if_pos hi, except_of_ok hl', except_of_ok ha]

theorem millerLoop_of_ok {q₁ q₂ : Point Dodecic} {f : Dodecic}
    (hinf : (p.isInfinity || q.isInfinity) = false)
    (hsteps : millerSteps q p 64 q (.ofBase 1) = .ok (r, f)) (hr : q.mulBy (ateCount - 1) = .ok r)
    (h₁ : Point.make q.x.frobenius q.y.frobenius = .ok q₁)
    (h₂ : Point.make q₁.x.frobenius (-q₁.y.frobenius) = .ok q₂) (hl : line r q₁ p = .ok l)
    (hr' : r.add q₁ = .ok r') (hl' : line r' q₂ p = .ok l') : millerLoop q p =
      .ok (Coordinate.pow (f * l * l') ((Nat.pow prime 12 - 1) / order)) := by
  have hreq : require (decide (r = r)) .brokenInvariant = .ok () := if_pos (decide_eq_true rfl)
  unfold millerLoop
  rw [if_neg (by rw [hinf]; exact Bool.false_ne_true), except_of_ok hsteps]
  dsimp only
  rw [except_of_ok hr, except_of_ok hreq, except_of_ok h₁, except_of_ok h₂, except_of_ok hl,
    except_of_ok hr', except_of_ok hl']
  rfl

end Steps

namespace Twist

theorem coprime_ateCount : ∀ i ≤ 64, Nat.Coprime ((ateCount - 1) / 2 ^ i) twistOrder := by
  decide

theorem millerSteps_ok {Q : Twist} (hQ : Q ≠ 0) (t : Point Dodecic) :
    ∀ {i : Nat}, i ≤ 64 → ∀ f, ∃ f', millerSteps (embed Q) t i
      (embed (((ateCount - 1) / 2 ^ i) • Q)) f = .ok (embed ((ateCount - 1) • Q), f')
  | 0, _, f => by
    rw [pow_zero, Nat.div_one]
    exact ⟨f, rfl⟩
  | i + 1, hi, f => by
    have hne := nsmul_ne_zero hQ (coprime_ateCount (i + 1) hi)
    obtain ⟨l, hl⟩ := line_ok (Or.inl hne) t
    have hdouble := double_embed hne
    have hdigit : (ateCount - 1) / 2 ^ i = (ateCount - 1) / 2 ^ (i + 1) +
        (ateCount - 1) / 2 ^ (i + 1) + (ateCount - 1) / 2 ^ i % 2 := by
      rw [pow_succ, ← Nat.div_div_eq_div_mul]
      omega
    have hbit : (ateCount - 1).testBit i = decide ((ateCount - 1) / 2 ^ i % 2 = 1) :=
      Nat.testBit_eq_decide_div_mod_eq
    rw [← add_nsmul] at hdouble
    rcases Nat.mod_two_eq_zero_or_one ((ateCount - 1) / 2 ^ i) with h | h
    · rw [h, add_zero] at hdigit
      rw [← hdigit] at hdouble
      rw [millerSteps_of_false hl hdouble (by rw [hbit, h]; rfl)]
      exact millerSteps_ok hQ t (by omega) _
    · rw [h] at hdigit
      obtain ⟨l', hl'⟩ := line_ok (P := ((ateCount - 1) / 2 ^ (i + 1) +
        (ateCount - 1) / 2 ^ (i + 1)) • Q) (Or.inr hQ) t
      have hadd := add_embed (((ateCount - 1) / 2 ^ (i + 1) +
        (ateCount - 1) / 2 ^ (i + 1)) • Q) Q
      rw [← succ_nsmul, ← hdigit] at hadd
      rw [millerSteps_of_true hl hdouble (by rw [hbit, h]; rfl) hl' hadd]
      exact millerSteps_ok hQ t (by omega) _

theorem millerLoop_ok (Q : Twist) (t : Point Dodecic) : ∃ f, millerLoop (embed Q) t = .ok f := by
  cases hinf : t.isInfinity || (embed Q).isInfinity with
  | true =>
    unfold millerLoop
    rw [hinf]
    exact ⟨_, rfl⟩
  | false =>
    have hQ : Q ≠ 0 := by
      rintro rfl
      rw [isInfinity_embed, decide_eq_true rfl, Bool.or_true] at hinf
      cases hinf
    have hQ₁ := conjugate_ne_zero hQ
    have hQ₂ := conjugate_ne_zero hQ₁
    have hfirst : ((ateCount - 1) / 2 ^ 64) • Q = Q := by
      rw [show (ateCount - 1) / 2 ^ 64 = 1 by decide, one_nsmul]
    obtain ⟨f, hsteps⟩ := millerSteps_ok hQ t le_rfl (Dodecic.ofBase 1)
    rw [hfirst] at hsteps
    have hmake₁ := Point.make_of_onCurve (onCurve_embed (conjugate Q))
    have hmake₂ := Point.make_of_onCurve (onCurve_embed (-conjugate (conjugate Q)))
    obtain ⟨hx₁, hy₁⟩ := frobenius_embed hQ
    obtain ⟨hx₂, hy₂⟩ := frobenius_embed hQ₁
    obtain ⟨hx₃, hy₃⟩ := embed_neg hQ₂
    rw [← hx₁, ← hy₁] at hmake₁
    rw [hx₃, hy₃, ← hx₂, ← hy₂] at hmake₂
    obtain ⟨l₁, hl₁⟩ := line_ok (P := (ateCount - 1) • Q) (Or.inr hQ₁) t
    obtain ⟨l₂, hl₂⟩ := line_ok (P := (ateCount - 1) • Q + conjugate Q)
      (Or.inr (neg_ne_zero.mpr hQ₂)) t
    exact ⟨_, millerLoop_of_ok hinf hsteps (mulBy_embed Q _) hmake₁ hmake₂ hl₁ (add_embed _ _) hl₂⟩

end Twist

theorem twist_ok {q : Point Quadratic} (hq : q.onCurve) : ∃ Q : Twist, twist q = .ok Q.embed := by
  have hembed : (⟨q.x.embed * Coordinate.pow Dodecic.root 2,
      q.y.embed * Coordinate.pow Dodecic.root 3⟩ : Point Dodecic) =
        ⟨mono 2 (toField q.x), mono 3 (toField q.y)⟩ := by
    rw [Dodecic.embed_eq, Dodecic.embed_eq, Dodecic.root_eq, Dodecic.pow_mono, Dodecic.pow_mono,
      mono_mul, mono_mul]
    simp only [one_pow, mul_one, zero_add, one_mul]
  have hmake {Q : Twist} (hQ : Q.embed = ⟨mono 2 (toField q.x), mono 3 (toField q.y)⟩) :
      twist q = .ok Q.embed := by
    have hpoint := Point.make_of_onCurve (Twist.onCurve_embed Q)
    rw [hQ, ← hembed] at hpoint
    rw [hQ, ← hembed]
    exact hpoint
  rcases Point.onCurve_twist_iff.mp hq with hinf | hsolves
  · obtain ⟨hx, hy⟩ : q.x = Coordinate.zero ∧ q.y = Coordinate.zero := by
      simpa [Point.isInfinity] using hinf
    have hzero : toField (Coordinate.zero : Quadratic) = 0 := by
      change toField (Quadratic.ofBase 0) = 0
      rw [Quadratic.toField_ofBase, Base.toZMod_zero, map_zero]
    refine ⟨0, hmake ?_⟩
    rw [hx, hy, hzero, Twist.embed_zero, Twist.infinity_eq]
  · exact ⟨.some _ _ (Twist.nonsingular_iff.mpr hsolves), hmake rfl⟩

theorem embedPoint_ok {p : Point Base} (hp : p.onCurve) : ∃ t, embedPoint p = .ok t := by
  refine ⟨_, Point.make_of_onCurve (p := ⟨Dodecic.ofBase p.x, Dodecic.ofBase p.y⟩) ?_⟩
  rcases Point.onCurve_base_iff.mp hp with hinf | hsolves
  · obtain ⟨hx, hy⟩ : p.x = Coordinate.zero ∧ p.y = Coordinate.zero := by
      simpa [Point.isInfinity] using hinf
    rw [hx, hy]
    exact Point.onCurve_of_isInfinity (by decide +kernel)
  · have hzero : toZMod p.y * toZMod p.y - toZMod p.x * toZMod p.x * toZMod p.x - 3 = 0 := by
      have hcurve : toZMod p.y ^ 2 = toZMod p.x ^ 3 + 3 := hsolves
      linear_combination hcurve
    refine Point.onCurve_of_eq ?_
    change Dodecic.ofBase p.y * Dodecic.ofBase p.y -
      Dodecic.ofBase p.x * Dodecic.ofBase p.x * Dodecic.ofBase p.x - Dodecic.ofBase 3 =
        Dodecic.ofBase 0
    rw [Dodecic.ofBase_numeral, Dodecic.ofBase_eq, Dodecic.ofBase_eq, mono_mul, mono_mul, mono_mul,
      mono_sub, mono_sub, ← Dodecic.mono_zero 0, ← map_mul, ← map_mul, ← map_mul, ← map_sub,
      ← map_ofNat (algebraMap (ZMod prime) QuadraticField) 3, ← map_sub, hzero, map_zero]

theorem pairing_ok {q : Point Quadratic} {p : Point Base} (hq : q.onCurve) (hp : p.onCurve) :
    ∃ f, pairing q p = .ok f := by
  obtain ⟨Q, hQ⟩ := twist_ok hq
  obtain ⟨t, ht⟩ := embedPoint_ok hp
  obtain ⟨f, hf⟩ := Twist.millerLoop_ok Q t
  refine ⟨f, ?_⟩
  unfold pairing
  rw [hQ, ht]
  exact hf

end ExecutionLayer.AltBn128
