import ExecutionLayer.Proofs.AltBn128.Projective
import Mathlib.GroupTheory.OrderOfElement
import Mathlib.GroupTheory.Perm.Cycle.Type

/-! # The order of the twist

The order of the twist has five prime divisors, since there are points of these orders. Their
product exceeds the half of all pairs of a first coordinate and a sign, and no point has order two:
so the product is the order.
-/
namespace ExecutionLayer.AltBn128
open Quadratic (toField)

def twistOrder : Nat := order * (2 * prime - order)

structure TorsionPoint where
  order : Nat
  (x y : Pair)

namespace TorsionPoint

def solves (c : TorsionPoint) : Bool := (c.y * c.y - c.x * c.x * c.x) * ⟨0, 1⟩ = ⟨3, 0⟩

/-- Whether the multiple before the last is the opposite of the point. -/
def returns (c : TorsionPoint) : Bool :=
  (c.order - 1) / 2 ^ (c.order - 1).log2 = 1 &&
    match Projective.multiple c.x c.y (c.order - 1).log2 (c.order - 1) with
    | some t => t.x = c.x * (t.z * t.z) && t.y + c.y * (t.z * t.z * t.z) = ⟨0, 0⟩
    | none => false

theorem nonsingular {c : TorsionPoint} (h : c.solves) :
    twistCurve.Nonsingular c.x.toField c.y.toField := by
  have hfield := congrArg Pair.toField (of_decide_eq_true h)
  have homega : Pair.toField ⟨0, 1⟩ = QuadraticAlgebra.omega :=
    QuadraticAlgebra.ext Base.toZMod_zero Base.toZMod_one
  have hthree : Pair.toField ⟨3, 0⟩ = 3 :=
    QuadraticAlgebra.ext (Base.toZMod_numeral 3) Base.toZMod_zero
  simp only [Pair.toField_mul, Pair.toField_sub, homega, hthree] at hfield
  rw [Twist.nonsingular_iff]
  refine mul_right_cancel₀ Dodecic.omega_ne_zero ?_
  linear_combination hfield - toField_curve

theorem nsmul_eq_zero {c : TorsionPoint} (hc : c.solves) (hr : c.returns) (h0 : c.order ≠ 0) :
    c.order • WeierstrassCurve.Affine.Point.some _ _ (nonsingular hc) = 0 := by
  obtain ⟨hlog, hr⟩ := (Bool.and_eq_true _ _).mp hr
  split at hr
  · next t ht =>
    obtain ⟨hx, hy⟩ := (Bool.and_eq_true _ _).mp hr
    have hfx := congrArg Pair.toField (of_decide_eq_true hx)
    have hfy := congrArg Pair.toField (of_decide_eq_true hy)
    simp only [Pair.toField_add, Pair.toField_mul, Pair.toField_zero] at hfx hfy
    obtain ⟨x, y, h, hmultiple, hz, htx, hty⟩ :=
      Projective.isAt_multiple (nonsingular hc) (of_decide_eq_true hlog) ht
    have hxc : x = c.x.toField := by
      refine mul_right_cancel₀ (pow_ne_zero 2 hz) ?_
      linear_combination hfx - htx
    have hyc : y = twistCurve.negY c.x.toField c.y.toField := by
      rw [Twist.negY_eq]
      refine mul_right_cancel₀ (pow_ne_zero 3 hz) ?_
      linear_combination hfy - hty
    have hneg : (c.order - 1) • WeierstrassCurve.Affine.Point.some _ _ (nonsingular hc) =
        -WeierstrassCurve.Affine.Point.some _ _ (nonsingular hc) := by
      rw [hmultiple, WeierstrassCurve.Affine.Point.neg_some,
        WeierstrassCurve.Affine.Point.some.injEq]
      exact ⟨hxc, hyc⟩
    have hsucc : c.order = c.order - 1 + 1 := by omega
    rw [hsucc, succ_nsmul, hneg, neg_add_cancel]
  · cases hr

end TorsionPoint

def torsionPoints : List TorsionPoint := [
  ⟨10069,
    ⟨2018233154884185449353767518204961640402432473951202295584261910441348662785,
      6102698928352281478830620114933288271145235725933561098868784146582937146495⟩,
    ⟨21640915413575808999837139905993631793166636538683480218049357865176983016380,
      11169713577090708631759688821208724071538697496733274202834054025092949957019⟩⟩,
  ⟨5864401,
    ⟨7127292128596466331865265177063952237746483021746496813734058390194518676981,
      5964012844904946914814992842543940101068247941560850845839180072531946031517⟩,
    ⟨17001317311278044937537997361518092636551946478281446087988036114488427852561,
      14364177483700958247979641122289832341592456329705554111934070683620871807388⟩⟩,
  ⟨1875725156269,
    ⟨21463155306886990250047340501640626253161847786700978166827513185537180077595,
      6459933548107909308592989019794364016743391114713114225105785676514463475119⟩,
    ⟨459151115994062151264877887617539963434036845369955078403326640935124486400,
      15104754106306912201902607609773721144849559168468815279898497741299448678135⟩⟩,
  ⟨197620364512881247228717050342013327560683201906968909,
    ⟨1909776234334721346641002324872954940990112468559586868671381917848820190645,
      5475621372980072530161246125364643123914091229896041661745991874456680193029⟩,
    ⟨6300948194179457152718690535887987107962410814046834122080043892061650355465,
      19892618049252678224859845730686474429136780840484470980077929682768685650574⟩⟩,
  ⟨21888242871839275222246405745257275088548364400416034343698204186575808495617,
    ⟨13416813257877561469100836008714978673164152338379784603718702266979664790201,
      7811271976773566315071060501211608563144979540241774502401795312961906408362⟩,
    ⟨11454967426954957276000519668815988456113157427581377328466775746743680083509,
      21050070988958727357312482376217650459945607151302744905089076337931339076871⟩⟩]

theorem torsionPoints_checked : ∀ c ∈ torsionPoints, c.solves ∧ c.returns := by decide +kernel

theorem torsionPoints_prime : ∀ c ∈ torsionPoints, c.order.Prime := by
  have hlisted : ∀ c ∈ torsionPoints,
      c.order ∈ smallPrimes ∨ c.order ∈ certificates.map Certificate.number := by decide
  intro c hc
  rcases hlisted c hc with h | h
  · exact prime_of_mem_smallPrimes _ h
  · exact prime_of_certified h

theorem TorsionPoint.exists_addOrderOf {c : TorsionPoint} (hc : c ∈ torsionPoints) :
    ∃ P : Twist, addOrderOf P = c.order := by
  obtain ⟨hsolves, hreturns⟩ := torsionPoints_checked c hc
  have hprime : Fact c.order.Prime := ⟨torsionPoints_prime c hc⟩
  exact ⟨_, addOrderOf_eq_prime (c.nsmul_eq_zero hsolves hreturns hprime.out.ne_zero)
    (WeierstrassCurve.Affine.Point.some_ne_zero _)⟩

namespace Twist

noncomputable def chosenRoot (x : QuadraticField) : QuadraticField :=
  Classical.epsilon fun y => y ^ 2 = x ^ 3 + toField Quadratic.curve

noncomputable def code : Twist → Option (QuadraticField × Bool)
  | .zero => none
  | .some x y _ => some (x, decide (y = chosenRoot x))

theorem eq_or_eq_neg_chosenRoot {x y : QuadraticField} (h : twistCurve.Nonsingular x y) :
    y = chosenRoot x ∨ y = -chosenRoot x := by
  have hy := nonsingular_iff.mp h
  have hroot : chosenRoot x ^ 2 = x ^ 3 + toField Quadratic.curve :=
    Classical.epsilon_spec (p := fun y => y ^ 2 = x ^ 3 + toField Quadratic.curve) ⟨y, hy⟩
  exact sq_eq_sq_iff_eq_or_eq_neg.mp (hy.trans hroot.symm)

theorem code_injective : Function.Injective code := by
  intro P Q h
  cases P with
  | zero =>
    cases Q with
    | zero => rfl
    | some => cases h
  | some x y hP =>
    cases Q with
    | zero => cases h
    | some x' y' hQ =>
      obtain ⟨hx, hsign⟩ := Prod.mk.inj (Option.some.inj h)
      subst hx
      rw [decide_eq_decide] at hsign
      have hy : y = y' := by
        by_cases hroot : y = chosenRoot x
        · exact hroot.trans (hsign.mp hroot).symm
        · have hroot' := fun h' => hroot (hsign.mpr h')
          exact ((eq_or_eq_neg_chosenRoot hP).resolve_left hroot).trans
            ((eq_or_eq_neg_chosenRoot hQ).resolve_left hroot').symm
      subst hy
      rfl

instance : Finite QuadraticField :=
  Finite.of_equiv _ (QuadraticAlgebra.equivProd (-82 : ZMod prime) 18).symm

instance : Finite Twist := Finite.of_injective code code_injective

theorem card_le : Nat.card Twist ≤ 2 * prime ^ 2 + 1 := by
  have hfield : Nat.card QuadraticField = prime ^ 2 := by
    rw [Nat.card_congr (QuadraticAlgebra.equivProd (-82 : ZMod prime) 18), Nat.card_prod,
      Nat.card_zmod, pow_two]
  have hcodes : Nat.card (Option (QuadraticField × Bool)) = 2 * prime ^ 2 + 1 := by
    rw [Finite.card_option, Nat.card_prod, hfield, Nat.card_eq_fintype_card, Fintype.card_bool,
      mul_comm]
  exact (Nat.card_le_card_of_injective code code_injective).trans_eq hcodes

theorem twistOrder_dvd : twistOrder ∣ Nat.card Twist := by
  have hprod : ∏ q ∈ (torsionPoints.map TorsionPoint.order).toFinset, q = twistOrder := by
    decide
  rw [← hprod]
  refine Finset.prod_primes_dvd _ (fun q hq => ?_) fun q hq => ?_
  · obtain ⟨c, hc, rfl⟩ := List.mem_map.mp (List.mem_toFinset.mp hq)
    exact (torsionPoints_prime c hc).prime
  · obtain ⟨c, hc, rfl⟩ := List.mem_map.mp (List.mem_toFinset.mp hq)
    obtain ⟨P, hP⟩ := TorsionPoint.exists_addOrderOf hc
    rw [← hP]
    exact addOrderOf_dvd_natCard P

theorem not_two_dvd_card : ¬2 ∣ Nat.card Twist := by
  intro h
  obtain ⟨P, hP⟩ := exists_prime_addOrderOf_dvd_card' 2 h
  have hdouble : P + P = 0 := by
    rw [← two_nsmul, ← hP, addOrderOf_nsmul_eq_zero]
  rw [eq_zero_of_add_self hdouble, addOrderOf_zero] at hP
  exact absurd hP (by decide)

theorem card_eq : Nat.card Twist = twistOrder := by
  obtain ⟨m, hm⟩ := twistOrder_dvd
  have hlt : m < 3 := by
    refine Nat.lt_of_mul_lt_mul_left (a := twistOrder) ?_
    rw [← hm]
    exact card_le.trans_lt (by decide)
  have hpos : m ≠ 0 := by
    rintro rfl
    have hcard : 0 < Nat.card Twist := Nat.card_pos
    rw [hm, mul_zero] at hcard
    exact Nat.lt_irrefl 0 hcard
  have hodd : m ≠ 2 := by
    rintro rfl
    exact not_two_dvd_card ⟨twistOrder, hm.trans (mul_comm _ _)⟩
  obtain rfl : m = 1 := by omega
  rw [hm, mul_one]

theorem nsmul_ne_zero {P : Twist} (hP : P ≠ 0) {n : Nat} (hn : Nat.Coprime n twistOrder) :
    n • P ≠ 0 := by
  intro h
  have hdvd := Nat.dvd_gcd (addOrderOf_dvd_of_nsmul_eq_zero h) (card_eq ▸ addOrderOf_dvd_natCard P)
  rw [hn] at hdvd
  exact hP (AddMonoid.addOrderOf_eq_one_iff.mp (Nat.dvd_one.mp hdvd))

end Twist

end ExecutionLayer.AltBn128
