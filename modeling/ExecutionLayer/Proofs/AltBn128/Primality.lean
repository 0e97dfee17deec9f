import ExecutionLayer.AltBn128.Base
import Mathlib.NumberTheory.LucasPrimality
import Mathlib.Tactic.NormNum.Prime

/-! # Primes

The numbers that the curve and its twist are built on are prime. Each has a certificate for the test
of Lucas: a number whose powers tell that its order is one less. The prime factors of the
predecessor have certificates that come before.
-/
namespace ExecutionLayer

theorem powMod.loop_modEq (m e b acc : Nat) : powMod.loop m e b acc ≡ acc * b ^ e [MOD m] := by
  induction e using Nat.strong_induction_on generalizing b acc with
  | _ e ih =>
    unfold powMod.loop
    by_cases he : e = 0
    · rw [dif_pos he, he, pow_zero, mul_one]
    · rw [dif_neg he]
      have hsquare (k : Nat) : (b * b % m) ^ k ≡ b ^ (2 * k) [MOD m] := by
        rw [pow_mul, sq]
        exact (Nat.mod_modEq _ _).pow k
      have hstep := ih (e / 2) (by omega) (b * b % m) (if e % 2 = 1 then acc * b % m else acc)
      refine hstep.trans ?_
      by_cases hodd : e % 2 = 1
      · have hpow : b ^ e = b * b ^ (2 * (e / 2)) := by
          rw [← pow_succ']
          congr 1
          omega
        rw [if_pos hodd, hpow, ← mul_assoc]
        exact (Nat.mod_modEq _ _).mul (hsquare _)
      · have hpow : b ^ e = b ^ (2 * (e / 2)) := by
          congr 1
          omega
        rw [if_neg hodd, hpow]
        exact (hsquare _).mul_left _

theorem powMod_eq {m : Nat} (hm : 0 < m) (b e : Nat) : powMod b e m = b ^ e % m := by
  have hmod : powMod b e m ≡ b ^ e [MOD m] := by
    refine (powMod.loop_modEq m e (b % m) (1 % m)).trans ?_
    have hpow := ((Nat.mod_modEq 1 m).mul ((Nat.mod_modEq b m).pow e))
    rwa [one_mul] at hpow
  have hlt : powMod b e m < m := powMod_lt hm b e
  rw [← Nat.mod_eq_of_lt hlt]
  exact hmod

theorem cast_powMod {m : Nat} (hm : 0 < m) (b e : Nat) :
    ((powMod b e m : Nat) : ZMod m) = (b : ZMod m) ^ e := by
  rw [powMod_eq hm, ZMod.natCast_mod, Nat.cast_pow]

/-- A number, a witness of its order, and the prime powers of which its predecessor is the
product. -/
structure Certificate where
  number : Nat
  witness : Nat
  factors : List (Nat × Nat)

namespace Certificate

/-- Whether the witness passes the test, given primes that are known. -/
def isValid (known : List Nat) (c : Certificate) : Bool :=
  1 < c.number && c.factors.all (fun f => known.contains f.1) &&
    (c.factors.map fun f => f.1 ^ f.2).prod = c.number - 1 &&
    powMod c.witness (c.number - 1) c.number = 1 &&
    c.factors.all fun f => powMod c.witness ((c.number - 1) / f.1) c.number ≠ 1

def areValid (known : List Nat) : List Certificate → Bool
  | [] => true
  | c :: rest => c.isValid known && areValid (c.number :: known) rest

theorem pow_eq_one_iff {n : Nat} (hn : 1 < n) (a e : Nat) :
    (a : ZMod n) ^ e = 1 ↔ powMod a e n = 1 := by
  rw [powMod_eq (by omega), ← Nat.cast_pow, ← Nat.cast_one, ZMod.natCast_eq_natCast_iff',
    Nat.mod_eq_of_lt hn]

theorem prime_of_isValid {known : List Nat} {c : Certificate} (hk : ∀ q ∈ known, q.Prime)
    (h : c.isValid known = true) : c.number.Prime := by
  simp only [isValid, Bool.and_eq_true, decide_eq_true_eq, List.all_eq_true] at h
  obtain ⟨⟨⟨⟨hn, hfactors⟩, hprod⟩, hone⟩, hne⟩ := h
  refine lucas_primality c.number (c.witness : ZMod c.number)
    ((pow_eq_one_iff hn _ _).mpr hone) fun q hq hd => ?_
  -- A prime that divides the product is one of the factors.
  rw [← hprod, Prime.dvd_prod_iff hq.prime] at hd
  obtain ⟨power, hpower, hdvd⟩ := hd
  obtain ⟨f, hf, rfl⟩ := List.mem_map.mp hpower
  have hprime : f.1.Prime := hk _ (by simpa using hfactors f hf)
  have heq : q = f.1 := (Nat.prime_dvd_prime_iff_eq hq hprime).mp (hq.dvd_of_dvd_pow hdvd)
  rw [heq, Ne, pow_eq_one_iff hn]
  exact hne f hf

theorem prime_of_areValid {known : List Nat} {l : List Certificate} (hk : ∀ q ∈ known, q.Prime)
    (h : areValid known l = true) : ∀ c ∈ l, c.number.Prime := by
  induction l generalizing known with
  | nil => exact fun _ hc => absurd hc List.not_mem_nil
  | cons c rest ih =>
    rw [areValid, Bool.and_eq_true] at h
    have hc := prime_of_isValid hk h.1
    intro c' hc'
    rcases List.mem_cons.mp hc' with rfl | hrest
    · exact hc
    · refine ih (fun q hq => ?_) h.2 c' hrest
      rcases List.mem_cons.mp hq with rfl | hq
      · exact hc
      · exact hk q hq

end Certificate

namespace AltBn128

def smallPrimes : List Nat := [
  2, 3, 5, 7, 11, 13, 17, 19, 23, 29, 37, 41, 43, 59, 61, 67, 73, 83, 89, 107, 109, 149, 157, 181,
  199, 229, 233, 271, 311, 379, 449, 661, 727, 823, 853, 911, 983, 1031, 1231, 1511, 1637, 3359,
  3557, 3691, 4999, 10069, 11003, 13327, 41927, 77339, 93001]

def certificates : List Certificate := [
  ⟨405928799, 22, [(2, 1), (11, 1), (3691, 1), (4999, 1)]⟩,
  ⟨327599, 19, [(2, 1), (19, 1), (37, 1), (233, 1)]⟩,
  ⟨11465965001, 3, [(2, 3), (5, 4), (7, 1), (327599, 1)]⟩,
  ⟨1853641, 17, [(2, 3), (3, 2), (5, 1), (19, 1), (271, 1)]⟩,
  ⟨4562087, 5, [(2, 1), (17, 1), (109, 1), (1231, 1)]⟩,
  ⟨173171039, 13, [(2, 1), (73, 1), (89, 1), (13327, 1)]⟩,
  ⟨1263766531, 10, [(2, 1), (3, 1), (5, 1), (13, 1), (911, 1), (3557, 1)]⟩,
  ⟨35385462869, 2, [(2, 2), (7, 1), (1263766531, 1)]⟩,
  ⟨2480874801745591, 6, [(2, 1), (3, 2), (5, 1), (19, 1), (41, 1), (35385462869, 1)]⟩,
  ⟨13427688667394608761327070753331941386769, 17, [
    (2, 4), (3, 1), (7, 1), (11, 1), (1853641, 1), (4562087, 1), (173171039, 1),
    (2480874801745591, 1)]⟩,
  ⟨21888242871839275222246405745257275088696311157297823662689037894645226208583, 3, [
    (2, 1), (3, 2), (13, 1), (29, 1), (67, 1), (229, 1), (311, 1), (983, 1), (11003, 1),
    (405928799, 1), (11465965001, 1), (13427688667394608761327070753331941386769, 1)]⟩,
  ⟨237073, 15, [(2, 4), (3, 1), (11, 1), (449, 1)]⟩,
  ⟨12048837557, 2, [(2, 2), (7, 2), (661, 1), (93001, 1)]⟩,
  ⟨5156902474397, 2, [(2, 2), (107, 1), (12048837557, 1)]⟩,
  ⟨1670836401704629, 2, [(2, 2), (3, 4), (5156902474397, 1)]⟩,
  ⟨1593227, 2, [(2, 1), (19, 1), (41927, 1)]⟩,
  ⟨639533339, 2, [(2, 1), (229, 1), (853, 1), (1637, 1)]⟩,
  ⟨65865678001877903, 5, [(2, 1), (83, 1), (379, 1), (1637, 1), (639533339, 1)]⟩,
  ⟨13818364434197438864469338081, 3, [
    (2, 5), (5, 1), (823, 1), (1593227, 1), (65865678001877903, 1)]⟩,
  ⟨21888242871839275222246405745257275088548364400416034343698204186575808495617, 5, [
    (2, 28), (3, 2), (13, 1), (29, 1), (983, 1), (11003, 1), (237073, 1), (405928799, 1),
    (1670836401704629, 1), (13818364434197438864469338081, 1)]⟩,
  ⟨5864401, 38, [(2, 4), (3, 4), (5, 2), (181, 1)]⟩,
  ⟨601379, 2, [(2, 1), (199, 1), (1511, 1)]⟩,
  ⟨17367825521, 3, [(2, 4), (5, 1), (19, 2), (601379, 1)]⟩,
  ⟨1875725156269, 2, [(2, 2), (3, 3), (17367825521, 1)]⟩,
  ⟨133769, 3, [(2, 3), (23, 1), (727, 1)]⟩,
  ⟨5835139, 3, [(2, 1), (3, 1), (61, 1), (107, 1), (149, 1)]⟩,
  ⟨758568071, 14, [(2, 1), (5, 1), (13, 1), (5835139, 1)]⟩,
  ⟨1309000310535827101, 2, [(2, 2), (3, 1), (5, 2), (43, 1), (133769, 1), (758568071, 1)]⟩,
  ⟨1233079, 11, [(2, 1), (3, 1), (7, 1), (11, 1), (17, 1), (157, 1)]⟩,
  ⟨268721, 3, [(2, 4), (5, 1), (3359, 1)]⟩,
  ⟨1612327, 5, [(2, 1), (3, 1), (268721, 1)]⟩,
  ⟨677736056450657, 3, [(2, 5), (7, 1), (23, 1), (83, 1), (983, 1), (1612327, 1)]⟩,
  ⟨209661715479349446893, 2, [(2, 2), (77339, 1), (677736056450657, 1)]⟩,
  ⟨3458579658547348475946929, 3, [(2, 4), (1031, 1), (209661715479349446893, 1)]⟩,
  ⟨213235097339095295568608163219551, 31, [
    (2, 1), (5, 2), (1233079, 1), (3458579658547348475946929, 1)]⟩,
  ⟨197620364512881247228717050342013327560683201906968909, 2, [
    (2, 2), (3, 1), (59, 1), (1309000310535827101, 1), (213235097339095295568608163219551, 1)]⟩]

theorem prime_of_mem_smallPrimes : ∀ q ∈ smallPrimes, q.Prime := by
  unfold smallPrimes
  norm_num

theorem prime_of_mem_certificates : ∀ c ∈ certificates, c.number.Prime :=
  Certificate.prime_of_areValid prime_of_mem_smallPrimes (by decide +kernel)

theorem prime_of_certified {n : Nat} (h : n ∈ certificates.map Certificate.number) : n.Prime := by
  obtain ⟨c, hc, rfl⟩ := List.mem_map.mp h
  exact prime_of_mem_certificates c hc

theorem prime_prime : Nat.Prime prime := prime_of_certified (by decide)

instance : Fact (Nat.Prime prime) := ⟨prime_prime⟩

end AltBn128

end ExecutionLayer
