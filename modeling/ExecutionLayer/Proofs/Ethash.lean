import ExecutionLayer.Ethash
import ExecutionLayer.Proofs.Evm.Memory
import ExecutionLayer.Proofs.Sequence
import Mathlib.NumberTheory.Bertrand
import Mathlib.Order.Bounds.Basic

/-! # Stores and their evaluation

The number of units of a store is the greatest prime below a bound that grows with the epoch: the
search only goes through odd numbers, and there is a prime between the bound and its half.

An evaluation succeeds as long as the rows of the dataset are counted in 32 bits, and it makes no
difference whether the items are computed when they are needed or before.
-/
namespace ExecutionLayer

/-! ## Loops that succeed -/

section Loops
variable {ε α β : Type} {P : β → Prop}

theorem foldlM_total {f : β → α → Except ε β} (hf : ∀ b a, P b → ∃ b', f b a = .ok b' ∧ P b')
    (l : List α) {b : β} (hb : P b) : ∃ b', l.foldlM f b = .ok b' ∧ P b' := by
  induction l generalizing b with
  | nil => exact ⟨b, rfl, hb⟩
  | cons a l ih =>
    obtain ⟨b', ha, hb'⟩ := hf b a hb
    rw [List.foldlM_cons, except_of_ok ha]
    exact ih hb'

theorem mapM_total {f : α → Except ε β} {l : List α} (hf : ∀ a ∈ l, ∃ b, f a = .ok b ∧ P b) :
    ∃ l', l.mapM f = .ok l' ∧ l.Forall₂ (fun a b => f a = .ok b ∧ P b) l' := by
  induction l with
  | nil => exact ⟨[], rfl, .nil⟩
  | cons a l ih =>
    obtain ⟨b, ha, hb⟩ := hf a List.mem_cons_self
    obtain ⟨l', hl, hl'⟩ := ih fun a' ha' => hf a' (List.mem_cons_of_mem a ha')
    refine ⟨b :: l', ?_, .cons ⟨ha, hb⟩ hl'⟩
    rw [List.mapM_cons, except_of_ok ha, except_of_ok hl]
    rfl

end Loops

namespace Numeric

/-! ## Primality by trial division -/

theorem noDivisorFrom_iff {n x : Nat} (hx : 0 < x) :
    noDivisorFrom n x = true ↔ ∀ m, x ≤ m → m * m ≤ n → ¬m ∣ n := by
  fun_induction noDivisorFrom n x with
  | case1 x h hmod =>
    simp only [Bool.false_eq_true, false_iff, not_forall]
    exact ⟨x, le_rfl, h.1, not_not.mpr (Nat.dvd_of_mod_eq_zero hmod)⟩
  | case2 x h hmod ih =>
    rw [ih x.succ_pos]
    refine ⟨fun hall m hm hsquare hdvd => ?_, fun hall m hm => hall m (Nat.le_of_succ_le hm)⟩
    rcases Nat.eq_or_lt_of_le hm with rfl | hlt
    · exact hmod (Nat.mod_eq_zero_of_dvd hdvd)
    · exact hall m hlt hsquare hdvd
  | case3 x h =>
    simp only [true_iff]
    intro m hm hsquare
    exact absurd ⟨(Nat.mul_le_mul hm hm).trans hsquare, hx⟩ h

theorem isPrime_iff {n : Nat} : isPrime n = true ↔ n.Prime := by
  simp only [isPrime, Bool.and_eq_true, decide_eq_true_eq, noDivisorFrom_iff Nat.two_pos,
    Nat.prime_def_le_sqrt, Nat.le_sqrt]
  rfl

/-! ## Sequences of words -/

theorem length_ofBytesLittle (b : Bytes) : (ofBytesLittle b).length = (b.size + 3) / 4 := by
  rw [ofBytesLittle, List.length_map, List.length_range]

theorem lt_of_mem_ofBytesLittle {b : Bytes} {word : Nat} (h : word ∈ ofBytesLittle b) :
    word < 2 ^ 32 := by
  obtain ⟨i, -, rfl⟩ := List.mem_map.mp h
  have hsize : (b.extract (4 * i) (4 * i + 4)).size ≤ 4 := by
    rw [ByteArray.size_extract]
    omega
  exact (Bytes.toNatLittle_lt _).trans_le (Nat.pow_le_pow_right (by decide) hsize)

theorem size_toBytesLittle (words : List Nat) : (toBytesLittle words).size = 4 * words.length := by
  rw [toBytesLittle, Bytes.size_foldl_ofNatLittle]
  exact Nat.zero_add _

end Numeric

namespace Ethash

/-! ## Sizes of stores -/

/-- From an odd number of units on, the search goes through the odd numbers, of which the last one is
three. -/
theorem primeSize_eq {unit : Nat} (hunit : 0 < unit) (n : Nat) (hodd : n % 2 = 1) (hthree : 3 ≤ n) :
    ∃ p, primeSize unit (2 * unit) (n * unit) = .ok (p * unit) ∧
      IsGreatest {p | p.Prime ∧ p ≤ n} p := by
  induction n using Nat.strong_induction_on with
  | _ n ih =>
    rw [primeSize, if_neg hunit.ne', Nat.mul_div_cancel n hunit]
    by_cases hprime : n.Prime
    · rw [if_pos (Numeric.isPrime_iff.mpr hprime)]
      exact ⟨n, rfl, ⟨hprime, le_rfl⟩, fun q hq => hq.2⟩
    · have hne : n ≠ 3 := fun h => hprime (h ▸ Nat.prime_three)
      have hle : 2 * unit ≤ n * unit := Nat.mul_le_mul_right unit (by omega)
      obtain ⟨p, hp, hmem, hmax⟩ := ih (n - 2) (by omega) (by omega) (by omega)
      rw [if_neg (Numeric.isPrime_iff.not.mpr hprime), dif_pos ⟨by omega, hle⟩, ← Nat.sub_mul]
      refine ⟨p, hp, ⟨hmem.1, hmem.2.trans (n.sub_le 2)⟩, fun q hq => hmax ⟨hq.1, ?_⟩⟩
      -- Neither the number itself is prime nor the even one before it.
      have heven : q ≠ n - 1 := by
        rintro rfl
        have := (hq.1.eq_two_or_odd).resolve_left (by omega)
        omega
      have hself : q ≠ n := fun h => hprime (h ▸ hq.1)
      have := hq.2
      omega

theorem epoch_eq (number : Nat) : epoch {} number = .ok (number / 30000) := rfl

theorem storeSize_eq (initial growth unit : Nat) (hunit : 0 < unit) (hinitial : 2 ≤ initial)
    (number : Nat) : ∃ p, storeSize {} ((2 * initial * unit : Nat) : Int)
      ((2 * growth * unit : Nat) : Int) unit number = .ok (p * unit) ∧
        IsGreatest {p | p.Prime ∧ p < 2 * (initial + growth * (number / 30000))} p := by
  have hsize : 2 * initial * unit + 2 * growth * unit * (number / 30000) - unit =
      (2 * (initial + growth * (number / 30000)) - 1) * unit := by
    rw [Nat.sub_mul, Nat.one_mul]
    congr 1
    ring
  have hlarge : unit ≤ 2 * initial * unit + 2 * growth * unit * (number / 30000) := by
    have h : 1 * unit ≤ 2 * initial * unit := Nat.mul_le_mul_right unit (by omega)
    omega
  obtain ⟨p, hp, hgreatest⟩ := primeSize_eq hunit
    (2 * (initial + growth * (number / 30000)) - 1) (by omega) (by omega)
  refine ⟨p, ?_, ?_⟩
  · rw [storeSize, except_of_ok (epoch_eq number)]
    simp only [Int.toNat_natCast, require, Int.natCast_nonneg, decide_true, Bool.and_self, hlarge,
      ↓reduceIte]
    rw [← hp, ← hsize]
    rfl
  · convert hgreatest using 4
    omega

theorem cacheSize_eq (number : Nat) : ∃ p, cacheSize {} number = .ok (p * 64) ∧
    IsGreatest {p | p.Prime ∧ p < 2 * (131072 + 1024 * (number / 30000))} p :=
  storeSize_eq 131072 1024 64 (by decide) (by decide) number

theorem datasetSize_eq (number : Nat) : ∃ p, datasetSize {} number = .ok (p * 128) ∧
    IsGreatest {p | p.Prime ∧ p < 2 * (4194304 + 32768 * (number / 30000))} p :=
  storeSize_eq 4194304 32768 128 (by decide) (by decide) number

theorem lt_of_isGreatest {m p : Nat} (hm : 1 < m) (h : IsGreatest {p | p.Prime ∧ p < 2 * m} p) :
    m < p := by
  obtain ⟨q, hq, hlt, hle⟩ := Nat.exists_prime_lt_and_le_two_mul m (by omega)
  have hne : q ≠ 2 * m := by
    rintro rfl
    exact Nat.not_prime_mul (by decide) hm.ne' hq
  exact hlt.trans_le (h.2 ⟨hq, by omega⟩)

/-- All blocks of an epoch have stores of the same sizes, which are the greatest prime numbers of units
below what grows with the epoch. -/
theorem sizes_greatest_primes (e : Nat) : ∃ c d,
    IsGreatest {p | p.Prime ∧ p < (2 ^ 24 + 2 ^ 17 * e) / 64} c ∧
    IsGreatest {p | p.Prime ∧ p < (2 ^ 30 + 2 ^ 23 * e) / 128} d ∧
    ∀ number, epoch {} number = .ok e →
      cacheSize {} number = .ok (64 * c) ∧ datasetSize {} number = .ok (128 * d) := by
  have hcache : (2 ^ 24 + 2 ^ 17 * e) / 64 = 2 * (131072 + 1024 * e) := by omega
  have hdataset : (2 ^ 30 + 2 ^ 23 * e) / 128 = 2 * (4194304 + 32768 * e) := by omega
  have hfirst : 30000 * e / 30000 = e := Nat.mul_div_cancel_left e (by decide)
  obtain ⟨c, -, hc⟩ := cacheSize_eq (30000 * e)
  obtain ⟨d, -, hd⟩ := datasetSize_eq (30000 * e)
  rw [hfirst] at hc hd
  rw [hcache, hdataset]
  refine ⟨c, d, hc, hd, fun number hnumber => ?_⟩
  obtain rfl : number / 30000 = e := Except.ok.inj hnumber
  obtain ⟨c', hsize, hc'⟩ := cacheSize_eq number
  obtain ⟨d', hsize', hd'⟩ := datasetSize_eq number
  rw [hsize, hsize', hc'.unique hc, hd'.unique hd, Nat.mul_comm c, Nat.mul_comm d]
  exact ⟨rfl, rfl⟩

theorem isGreatest_of_forall {m p : Nat} (hp : p.Prime) (hlt : p < m)
    (hnone : ∀ q < m, p < q → ¬q.Prime) : IsGreatest {p | p.Prime ∧ p < m} p :=
  ⟨⟨hp, hlt⟩, fun q hq => Nat.le_of_not_lt fun hpq => hnone q hq.2 hpq hq.1⟩

theorem isGreatest_datasetUnits : IsGreatest {p | p.Prime ∧ p < 8388608} 8388593 := by
  refine isGreatest_of_forall (by norm_num) (by decide) fun q hq hlt => ?_
  interval_cases q <;> norm_num

/-- The sizes in the last block of the first epoch. -/
theorem sizes_greatest_primes_first : epoch {} 29999 = .ok 0 ∧
    cacheSize {} 29999 = .ok 16776896 ∧ datasetSize {} 29999 = .ok 1073739904 := by
  obtain ⟨c, d, hc, hd, hsizes⟩ := sizes_greatest_primes 0
  have hcache : IsGreatest {p | p.Prime ∧ p < 262144} 262139 := by
    refine isGreatest_of_forall (by norm_num) (by decide) fun q hq hlt => ?_
    interval_cases q <;> norm_num
  cases hc.unique hcache
  cases hd.unique isGreatest_datasetUnits
  exact ⟨rfl, hsizes 29999 rfl⟩

/-! ## The cache -/

structure Hashing.Sized (hashing : Hashing) : Prop where
  short : ∀ b, (hashing.short b).size = 32
  long : ∀ b, (hashing.long b).size = 64

theorem size_pushLane (b : Bytes) (x : UInt64) : (Keccak.pushLane b x).size = b.size + 8 := by
  simp only [Keccak.pushLane, ByteArray.size_push]

theorem keccak_sized : keccak.Sized where
  short b := by
    simp only [keccak, keccak256Bytes, List.foldl_cons, List.foldl_nil, size_pushLane]
    rfl
  long b := by
    simp only [keccak, keccak512, List.foldl_cons, List.foldl_nil, size_pushLane]
    rfl

theorem checkedMod32_ok {b : Nat} (hpos : 0 < b) (hb : b < 2 ^ 32) (a : Nat) :
    checkedMod32 a b = .ok (a % b) := by
  have hrequire : require (b < Nat.pow 2 32) .overflow = .ok () := if_pos (decide_eq_true hb)
  exact (except_of_ok hrequire _).trans (if_neg hpos.ne')

theorem lt_of_checkedMod32 {a b r : Nat} (h : checkedMod32 a b = .ok r) : r < b := by
  obtain ⟨_, -, h⟩ := of_except_ok h
  unfold checkedMod at h
  split at h
  · cases h
  · next hne => exact Except.ok.inj h ▸ Nat.mod_lt a (Nat.pos_of_ne_zero hne)

structure AreDigests (length : Nat) (entries : Array Bytes) : Prop where
  size : entries.size = length
  digest : ∀ e ∈ entries, e.size = 64

section Evaluation
variable {rows : Array Row} {hashing : Hashing} (hh : hashing.Sized)
include hh

theorem words_of_long (b : Bytes) : (Numeric.ofBytesLittle (hashing.long b)).length = 16 := by
  rw [Numeric.length_ofBytesLittle, hh.long]

theorem chain_digests (seed : Bytes) {length : Nat} (hpos : 0 < length) :
    AreDigests length (chain hashing seed length) := by
  have hfold (l : List Nat) (n : Nat) (entries : Array Bytes) (last : Bytes)
      (h : AreDigests n entries) :
      AreDigests (n + l.length) (l.foldl (fun (state : Array Bytes × Bytes) _ =>
        let next := hashing.long state.2
        (state.1.push next, next)) (entries, last)).1 := by
    induction l generalizing n entries last with
    | nil => exact h
    | cons _ l ih =>
      rw [List.length_cons, Nat.add_comm l.length, ← Nat.add_assoc]
      refine ih _ _ _ ⟨?_, fun e he => ?_⟩
      · rw [Array.size_push, h.size]
      · rcases Array.mem_push.mp he with he | rfl
        · exact h.digest e he
        · exact hh.long _
  have hall := hfold (List.range (length - 1)) 1 (Array.singleton (hashing.long seed))
    (hashing.long seed) ⟨rfl, fun e he => by rw [Array.mem_singleton.mp he, hh.long]⟩
  rwa [List.length_range, Nat.add_sub_cancel' hpos] at hall

theorem mixEntry_total {length : Nat} (hpos : 0 < length) (hlength : length < 2 ^ 32)
    (entries : Array Bytes) (i : Nat) (h : AreDigests length entries) :
    ∃ entries', mixEntry hashing length entries i = .ok entries' ∧ AreDigests length entries' := by
  unfold mixEntry
  dsimp only
  rw [except_of_ok (checkedMod32_ok hpos hlength _)]
  refine ⟨_, rfl, ?_, fun e he => ?_⟩
  · rw [Array.size_setIfInBounds, h.size]
  · rcases Array.mem_or_eq_of_mem_setIfInBounds he with he | rfl
    · exact h.digest e he
    · exact hh.long _

/-- There are rows, though no more than can be counted in 32 bits, and each of them has sixteen
numbers. -/
structure AreRows (rows : Array Row) : Prop where
  pos : 0 < rows.size
  size : rows.size < 2 ^ 32
  length : ∀ row ∈ rows, row.length = 16

theorem cache_total (number : Nat) (hn : number / 30000 < 2 ^ 20) :
    ∃ rows, cache {} hashing number = .ok rows ∧ AreRows rows := by
  obtain ⟨p, hp, ⟨hprime, hlt⟩, -⟩ := cacheSize_eq number
  have hsmall : p < 2 ^ 32 := by omega
  have hseed : seed {} hashing number =
      .ok ((number / 30000).repeat hashing.short (Bytes.zeros 32)) := rfl
  have hlength : checkedDiv (p * 64) ({} : Parameters).hashBytes = .ok p :=
    congrArg Except.ok (Nat.mul_div_cancel p (by decide))
  obtain ⟨entries, hentries, h⟩ := foldlM_total
    (f := fun entries _ => (List.range p).foldlM (mixEntry hashing p) entries)
    (fun _ _ h => foldlM_total (mixEntry_total hh hprime.pos hsmall) _ h)
    (List.range ({} : Parameters).cacheRounds.toNat)
    (chain_digests hh ((number / 30000).repeat hashing.short (Bytes.zeros 32)) hprime.pos)
  rw [cache, except_of_ok hseed, except_of_ok hp, except_of_ok hlength, except_of_ok hentries]
  have hsize : (entries.map Numeric.ofBytesLittle).size = p := by rw [Array.size_map, h.size]
  refine ⟨_, rfl, hsize ▸ hprime.pos, hsize ▸ hsmall, fun row hrow => ?_⟩
  obtain ⟨e, he, rfl⟩ := Array.mem_map.mp hrow
  rw [Numeric.length_ofBytesLittle, h.digest e he]

/-! ## Items of the dataset -/

omit hh in
theorem fnvHash_total {mix data : Row} (h : mix.length ≤ data.length) :
    ∃ row, fnvHash mix data = .ok row ∧ row.length = mix.length := by
  refine ⟨_, if_neg (Nat.not_lt.mpr h), ?_⟩
  rw [List.length_zipWith]
  exact Nat.min_eq_left h

omit hh in
theorem AreRows.length_getD (h : AreRows rows) (i : Nat) :
    (rows.getD (i % rows.size) []).length = 16 := by
  have hi : i % rows.size < rows.size := Nat.mod_lt _ h.pos
  rw [Array.getD_eq_getD_getElem?, Array.getElem?_eq_getElem hi]
  exact h.length _ (Array.getElem_mem hi)

omit hh in
theorem mixParent_total (h : AreRows rows) (index : Nat) (mix : Row) (j : Nat)
    (hmix : mix.length = 16) : ∃ row, mixParent rows index mix j = .ok row ∧ row.length = 16 := by
  have hj : j % 16 < mix.length := by omega
  unfold mixParent
  rw [List.getElem?_eq_getElem hj]
  dsimp only
  rw [except_of_ok (checkedMod32_ok h.pos h.size _)]
  obtain ⟨row, hrow, hlength⟩ :=
    fnvHash_total (hmix.le.trans (h.length_getD (fnv (index ^^^ j) mix[j % 16])).ge)
  exact ⟨row, hrow, hlength.trans hmix⟩

omit hh in
theorem byteLength_xor_le {a b k m : Nat} (ha : a < 256 ^ k) (hb : b < 2 ^ m) (hm : m ≤ 8 * k) :
    byteLength (a ^^^ b) ≤ k := by
  have ha' : a < 2 ^ (8 * k) := by
    rw [Nat.pow_mul]
    exact ha
  have hlt := Nat.xor_lt_two_pow ha' (hb.trans_le (Nat.pow_le_pow_right Nat.two_pos hm))
  unfold byteLength bitLength
  split
  · omega
  · next hn =>
    have hlog := (Nat.log2_lt hn).mpr hlt
    omega

theorem datasetItem_total (h : AreRows rows) {index : Nat} (hindex : index < 2 ^ 34) :
    ∃ item, datasetItem {} hashing rows index = .ok item ∧ item.size = 64 := by
  have hmod : checkedMod index rows.size = .ok (index % rows.size) := if_neg h.pos.ne'
  have hstart : ∃ start, Integer.toBytesLittle ({} : Parameters).hashBytes
      (Numeric.ofDigits32 (rows.getD (index % rows.size) []) ^^^ index) = .ok start := by
    have hdigits := Bytes.toNatLittle_lt (Numeric.toBytesLittle (rows.getD (index % rows.size) []))
    rw [Numeric.size_toBytesLittle, h.length_getD] at hdigits
    have hlength := byteLength_xor_le hdigits hindex (by decide)
    have hsize : Capacity.size ({} : Parameters).hashBytes = .ok 64 := rfl
    rw [Integer.toBytesLittle, except_of_ok hsize]
    simp only [require, Numeric.ofDigits32, hlength, decide_true, ↓reduceIte]
    exact ⟨_, rfl⟩
  obtain ⟨start, hstart⟩ := hstart
  obtain ⟨mix, hmix, hlength⟩ := foldlM_total (P := fun mix => mix.length = 16)
    (fun mix j hm => mixParent_total h index mix j hm)
    (List.range ({} : Parameters).datasetParents.toNat) (words_of_long hh start)
  have hsize : (Numeric.toBytesLittle mix).size = 64 := by
    rw [Numeric.size_toBytesLittle, hlength]
  rw [datasetItem, except_of_ok hmod, except_of_ok hstart, except_of_ok hmix]
  simp only [require, hsize, decide_true, ↓reduceIte]
  exact ⟨_, rfl, hh.long _⟩

def fetchLight (hashing : Hashing) (rows : Array Row) (index : Nat) : Except Fault Row := do
  return Numeric.ofBytesLittle (← datasetItem {} hashing rows index)

def fetchFull (items : List Bytes) (index : Nat) : Except Fault Row :=
  match items[index]? with
  | some item => .ok (Numeric.ofBytesLittle item)
  | none => .error .indexOutOfRange

def Fetches (fetch : Nat → Except Fault Row) (limit : Nat) : Prop :=
  ∀ index < limit, ∃ row, fetch index = .ok row ∧ row.length = 16

theorem fetchLight_fetches (h : AreRows rows) (limit : Nat)
    (hlimit : limit ≤ 2 ^ 34) : Fetches (fetchLight hashing rows) limit := by
  intro index hindex
  obtain ⟨item, hitem, hsize⟩ := datasetItem_total hh h (hindex.trans_le hlimit)
  exact ⟨_, except_of_ok hitem _, by rw [Numeric.length_ofBytesLittle, hsize]⟩

theorem dataset_total {number size : Nat} (hsize : datasetSize {} number = .ok size)
    (hrows : cache {} hashing number = .ok rows) (h : AreRows rows) (hlimit : size / 64 ≤ 2 ^ 34) :
    ∃ items, dataset {} hashing number = .ok items ∧ items.length = size / 64 ∧
      (∀ item ∈ items, item.size = 64) ∧
      ∀ index < size / 64, fetchFull items index = fetchLight hashing rows index := by
  have hlength : checkedDiv size ({} : Parameters).hashBytes = .ok (size / 64) := rfl
  obtain ⟨items, hitems, hall⟩ := mapM_total (P := fun item : Bytes => item.size = 64) fun index hindex =>
    datasetItem_total hh h ((List.mem_range.mp hindex).trans_le hlimit)
  rw [dataset, except_of_ok hsize, except_of_ok hrows, except_of_ok hlength]
  have hlen : items.length = size / 64 := by rw [← hall.length_eq, List.length_range]
  refine ⟨items, hitems, hlen, fun item hitem => ?_, fun index hindex => ?_⟩
  · obtain ⟨k, hk, rfl⟩ := List.getElem_of_mem hitem
    exact (hall.get (hall.length_eq ▸ hk) hk).2
  · have hget := (hall.get (i := index) (by rwa [List.length_range]) (by rwa [hlen])).1
    rw [List.get_eq_getElem, List.getElem_range] at hget
    rw [fetchFull, List.getElem?_eq_getElem (by rwa [hlen]), fetchLight, except_of_ok hget]
    rfl

/-! ## Mixing -/

omit hh in
theorem access_congr {fetch fetch' : Nat → Except Fault Row} {count : Nat}
    (h : ∀ index < 2 * count, fetch index = fetch' index) (seedHead : Nat) :
    access fetch 2 count seedHead = access fetch' 2 count seedHead := by
  funext mix i
  unfold access
  rcases mix[i % mix.length]? with _ | word
  · rfl
  change (checkedMod32 (fnv (i ^^^ seedHead) word) count >>= _) =
    (checkedMod32 (fnv (i ^^^ seedHead) word) count >>= _)
  cases hparent : checkedMod32 (fnv (i ^^^ seedHead) word) count with
  | error e => rfl
  | ok parent =>
    have hlt := lt_of_checkedMod32 hparent
    have heq : ((List.range 2).mapM fun j => fetch (2 * parent + j)) =
        (List.range 2).mapM fun j => fetch' (2 * parent + j) := by
      simp only [List.range_succ, List.range_zero, List.nil_append, List.cons_append,
        List.mapM_cons, List.mapM_nil, h (2 * parent + 0) (by omega), h (2 * parent + 1) (by omega)]
    exact congrArg (· >>= fun items => fnvHash mix items.flatten) heq

omit hh in
theorem access_total {fetch : Nat → Except Fault Row} {count : Nat} (hf : Fetches fetch (2 * count))
    (hpos : 0 < count) (hcount : count < 2 ^ 32) (seedHead : Nat) (mix : Row) (i : Nat)
    (hmix : mix.length = 32) :
    ∃ row, access fetch 2 count seedHead mix i = .ok row ∧ row.length = 32 := by
  have hi : i % mix.length < mix.length := Nat.mod_lt _ (by omega)
  have hparent := Nat.mod_lt (fnv (i ^^^ seedHead) mix[i % mix.length]) hpos
  obtain ⟨a, ha, hlengtha⟩ := hf (2 * (fnv (i ^^^ seedHead) mix[i % mix.length] % count) + 0) (by omega)
  obtain ⟨b, hb, hlengthb⟩ := hf (2 * (fnv (i ^^^ seedHead) mix[i % mix.length] % count) + 1) (by omega)
  have hitems : ((List.range 2).mapM fun j =>
      fetch (2 * (fnv (i ^^^ seedHead) mix[i % mix.length] % count) + j)) = .ok [a, b] := by
    simp only [List.range_succ, List.range_zero, List.nil_append, List.cons_append, List.mapM_cons,
      List.mapM_nil, except_of_ok ha, except_of_ok hb]
    rfl
  have hlong : mix.length ≤ [a, b].flatten.length := by simp [hmix, hlengtha, hlengthb]
  obtain ⟨row, hrow, hlength⟩ := fnvHash_total hlong
  refine ⟨row, ?_, hlength.trans hmix⟩
  rw [access, List.getElem?_eq_getElem hi]
  exact (except_of_ok (checkedMod32_ok hpos hcount _) _).trans ((except_of_ok hitems _).trans hrow)

omit hh in
theorem length_compressMix (mix : Row) : (compressMix mix).length = mix.length / 4 := by
  fun_induction compressMix mix with
  | case1 a b c d rest ih =>
    simp only [List.length_cons, ih]
    omega
  | case2 mix hshort =>
    obtain _ | ⟨a, _ | ⟨b, _ | ⟨c, _ | ⟨d, rest⟩⟩⟩⟩ := mix
    · rfl
    · simp
    · simp
    · simp
    · exact absurd rfl (hshort a b c d rest)

theorem hashimoto_total {fetch : Nat → Except Fault Row} {size : Nat}
    (hf : Fetches fetch (2 * (size / 128))) (hpos : 0 < size / 128) (hsize : size / 128 < 2 ^ 32)
    (headerHash : Hash) (nonce : BitVec 64) :
    ∃ digest result, hashimoto {} hashing headerHash nonce size fetch = .ok (digest, result) ∧
      digest.size = 32 ∧ result.size = 32 := by
  have hrequire : require (({} : Parameters).hashBytes ≠ 0) .divisionByZero = .ok () := rfl
  have hwidth : (({} : Parameters).mixBytes.fdiv ({} : Parameters).hashBytes).toNat = 2 := rfl
  let seedHash := hashing.long (fixedBytes headerHash ++ Bytes.ofNatLittle 8 nonce.toNat)
  have hfirst : (List.replicate 2 (Numeric.ofBytesLittle seedHash)).flatten.length = 32 := by
    simp only [List.replicate_succ, List.replicate_zero, List.flatten_cons, List.flatten_nil,
      List.append_nil, List.length_append, seedHash, words_of_long hh]
  obtain ⟨mix, hmix, hlength⟩ := foldlM_total (P := fun mix : Row => mix.length = 32)
    (access_total hf hpos hsize (Bytes.toNatLittle (seedHash.extract 0 4)))
    (List.range ({} : Parameters).accesses.toNat) hfirst
  refine ⟨Numeric.toBytesLittle (compressMix mix),
    hashing.short (seedHash ++ Numeric.toBytesLittle (compressMix mix)), ?_, ?_, hh.short _⟩
  · rw [hashimoto]
    dsimp only
    rw [except_of_ok hrequire, hwidth, except_of_ok hmix]
    rfl
  · rw [Numeric.size_toBytesLittle, length_compressMix, hlength]

omit hh in
theorem hashimoto_congr {fetch fetch' : Nat → Except Fault Row} {size : Nat}
    (h : ∀ index < 2 * (size / 128), fetch index = fetch' index) (headerHash : Hash)
    (nonce : BitVec 64) : hashimoto {} hashing headerHash nonce size fetch =
      hashimoto {} hashing headerHash nonce size fetch' := by
  have hwidth : (({} : Parameters).mixBytes.fdiv ({} : Parameters).hashBytes).toNat = 2 := rfl
  simp only [hashimoto, hwidth, access_congr h]

end Evaluation

/-- As long as the rows of the dataset are counted in 32 bits, evaluation with the whole dataset and
evaluation with the cache succeed with the same result, and all sizes are as they should be. -/
theorem full_and_light_agree (hashing : Hashing) (hh : hashing.Sized) (number size : Nat)
    (hsize : datasetSize {} number = .ok size) (hrows : size / 128 < 2 ^ 32) (headerHash : Hash)
    (nonce : BitVec 64) : ∃ rows items digest result,
      cache {} hashing number = .ok rows ∧ dataset {} hashing number = .ok items ∧
      hashimoto {} hashing headerHash nonce size (fetchFull items) = .ok (digest, result) ∧
      hashimotoLight {} hashing headerHash nonce rows size = .ok (digest, result) ∧
      items.length = size / 64 ∧
      (∀ item ∈ items, item.size = 64 ∧ (Numeric.ofBytesLittle item).length = 16 ∧
        ∀ word ∈ Numeric.ofBytesLittle item, word < 2 ^ 32) ∧
      digest.size = 32 ∧ result.size = 32 := by
  obtain ⟨p, hp, hgreatest⟩ := datasetSize_eq number
  cases hsize.symm.trans hp
  rw [Nat.mul_div_cancel p (by decide)] at hrows
  have hlow := lt_of_isGreatest (by omega) hgreatest
  obtain ⟨rows, hcache, hare⟩ := cache_total hh number (by omega)
  obtain ⟨items, hdataset, hlength, hitems, hagree⟩ :=
    dataset_total hh hsize hcache hare (by omega)
  have hfetch : ∀ index < 2 * (p * 128 / 128), fetchFull items index = fetchLight hashing rows index :=
    fun index hindex => hagree index (by omega)
  obtain ⟨digest, result, hlight, hdigest, hresult⟩ := hashimoto_total hh
    (fetchLight_fetches hh hare (2 * (p * 128 / 128)) (by omega)) (by omega) (by omega)
    headerHash nonce
  refine ⟨rows, items, digest, result, hcache, hdataset, (hashimoto_congr hfetch _ _).trans hlight,
    hlight, hlength, fun item hitem => ⟨hitems item hitem, ?_, fun word hword => ?_⟩, hdigest, hresult⟩
  · rw [Numeric.length_ofBytesLittle, hitems item hitem]
  · exact Numeric.lt_of_mem_ofBytesLittle hword

/-- With the hash functions of the protocol, in the last block of the first epoch. -/
theorem full_and_light_agree_first : keccak.Sized ∧ datasetSize {} 29999 = .ok 1073739904 ∧
    1073739904 / 128 < 2 ^ 32 ∧ ∃ rows items digest result,
      cache {} keccak 29999 = .ok rows ∧ dataset {} keccak 29999 = .ok items ∧
      hashimoto {} keccak 0 0 1073739904 (fetchFull items) = .ok (digest, result) ∧
      hashimotoLight {} keccak 0 0 rows 1073739904 = .ok (digest, result) := by
  have hsize : datasetSize {} 29999 = .ok 1073739904 := by
    obtain ⟨p, hp, hgreatest⟩ := datasetSize_eq 29999
    cases hgreatest.unique isGreatest_datasetUnits
    exact hp
  obtain ⟨rows, items, digest, result, hrows, hitems, hfull, hlight, -⟩ :=
    full_and_light_agree keccak keccak_sized 29999 1073739904 hsize (by decide) 0 0
  exact ⟨keccak_sized, hsize, by decide, rows, items, digest, result, hrows, hitems, hfull, hlight⟩

end Ethash

end ExecutionLayer
