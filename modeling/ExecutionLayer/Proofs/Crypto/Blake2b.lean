import ExecutionLayer.Crypto.Blake2b
import ExecutionLayer.Proofs.Bytes
import Mathlib.Data.Nat.Sqrt

/-! # The compression function on words

RFC 7693 defines the compression function on words of 64 bits. What is computed with numbers is the
same as long as the numbers are words, and the work vector's last word has no part in it.
-/
namespace ExecutionLayer.Blake2b

def fractions : Vector (BitVec 64) 8 :=
  #v[2, 3, 5, 7, 11, 13, 17, 19].map fun p => .ofNat 64 (Nat.sqrt (p * Nat.pow 2 128))

/-- Each digit is the place of a word in the message. -/
def schedule : Vector Nat 10 := #v[
  0x0123456789abcdef, 0xea489fd61c02b753, 0xb8c052fdae367194, 0x7931dcbe265a40f8,
  0x905724afe1bc683d, 0x2c6a0b834d75fe19, 0xc51fed4a0763928b, 0xdb7ec13950f4862a,
  0x6fe9b308c2d714a5, 0xa2847615fb9e3cd0]

/-- The place of the word that a round takes in the given turn. -/
def order (r j : Nat) : Nat := schedule.getD (r % 10) 0 / Nat.pow 16 (15 - j) % 16

def mixing (w : Vector (BitVec 64) 16) (a b c d : Nat) (x y : BitVec 64) :
    Vector (BitVec 64) 16 :=
  let w := w.setIfInBounds a (w.getD a 0 + w.getD b 0 + x)
  let w := w.setIfInBounds d ((w.getD d 0 ^^^ w.getD a 0).rotateRight 32)
  let w := w.setIfInBounds c (w.getD c 0 + w.getD d 0)
  let w := w.setIfInBounds b ((w.getD b 0 ^^^ w.getD c 0).rotateRight 24)
  let w := w.setIfInBounds a (w.getD a 0 + w.getD b 0 + y)
  let w := w.setIfInBounds d ((w.getD d 0 ^^^ w.getD a 0).rotateRight 16)
  let w := w.setIfInBounds c (w.getD c 0 + w.getD d 0)
  w.setIfInBounds b ((w.getD b 0 ^^^ w.getD c 0).rotateRight 63)

def mixingRound (m w : Vector (BitVec 64) 16) (r : Nat) : Vector (BitVec 64) 16 :=
  let word (j : Nat) : BitVec 64 := m.getD (order r j) 0
  let w := mixing w 0 4 8 12 (word 0) (word 1)
  let w := mixing w 1 5 9 13 (word 2) (word 3)
  let w := mixing w 2 6 10 14 (word 4) (word 5)
  let w := mixing w 3 7 11 15 (word 6) (word 7)
  let w := mixing w 0 5 10 15 (word 8) (word 9)
  let w := mixing w 1 6 11 12 (word 10) (word 11)
  let w := mixing w 2 7 8 13 (word 12) (word 13)
  mixing w 3 4 9 14 (word 14) (word 15)

def initial (h : Vector (BitVec 64) 8) (t₀ t₁ : BitVec 64) (final : Bool) : Vector (BitVec 64) 16 :=
  let w : Vector (BitVec 64) 16 := h ++ fractions
  let w := w.setIfInBounds 12 (w.getD 12 0 ^^^ t₀)
  let w := w.setIfInBounds 13 (w.getD 13 0 ^^^ t₁)
  if final then w.setIfInBounds 14 (w.getD 14 0 ^^^ .allOnes 64) else w

def compression (rounds : Nat) (h : Vector (BitVec 64) 8) (m : Vector (BitVec 64) 16)
    (t₀ t₁ : BitVec 64) (final : Bool) : Vector (BitVec 64) 8 :=
  let w := (List.range rounds).foldl (mixingRound m) (initial h t₀ t₁ final)
  Vector.ofFn fun i => h.get i ^^^ w.getD i 0 ^^^ w.getD (i + 8) 0

def littleEndian {n : Nat} (w : Vector (BitVec 64) n) : Bytes :=
  .ofList (w.toList.flatMap fun x => (BigEndian.digits 8 x.toNat).reverse)

theorem size_littleEndian {n : Nat} (w : Vector (BitVec 64) n) : (littleEndian w).size = 8 * n := by
  change (w.toList.flatMap fun x => (BigEndian.digits 8 x.toNat).reverse).length = 8 * n
  simp [List.length_flatMap, Nat.mul_comm, List.map_const']

theorem rotate_toNat (x : BitVec 64) {n : Nat} (hn : n < 64) :
    rotate n x.toNat = (x.rotateRight n).toNat := by
  have hxor : x.rotateRight n = (x >>> n) ^^^ (x <<< (64 - n)) := by
    refine BitVec.eq_of_getLsbD_eq fun i hi => ?_
    rw [BitVec.getLsbD_rotateRight, BitVec.getLsbD_xor, BitVec.getLsbD_ushiftRight,
      BitVec.getLsbD_shiftLeft, Nat.mod_eq_of_lt hn, decide_eq_true hi]
    by_cases hlow : i < 64 - n
    · simp [hlow]
    · have hout : 64 ≤ n + i := by omega
      simp [hlow, BitVec.getLsbD_of_ge x _ hout]
  rw [hxor, BitVec.toNat_xor, BitVec.toNat_ushiftRight, BitVec.toNat_shiftLeft]
  rfl

/-- A square root is known by the squares next to it. -/
theorem initialVector_eq (i : Fin 8) : initialVector.get i = (fractions.get i).toNat := by
  have hsquares : ∀ i : Fin 8,
      let root := #v[1, 1, 2, 2, 3, 3, 4, 4].get i * Nat.pow 2 64 + initialVector.get i
      let n := #v[2, 3, 5, 7, 11, 13, 17, 19].get i * Nat.pow 2 128
      initialVector.get i < Nat.pow 2 64 ∧ root * root ≤ n ∧ n < (root + 1) * (root + 1) := by
    decide
  obtain ⟨hlt, hroot⟩ := hsquares i
  have hmod : Nat.sqrt (#v[2, 3, 5, 7, 11, 13, 17, 19].get i * Nat.pow 2 128) % Nat.pow 2 64 =
      initialVector.get i := by
    rw [← Nat.eq_sqrt.mpr hroot, Nat.mul_add_mod_self_right, Nat.mod_eq_of_lt hlt]
  have hmap : fractions.get i =
      .ofNat 64 (Nat.sqrt (#v[2, 3, 5, 7, 11, 13, 17, 19].get i * Nat.pow 2 128)) :=
    Vector.getElem_map _ i.isLt
  rw [← hmod, hmap, BitVec.toNat_ofNat]

theorem sigma_get (r : Fin 10) (j : Fin 16) :
    (sigma.get r).get j = schedule.getD r 0 / Nat.pow 16 (15 - j) % 16 := by
  revert r j
  decide

theorem getD_eq {n : Nat} (w : Vector (BitVec 64) n) (i : Fin n) : w.getD i 0 = w.get i := by
  have hsize : i.val < w.toArray.size := i.isLt.trans_eq w.size_toArray.symm
  exact dif_pos hsize

def Holds (v : Vector Nat 17) (w : Vector (BitVec 64) 16) : Prop :=
  ∀ i : Fin 16, v.get i.castSucc = (w.getD i 0).toNat

section Holds
variable {v : Vector Nat 17} {w : Vector (BitVec 64) 16}

theorem Holds.set (h : Holds v w) (i : Fin 16) {hi : i.val < 17} (x : BitVec 64) :
    Holds (v.set i x.toNat hi) (w.setIfInBounds i x) := by
  intro j
  refine (Vector.getElem_set hi j.castSucc.isLt).trans ?_
  rw [getD_eq]
  refine Eq.trans ?_ (congrArg BitVec.toNat (Vector.getElem_setIfInBounds j.isLt).symm)
  rw [apply_ite BitVec.toNat]
  exact if_congr Iff.rfl rfl ((h j).trans (congrArg BitVec.toNat (getD_eq w j)))

theorem Holds.add (h : Holds v w) (i a b : Fin 16) {hi : i.val < 17} (x : BitVec 64) :
    Holds (v.set i ((v.get a.castSucc + v.get b.castSucc + x.toNat) % limit) hi)
      (w.setIfInBounds i (w.getD a 0 + w.getD b 0 + x)) := by
  have hsum : (v.get a.castSucc + v.get b.castSucc + x.toNat) % limit =
      (w.getD a 0 + w.getD b 0 + x).toNat := by
    rw [h a, h b, BitVec.toNat_add, BitVec.toNat_add, Nat.mod_add_mod]
    rfl
  exact hsum ▸ h.set i _

theorem Holds.xor (h : Holds v w) (i : Fin 16) {hi : i.val < 17} (x : BitVec 64) :
    Holds (v.set i (x.toNat ^^^ v.get i.castSucc) hi)
      (w.setIfInBounds i (w.getD i 0 ^^^ x)) := by
  rw [h i, Nat.xor_comm, ← BitVec.toNat_xor]
  exact h.set i _

theorem Holds.invert (h : Holds v w) (i : Fin 16) {hi : i.val < 17} :
    Holds (v.set i (v.get i.castSucc ^^^ (limit - 1)) hi)
      (w.setIfInBounds i (w.getD i 0 ^^^ .allOnes 64)) := by
  rw [Nat.xor_comm]
  exact h.xor i (.allOnes 64)

theorem Holds.turn (h : Holds v w) (i a b : Fin 16) {hi : i.val < 17} {n : Nat} (hn : n < 64) :
    Holds (v.set i (rotate n (v.get a.castSucc ^^^ v.get b.castSucc)) hi)
      (w.setIfInBounds i ((w.getD a 0 ^^^ w.getD b 0).rotateRight n)) := by
  rw [h a, h b, ← BitVec.toNat_xor, rotate_toNat _ hn]
  exact h.set i _

theorem Holds.mix (h : Holds v w) {a b c d : Fin 16} {n k : Nat} {x y : BitVec 64}
    (hn : n = x.toNat) (hk : k = y.toNat) : Holds (mix v a b c d n k) (mixing w a b c d x y) := by
  subst hn hk
  have hadd {v : Vector Nat 17} {w : Vector (BitVec 64) 16} (h : Holds v w) (i a b : Fin 16)
      {hi : i.val < 17} : Holds (v.set i ((v.get a.castSucc + v.get b.castSucc) % limit) hi)
        (w.setIfInBounds i (w.getD a 0 + w.getD b 0)) := by
    rw [h a, h b]
    exact h.set i (w.getD a 0 + w.getD b 0)
  unfold Blake2b.mix mixing
  exact (hadd ((hadd ((h.add a a b x).turn d d a (by decide)) c c d).turn b b c (by decide)
    |>.add a a b y |>.turn d d a (by decide)) c c d).turn b b c (by decide)

theorem Holds.round (h : Holds v w) (m : Vector (BitVec 64) 16) (r : Nat) :
    Holds (round (m.map BitVec.toNat) v r) (mixingRound m w r) := by
  have hword (j : Fin 16) : (m.map BitVec.toNat).get
      ((sigma.get ⟨r % 10, Nat.mod_lt _ (by decide)⟩).get j) = (m.getD (order r j) 0).toNat := by
    have hj : (sigma.get ⟨r % 10, Nat.mod_lt _ (by decide)⟩).get j = order r j := sigma_get _ j
    rw [← hj, getD_eq]
    exact Vector.getElem_map _ _
  unfold Blake2b.round mixingRound
  exact (((((((h.mix (hword 0) (hword 1)).mix (hword 2) (hword 3)).mix (hword 4)
    (hword 5)).mix (hword 6) (hword 7)).mix (hword 8) (hword 9)).mix (hword 10)
    (hword 11)).mix (hword 12) (hword 13)).mix (hword 14) (hword 15)

theorem Holds.rounds (m : Vector (BitVec 64) 16) (n r : Nat) (h : Holds v w) :
    Holds (rounds (m.map BitVec.toNat) n r v) ((List.range' r n).foldl (mixingRound m) w) := by
  induction n generalizing r v w with
  | zero => exact h
  | succ n ih =>
    rw [Blake2b.rounds, List.range'_succ, List.foldl_cons]
    exact ih (r + 1) (h.round m r)

end Holds

def Parameters.ofWords (rounds : Nat) (h : Vector (BitVec 64) 8) (m : Vector (BitVec 64) 16)
    (t₀ t₁ : BitVec 64) (final : Nat) : Parameters :=
  ⟨rounds, h.map BitVec.toNat, m.map BitVec.toNat, t₀.toNat, t₁.toNat, final⟩

section Compression
variable (rounds : Nat) (h : Vector (BitVec 64) 8) (m : Vector (BitVec 64) 16) (t₀ t₁ : BitVec 64)
  (final : Nat)

theorem holds_start :
    Holds (start (.ofWords rounds h m t₀ t₁ final)) (initial h t₀ t₁ (final ≠ 0)) := by
  have hhalves : Holds (h.map BitVec.toNat ++ initialVector ++ #v[0] : Vector Nat 17)
      (h ++ fractions : Vector (BitVec 64) 16) := by
    intro i
    rw [getD_eq]
    refine (Vector.getElem_append_left i.isLt).trans ?_
    rw [Vector.getElem_append]
    refine Eq.trans ?_ (congrArg BitVec.toNat (Vector.getElem_append i.isLt).symm)
    split
    · exact Vector.getElem_map _ _
    · exact initialVector_eq ⟨i - 8, by omega⟩
  change Holds (if final = 0 then _ else _) (if decide (final ≠ 0) = true then _ else _)
  by_cases hf : final = 0
  · rw [if_pos hf, if_neg (by simp [hf])]
    exact (hhalves.xor 12 t₀).xor 13 t₁
  · rw [if_neg hf, if_pos (by simp [hf])]
    exact ((hhalves.xor 12 t₀).xor 13 t₁).invert 14

theorem result_ofWords : result (.ofWords rounds h m t₀ t₁ final) =
    (compression rounds h m t₀ t₁ (final ≠ 0)).map BitVec.toNat := by
  have hv := (holds_start rounds h m t₀ t₁ final).rounds m rounds 0
  rw [← List.range_eq_range'] at hv
  refine Vector.ext fun i hi => ?_
  have hlow := hv ⟨i, by omega⟩
  have hhigh := hv ⟨i + 8, by omega⟩
  rw [Vector.getElem_map, result, compression, Vector.getElem_ofFn, Vector.getElem_ofFn,
    BitVec.toNat_xor, BitVec.toNat_xor]
  exact congrArg₂ (· ^^^ ·) (congrArg₂ (· ^^^ ·) (Vector.getElem_map _ hi) hlow) hhigh

theorem compress_ofWords : compress (.ofWords rounds h m t₀ t₁ final) =
    .ok (littleEndian (compression rounds h m t₀ t₁ (final ≠ 0))) := by
  have hbytes (l : List (BitVec 64)) (b : Bytes) :
      (l.map BitVec.toNat).foldl (fun b n => b ++ Bytes.ofNatLittle 8 n) b =
        b ++ Bytes.ofList (l.flatMap fun x => (BigEndian.digits 8 x.toNat).reverse) := by
    induction l generalizing b with
    | nil => exact ByteArray.append_empty.symm
    | cons x l ih =>
      rw [List.map_cons, List.foldl_cons, ih, List.flatMap_cons, ByteArray.append_assoc,
        Bytes.ofNatLittle, BigEndian.digitsOnto_eq, List.append_nil]
      rfl
  unfold compress
  rw [result_ofWords, Vector.toList_map, if_pos, hbytes, ByteArray.empty_append]
  · rfl
  · simp only [List.all_map, List.all_eq_true]
    exact fun x _ => decide_eq_true x.isLt

end Compression

theorem ofLists_eq (rounds : Nat) (h : Vector (BitVec 64) 8) (m : Vector (BitVec 64) 16)
    (t₀ t₁ : BitVec 64) (final : Bool) :
    Parameters.ofLists rounds (h.toList.map BitVec.toNat) (m.toList.map BitVec.toNat) t₀.toNat
      t₁.toNat final = .ok (.ofWords rounds h m t₀ t₁ (if final then 1 else 0)) := by
  have hlist {n : Nat} (w : Vector (BitVec 64) n) :
      (Vector.ofFn fun i : Fin n => (w.toList.map BitVec.toNat).getD i 0) = w.map BitVec.toNat := by
    refine Vector.ext fun i hi => ?_
    rw [Vector.getElem_ofFn, Vector.getElem_map]
    simp [List.getD_eq_getElem?_getD, hi]
  unfold Parameters.ofLists
  rw [hlist, hlist]
  simp [require, Parameters.ofWords]

def wordAt (b : Bytes) (start : Nat) : BitVec 64 :=
  .ofNat 64 (BigEndian.value ((b.toList.drop start).take 8).reverse)

theorem word_eq (b : Bytes) (start : Nat) : word b start = (wordAt b start).toNat := by
  have hlist : (b.extract start (start + 8)).data.toList = (b.toList.drop start).take 8 := by
    rw [ByteArray.data_extract, Array.toList_extract, List.extract_eq_take_drop,
      Nat.add_sub_cancel_left]
    rfl
  have hlt : BigEndian.value ((b.toList.drop start).take 8).reverse < 2 ^ 64 := by
    refine (BigEndian.value_lt _).trans_le ?_
    rw [List.length_reverse, List.length_take]
    exact Nat.pow_le_pow_right (by decide) (Nat.min_le_left _ _)
  rw [word, Bytes.toNatLittle, ← Array.foldr_toList, hlist, wordAt, BitVec.toNat_ofNat,
    Nat.mod_eq_of_lt hlt, BigEndian.value, List.foldl_reverse]

theorem ofBytes_eq {b : Bytes} (hb : b.size = 213) : Parameters.ofBytes b =
    .ofWords (b.numberAt 0 4) (Vector.ofFn fun i => wordAt b (4 + 8 * i))
      (Vector.ofFn fun i => wordAt b (68 + 8 * i)) (wordAt b 196) (wordAt b 204)
      (b.get 212).toNat := by
  have hextract (start size : Nat) (h : start + size ≤ 213) :
      Bytes.toNat (b.extract start (start + size)) = b.numberAt start size := by
    have hsize : (b.extract start (start + size)).size = size := by
      rw [ByteArray.size_extract, hb]
      omega
    rw [Bytes.toNat_eq_numberAt, hsize]
    refine Bytes.numberAt_congr fun i hi => ?_
    rw [Bytes.get_extract, hb, if_pos (by omega), Nat.zero_add]
  have hrounds := hextract 0 4 (by decide)
  have hflag := hextract 212 1 (by decide)
  rw [Bytes.numberAt, Bytes.numberAt, Nat.zero_mul, Nat.zero_add] at hflag
  simp only [Parameters.ofBytes, Parameters.ofWords, word_eq, Vector.map_ofFn, hb, hrounds, hflag]
  rfl

end ExecutionLayer.Blake2b
