import ExecutionLayer.Proofs.Bytes

/-! # The bits of bloom filters

A filter holds the bits of its entries and no others, whether it is put together as a number or byte
by byte. So it depends on which entries there are only.
-/
namespace ExecutionLayer.Bloom
variable {hash : Bytes → Hash} {i j : Nat}

theorem getLsbD_setBit (b : Bloom) (hi : i < 2048) (j : Nat) :
    (setBit b i).getLsbD j = (b.getLsbD j || decide (i = j)) := by
  rw [setBit, BitVec.getLsbD_or, ← BitVec.twoPow_eq, BitVec.getLsbD_twoPow, decide_eq_true hi,
    Bool.true_and]

theorem mem_bits {entry : Bytes} : i ∈ bits hash entry ↔
    ∃ k < 3, i = (fixedBytes (hash entry)).numberAt (2 * k) 2 % 2048 := by
  have hbit (k : Nat) (hk : k < 3) : (fixedBytes (hash entry)).numberAt (2 * k) 2 % 2048 =
      ((hash entry).extractLsb' (240 - 16 * k) 11).toNat := by
    have hget (i e : Nat) (hi : i + e = 31) : ((fixedBytes (hash entry)).get i).toNat =
        (hash entry).toNat / 256 ^ e % 256 := by
      have he : 256 / 8 - 1 - i = e := by omega
      rw [fixedBytes, Bytes.get_ofNat, if_pos (by omega), he]
      rfl
    have hlow : 240 - 16 * k = 8 * (30 - 2 * k) := by omega
    rw [Bytes.numberAt, Bytes.numberAt, Bytes.numberAt, hget (2 * k + 0) (30 - 2 * k + 1) (by omega),
      hget (2 * k + 1) (30 - 2 * k) (by omega), BitVec.extractLsb'_toNat, Nat.shiftRight_eq_div_pow,
      hlow, ← pow_eq_two_pow, Nat.pow_succ, ← Nat.div_div_eq_div_mul]
    omega
  have hlist : bits hash entry = (List.range 3).map fun k =>
      ((hash entry).extractLsb' (240 - 16 * k) 11).toNat := rfl
  simp only [hlist, List.mem_map, List.mem_range]
  exact exists_congr fun k => and_congr_right fun hk => by rw [hbit k hk, eq_comm]

theorem setBitInBytes_eq (b : Bloom) (hi : i < 2048) :
    setBitInBytes (fixedBytes b) i = .ok (fixedBytes (setBit b i)) := by
  have hsize (b : Bloom) : (fixedBytes b).size = 256 := Bytes.size_ofNat _ _
  have hplace : (2047 - i) / 8 < (fixedBytes b).size := by
    rw [hsize]
    omega
  refine (if_pos hplace).trans (congrArg Except.ok (Bytes.ext_get ?_ fun j hj => ?_))
  · rw [hsize]
    exact Array.size_setIfInBounds.trans (hsize b)
  · have hj : j < 256 := hj.trans_eq (Array.size_setIfInBounds.trans (hsize b))
    refine Bytes.byte_ext fun t ht => ?_
    rw [Bytes.get_set! hplace, Bytes.getLsbD_get_fixedBytes _ hj ht, getLsbD_setBit b hi]
    split
    · next heq =>
      rw [UInt8.toBitVec_or, BitVec.getLsbD_or, heq, Bytes.getLsbD_get_fixedBytes _ hj ht,
        Bytes.getLsbD_toUInt8, Nat.one_shiftLeft, Nat.testBit_two_pow, decide_eq_true ht,
        Bool.true_and]
      congr 2
      simp only [eq_iff_iff]
      omega
    · next hne =>
      rw [Bytes.getLsbD_get_fixedBytes _ hj ht, decide_eq_false (by omega), Bool.or_false]

theorem foldlM_inBytes {α : Type} {f : Bytes → α → Except Fault Bytes} {g : Bloom → α → Bloom}
    {l : List α} (h : ∀ b, ∀ x ∈ l, f (fixedBytes b) x = .ok (fixedBytes (g b x))) (b : Bloom) :
    l.foldlM f (fixedBytes b) = .ok (fixedBytes (l.foldl g b)) := by
  induction l generalizing b with
  | nil => rfl
  | cons x l ih =>
    rw [List.foldlM_cons, except_of_ok (h b x List.mem_cons_self), List.foldl_cons]
    exact ih (fun b y hy => h b y (List.mem_cons_of_mem x hy)) (g b x)

theorem lt_of_mem_bits {entry : Bytes} (h : i ∈ bits hash entry) : i < 2048 := by
  obtain ⟨k, -, rfl⟩ := mem_bits.mp h
  exact Nat.mod_lt _ (by decide)

theorem ofLogs_inBytes (logs : List Log) :
    (logs.flatMap entries).foldlM (insertInBytes hash) (Bytes.zeros 256) =
      .ok (fixedBytes (ofLogs hash logs)) := by
  have hzero : Bytes.zeros 256 = fixedBytes 0#2048 := by
    refine Bytes.ext_get (by rw [Bytes.size_zeros]; exact (Bytes.size_ofNat _ _).symm) fun i hi => ?_
    rw [Bytes.get_zeros, fixedBytes, Bytes.get_ofNat, if_pos (by simpa using hi), BitVec.toNat_zero,
      Nat.zero_div]
    rfl
  rw [hzero]
  exact foldlM_inBytes (fun b e _ => foldlM_inBytes (fun b i hi =>
    setBitInBytes_eq b (lt_of_mem_bits hi)) b) 0

theorem getLsbD_foldl {l : List Nat} (h : ∀ i ∈ l, i < 2048) (b : Bloom) :
    (l.foldl setBit b).getLsbD j = true ↔ b.getLsbD j = true ∨ j ∈ l := by
  induction l generalizing b with
  | nil => simp
  | cons i l ih =>
    rw [List.foldl_cons, ih fun k hk => h k (List.mem_cons_of_mem i hk),
      getLsbD_setBit b (h i List.mem_cons_self), Bool.or_eq_true, decide_eq_true_eq, List.mem_cons,
      or_assoc, eq_comm (a := i)]

theorem getLsbD_ofLogs {logs : List Log} : (ofLogs hash logs).getLsbD i = true ↔
    ∃ l ∈ logs, ∃ e ∈ entries l, i ∈ bits hash e := by
  have hflat : ofLogs hash logs =
      (logs.flatMap fun l => (entries l).flatMap (bits hash)).foldl setBit 0 := by
    rw [← List.flatMap_assoc, List.foldl_flatMap]
    rfl
  rw [hflat, getLsbD_foldl]
  · simp [List.mem_flatMap]
  · simp only [List.mem_flatMap]
    rintro i ⟨_, -, _, -, hi⟩
    exact lt_of_mem_bits hi

theorem ofLogs_append (a b : List Log) :
    ofLogs hash (a ++ b) = ofLogs hash a ||| ofLogs hash b := by
  refine BitVec.eq_of_getLsbD_eq fun i _ => Bool.eq_iff_iff.mpr ?_
  rw [BitVec.getLsbD_or, Bool.or_eq_true, getLsbD_ofLogs, getLsbD_ofLogs, getLsbD_ofLogs]
  simp only [List.mem_append, or_and_right, exists_or]

theorem ofLogs_or_of_subset {a b : List Log} (h : a ⊆ b) :
    ofLogs hash a ||| ofLogs hash b = ofLogs hash b := by
  refine BitVec.eq_of_getLsbD_eq fun i _ => Bool.eq_iff_iff.mpr ?_
  rw [BitVec.getLsbD_or, Bool.or_eq_true, or_iff_right_iff_imp, getLsbD_ofLogs, getLsbD_ofLogs]
  rintro ⟨l, hl, he⟩
  exact ⟨l, h hl, he⟩

/-- The filter of logs is the same whether it is computed as a number or byte by byte from zeros. That
of two lists joins theirs, so it grows with the logs, whose order and repetition do not matter. Its bits
are those that the first three pairs of bytes of the hash name, for the address and the topics of each
log, and no others. -/
theorem filter_of_logs (hash : Bytes → Hash) (a b : List Log) :
    (a.flatMap entries).foldlM (insertInBytes hash) (Bytes.zeros 256) =
      .ok (fixedBytes (ofLogs hash a)) ∧
    ofLogs hash (a ++ b) = ofLogs hash a ||| ofLogs hash b ∧
    (a ⊆ b → ofLogs hash a ||| ofLogs hash b = ofLogs hash b) ∧
    (a ⊆ b → b ⊆ a → ofLogs hash a = ofLogs hash b) ∧
    ∀ i, (ofLogs hash a).getLsbD i = true ↔ ∃ l ∈ a, ∃ e,
      (e = fixedBytes l.address ∨ ∃ topic ∈ l.topics, e = fixedBytes topic) ∧
      ∃ k < 3, i = (fixedBytes (hash e)).numberAt (2 * k) 2 % 2048 := by
  refine ⟨ofLogs_inBytes a, ofLogs_append a b, ofLogs_or_of_subset, fun hab hba => ?_, fun i => ?_⟩
  · rw [← ofLogs_or_of_subset hba, BitVec.or_comm, ofLogs_or_of_subset hab]
  · rw [getLsbD_ofLogs]
    simp only [entries, List.mem_cons, List.mem_map, mem_bits, eq_comm (b := fixedBytes _)]

def paidLog : Log := ⟨0xaa, [7], ByteArray.empty⟩

/-- A log that is repeated. -/
theorem filter_of_logs_twice : [paidLog] ⊆ [paidLog, paidLog] ∧ [paidLog, paidLog] ⊆ [paidLog] ∧
    ofLogs keccak256 [paidLog] = ofLogs keccak256 [paidLog, paidLog] := by
  have hgrow : [paidLog] ⊆ [paidLog, paidLog] := by simp
  have hshrink : [paidLog, paidLog] ⊆ [paidLog] := by simp
  exact ⟨hgrow, hshrink, (filter_of_logs keccak256 _ _).2.2.2.1 hgrow hshrink⟩

end ExecutionLayer.Bloom
