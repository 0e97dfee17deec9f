import ExecutionLayer.Header.Validation
import ExecutionLayer.Proofs.Ethash
import ExecutionLayer.Proofs.Header.Difficulty
import ExecutionLayer.Proofs.Header.Fee
import ExecutionLayer.Proofs.Rlp.Refusal

/-! # How headers are refused

A header that has the fields of its fork is valid or is refused by a rule when it is tested against
its parent. There are two exceptions: in Frontier the time of the parent may be too late, and the
number may be so great that the work is not computed.
-/
namespace ExecutionLayer

def Rejection.IsRefusal : Rejection → Prop
  | .invalidBlock => True
  | .malformed e => e.IsOfInput
  | .stopped _ => False

/-- What fails breaks a rule, unless the condition holds. -/
def RefusesUnless {α : Type} (H : Prop) (x : Except Rejection α) : Prop :=
  ∀ r, x = .error r → r.IsRefusal ∨ H

section Refusals
variable {α β : Type} {H H' : Prop} {x : Except Rejection α}

theorem refuses_ok (a : α) : RefusesUnless H (.ok a) := nofun

theorem refuses_invalid : RefusesUnless H (.error .invalidBlock : Except Rejection α) := by
  intro r h
  cases h
  exact Or.inl trivial

theorem refuses_check (b : Bool) : RefusesUnless H (Rejection.check b) := by
  unfold Rejection.check
  split
  · exact refuses_ok ()
  · exact refuses_invalid

theorem refuses_ofFault {y : Except Fault α} (h : (∃ a, y = .ok a) ∨ H) :
    RefusesUnless H (Rejection.ofFault y) := by
  intro r he
  refine h.imp_left ?_
  rintro ⟨a, rfl⟩
  cases he

theorem RefusesUnless.mono (h : RefusesUnless H x) (hH : H → H') : RefusesUnless H' x :=
  fun r hr => (h r hr).imp_right hH

theorem RefusesUnless.bind {f : α → Except Rejection β} (hx : RefusesUnless H x)
    (hf : ∀ a, x = .ok a → RefusesUnless H (f a)) : RefusesUnless H (x >>= f) := by
  intro r h
  rcases of_except_error h with h | ⟨a, ha, h⟩
  · exact hx r h
  · exact hf a ha r h

theorem RefusesUnless.ite {c : Prop} [Decidable c] {y : Except Rejection α}
    (hx : c → RefusesUnless H x) (hy : ¬c → RefusesUnless H y) :
    RefusesUnless H (if c then x else y) := by
  split
  · next hc => exact hx hc
  · next hc => exact hy hc

theorem RefusesUnless.forM {f : β → Except Rejection Unit} {l : List β}
    (hf : ∀ b ∈ l, RefusesUnless H (f b)) : RefusesUnless H (l.forM f) := by
  induction l with
  | nil => exact refuses_ok ()
  | cons b l ih =>
    exact (hf b List.mem_cons_self).bind fun _ _ => ih fun b' hb => hf b' (List.mem_cons_of_mem b hb)

end Refusals

theorem Rejection.of_check_error {b : Bool} {r : Rejection} (h : Rejection.check b = .error r) :
    r = .invalidBlock := by
  unfold Rejection.check at h
  split at h
  · cases h
  · exact (Except.error.inj h).symm

/-- The number of the first block for which the rows of the dataset are not counted in 32 bits. -/
def workLimit : Nat := 1962270000

theorem Header.work_total {h : Header} (hn : h.number < workLimit) : ∃ p, h.work {} = .ok p := by
  have hepoch : h.number / 30000 ≤ 65408 := by
    have hn : h.number < 1962270000 := hn
    omega
  obtain ⟨rows, hrows, hare⟩ := Ethash.cache_total Ethash.keccak_sized h.number (by omega)
  obtain ⟨p, hsize, ⟨hprime, hlt⟩, -⟩ := Ethash.datasetSize_eq h.number
  rw [Header.work, except_of_ok hrows, except_of_ok hsize]
  obtain ⟨digest, result, hwork, -⟩ := Ethash.hashimoto_total Ethash.keccak_sized
    (Ethash.fetchLight_fetches Ethash.keccak_sized hare (2 * (p * 128 / 128)) (by omega))
    (by have := hprime.pos; omega) (by omega) h.workHash h.nonce
  exact ⟨(digest, result), hwork⟩

/-- The test of the work that a header proves ends with a rejection or none, provided that it is
made for a header that is not too late and has a difficulty. -/
theorem WorkCheck.of_ethash_error {h : Header} {r : Rejection} (hn : h.number < workLimit)
    (hd : h.difficulty ≠ 0) (he : WorkCheck.ethash {} h = .error r) : r = .invalidBlock := by
  obtain ⟨⟨mix, result⟩, hp⟩ := Header.work_total hn
  have hwork : Rejection.ofFault (h.work {}) = .ok (mix, result) := by
    rw [hp]
    rfl
  rw [WorkCheck.ethash, except_of_ok hwork] at he
  rcases of_except_error he with he | ⟨_, -, he⟩
  · exact Rejection.of_check_error he
  · dsimp only at he
    rw [if_neg hd] at he
    exact Rejection.of_check_error he

namespace Fee

theorem expected_refuses (limit parentLimit used fee : Nat) (isFirst : Bool) :
    RefusesUnless False (expected limit parentLimit used fee isFirst) :=
  .ite (fun _ => refuses_ok _) fun _ => (refuses_check _).bind fun _ hlimit =>
    refuses_ofFault (Or.inl ⟨_, next_eq (two_le_of_gasLimitOk (Rejection.of_check_ok hlimit)) _ _⟩)

end Fee

namespace Header
variable {fork : Fork} {work : WorkCheck} {h parent : Header}

structure IsOf (fork : Fork) (h : Header) : Prop where
  baseFee : h.baseFee?.isSome = decide (Fork.london ≤ fork)
  withdrawalsRoot : h.withdrawalsRoot?.isSome = decide (Fork.shanghai ≤ fork)
  blob : h.blob?.isSome = decide (Fork.cancun ≤ fork)

theorem IsOf.baseFee_eq (hh : h.IsOf fork) (hf : Fork.london ≤ fork) :
    ∃ fee, h.baseFee = .ok fee := by
  have hsome := hh.baseFee
  rw [decide_eq_true hf] at hsome
  obtain ⟨fee, hfee⟩ := Option.isSome_iff_exists.mp hsome
  exact ⟨fee, by rw [Header.baseFee, hfee]; rfl⟩

theorem IsOf.blob_eq (hh : h.IsOf fork) (hf : Fork.cancun ≤ fork) : ∃ blob, h.blob = .ok blob := by
  have hsome := hh.blob
  rw [decide_eq_true hf] at hsome
  obtain ⟨blob, hblob⟩ := Option.isSome_iff_exists.mp hsome
  exact ⟨blob, by rw [Header.blob, hblob]; rfl⟩

/-- What keeps a header from being tested against its parent. -/
def IsUntestable (fork : Fork) (work : WorkCheck) (h parent : Header) : Prop :=
  fork = .frontier ∧ Word.limit ≤ parent.timestamp.toNat + 13 ∨
    fork < Fork.paris ∧ work = .ethash {} ∧ workLimit ≤ h.number

theorem checkSuccession_ok_iff : checkSuccession h parent = .ok () ↔
    parent.timestamp.toNat < h.timestamp.toNat ∧ h.number = parent.number + 1 := by
  simp only [checkSuccession, except_ok_iff, Rejection.check_ok_iff, Unique.exists_iff]

theorem checkParentHash_ok_iff :
    checkParentHash h parent = .ok () ↔ h.parentHash = parent.hash := Rejection.check_ok_iff

theorem checkDifficulty_ok_iff : checkDifficulty fork h parent = .ok () ↔
    Difficulty.expected fork h.number h.timestamp parent.timestamp parent.difficulty
      (parent.ommersHash ≠ emptyOmmersHash) = .ok h.difficulty := by
  simp only [checkDifficulty, except_ok_iff, Rejection.check_ok_iff, Rejection.ofFault_ok_iff,
    exists_eq_right']

theorem checkFee_ok_iff : checkFee fork h parent = .ok () ↔
    h.gasUsed ≤ h.gasLimit ∧ ∃ parentFee fee, parent.baseFee = .ok parentFee ∧
      Fee.expected h.gasLimit parent.gasLimit parent.gasUsed parentFee
        (fork = .london && h.number = feeNumber) = .ok fee ∧ h.baseFee = .ok fee := by
  simp only [checkFee, except_ok_iff, Rejection.check_ok_iff, Rejection.ofFault_ok_iff,
    Unique.exists_iff, exists_eq_right', exists_and_left]

theorem validateWithFee_ok_iff : validateWithFee fork work h parent = .ok () ↔
    checkFee fork h parent = .ok () ∧ checkSuccession h parent = .ok () ∧
      checkExtraData h = .ok () ∧ checkDifficulty fork h parent = .ok () ∧
      checkParentHash h parent = .ok () ∧ work h = .ok () := by
  simp only [validateWithFee, except_ok_iff, Unique.exists_iff, PUnit.default_eq_unit]

theorem of_validate_ok (hv : h.validate fork work parent = .ok ()) :
    h.number = parent.number + 1 ∧ h.parentHash = parent.hash := by
  unfold validate validateEarly validateWithFee validateWithoutWork at hv
  simp only [apply_ite (· = Except.ok ()), except_ok_iff, Unique.exists_iff,
    PUnit.default_eq_unit, checkSuccession_ok_iff, checkParentHash_ok_iff] at hv
  split_ifs at hv <;> tauto

theorem validate_of_early (hf : fork < Fork.london) (hmark : h.checkMark fork = .ok ())
    (htime : parent.timestamp.toNat < h.timestamp.toNat) (hnumber : h.number = parent.number + 1)
    (hlimit : Fee.gasLimitOk h.gasLimit parent.gasLimit = true) (hextra : h.extraData.size ≤ 32)
    (hdifficulty : Difficulty.expected fork h.number h.timestamp parent.timestamp
      parent.difficulty (parent.ommersHash ≠ emptyOmmersHash) = .ok h.difficulty)
    (hparent : h.parentHash = parent.hash) : h.validate fork .none parent = .ok () := by
  rw [validate, if_pos hf]
  simp only [validateEarly, except_ok_iff, Unique.exists_iff, PUnit.default_eq_unit,
    checkSuccession_ok_iff, checkDifficulty_ok_iff, checkParentHash_ok_iff]
  exact ⟨⟨htime, hnumber⟩, if_pos hlimit, Rejection.check_ok_iff.mpr hextra, hdifficulty, hparent,
    hmark, rfl⟩

theorem validate_of_late (hf : Fork.paris ≤ fork) (hfee : checkFee fork h parent = .ok ())
    (hsuccession : checkSuccession h parent = .ok ()) (hextra : checkExtraData h = .ok ())
    (hdifficulty : h.difficulty = 0) (hnonce : h.nonce = 0)
    (hommers : h.ommersHash = emptyOmmersHash) (hparent : h.parentHash = parent.hash) :
    h.validate fork work parent = .ok () := by
  have hlondon : Fork.london ≤ fork :=
    Nat.le_trans (show Fork.london.rank ≤ Fork.paris.rank by decide) hf
  rw [validate, if_neg (show ¬fork < Fork.london from Nat.not_lt.mpr hlondon),
    if_neg (show ¬fork < Fork.paris from Nat.not_lt.mpr hf)]
  simp only [validateWithoutWork, except_ok_iff, Unique.exists_iff, PUnit.default_eq_unit,
    Rejection.check_ok_iff, checkParentHash_ok_iff]
  exact ⟨hfee, hsuccession, hextra, hdifficulty, hnonce, hommers, hparent⟩

theorem checkFee_refuses (hh : h.IsOf fork) (hp : ∃ fee, parent.baseFee = .ok fee)
    (hf : Fork.london ≤ fork) : RefusesUnless False (checkFee fork h parent) :=
  (refuses_check _).bind fun _ _ => (refuses_ofFault (Or.inl hp)).bind fun _ _ =>
    (Fee.expected_refuses _ _ _ _ _).bind fun _ _ =>
      (refuses_ofFault (Or.inl (hh.baseFee_eq hf))).bind fun _ _ => refuses_check _

theorem checkSuccession_refuses (h parent : Header) :
    RefusesUnless False (checkSuccession h parent) :=
  (refuses_check _).bind fun _ _ => refuses_check _

theorem checkDifficulty_refuses (hs : checkSuccession h parent = .ok ()) :
    RefusesUnless (IsUntestable fork work h parent) (checkDifficulty fork h parent) := by
  refine (refuses_ofFault ?_).bind fun _ _ => refuses_check _
  by_cases hlate : fork = .frontier ∧ Word.limit ≤ parent.timestamp.toNat + 13
  · exact Or.inr (Or.inl hlate)
  · exact Or.inl ⟨_, Difficulty.expected_eq h.number parent.difficulty _ (checkSuccession_ok_iff.mp hs).1
      fun hf => Nat.lt_of_not_le fun hle => hlate ⟨hf, hle⟩⟩

theorem minimum_le_of_checkDifficulty (hd : checkDifficulty fork h parent = .ok ()) :
    Difficulty.minimum ≤ h.difficulty :=
  Difficulty.minimum_le_of_expected (checkDifficulty_ok_iff.mp hd)

theorem work_refuses (hwork : work = .none ∨ work = .ethash {}) (hf : fork < Fork.paris)
    (hd : checkDifficulty fork h parent = .ok ()) :
    RefusesUnless (IsUntestable fork work h parent) (work h) := by
  rcases hwork with rfl | rfl
  · exact refuses_ok ()
  · intro r he
    by_cases hn : h.number < workLimit
    · rw [WorkCheck.of_ethash_error hn
        (Nat.ne_of_gt (Nat.lt_of_lt_of_le (by decide) (minimum_le_of_checkDifficulty hd))) he]
      exact Or.inl trivial
    · exact Or.inr (Or.inr ⟨hf, rfl, Nat.le_of_not_lt hn⟩)

theorem validateEarly_refuses (hwork : work = .none ∨ work = .ethash {}) (hf : fork < Fork.paris) :
    RefusesUnless (IsUntestable fork work h parent) (validateEarly fork work h parent) :=
  ((checkSuccession_refuses h parent).mono False.elim).bind fun _ hs =>
    (refuses_check _).bind fun _ _ => (refuses_check _).bind fun _ _ =>
      (checkDifficulty_refuses hs).bind fun _ hd => (refuses_check _).bind fun _ _ =>
        (refuses_check _).bind fun _ _ => work_refuses hwork hf hd

theorem validateWithFee_refuses (hwork : work = .none ∨ work = .ethash {}) (hh : h.IsOf fork)
    (hp : parent.IsOf fork) (hl : Fork.london ≤ fork) (hf : fork < Fork.paris) :
    RefusesUnless (IsUntestable fork work h parent) (validateWithFee fork work h parent) :=
  ((checkFee_refuses hh (hp.baseFee_eq hl) hl).mono False.elim).bind fun _ _ =>
    ((checkSuccession_refuses h parent).mono False.elim).bind fun _ hs =>
      (refuses_check _).bind fun _ _ => (checkDifficulty_refuses hs).bind fun _ hd =>
        (refuses_check _).bind fun _ _ => work_refuses hwork hf hd

theorem validateWithoutWork_refuses (hh : h.IsOf fork) (hp : ∃ fee, parent.baseFee = .ok fee)
    (hl : Fork.london ≤ fork) : RefusesUnless False (validateWithoutWork fork h parent) :=
  (checkFee_refuses hh hp hl).bind fun _ _ => (checkSuccession_refuses h parent).bind fun _ _ =>
    (refuses_check _).bind fun _ _ => (refuses_check _).bind fun _ _ =>
      (refuses_check _).bind fun _ _ => (refuses_check _).bind fun _ _ => refuses_check _

theorem validate_refuses (hwork : work = .none ∨ work = .ethash {}) (hh : h.IsOf fork)
    (hp : parent.IsOf fork) :
    RefusesUnless (IsUntestable fork work h parent) (h.validate fork work parent) := by
  refine .ite (fun hf => validateEarly_refuses hwork ?_) fun hl => ?_
  · exact Nat.lt_trans hf (show Fork.london.rank < Fork.paris.rank by decide)
  · have hl : Fork.london ≤ fork := Nat.le_of_not_lt hl
    exact .ite (validateWithFee_refuses hwork hh hp hl) fun _ =>
      (validateWithoutWork_refuses hh (hp.baseFee_eq hl) hl).mono False.elim

/-- The header was accepted on its parent under the rules of some fork with proof of work. -/
def Follows (work : WorkCheck) (parent h : Header) : Prop :=
  ∃ fork < Fork.paris, h.validate fork work parent = .ok ()

theorem Follows.minimum_le (hfollows : Follows work parent h) :
    Difficulty.minimum ≤ h.difficulty := by
  obtain ⟨fork, hf, hvalid⟩ := hfollows
  have hd : checkDifficulty fork h parent = .ok () := by
    unfold validate validateEarly validateWithFee at hvalid
    simp only [apply_ite (· = Except.ok ()), except_ok_iff, Unique.exists_iff,
      PUnit.default_eq_unit, hf, if_true] at hvalid
    split_ifs at hvalid <;> tauto
  exact minimum_le_of_checkDifficulty hd

theorem minimum_le_of_isChain {headers : List Header} (hchain : headers.IsChain (Follows work))
    (hmem : h ∈ headers.tail) : Difficulty.minimum ≤ h.difficulty := by
  induction headers with
  | nil => cases hmem
  | cons first rest ih =>
    cases rest with
    | nil => cases hmem
    | cons second rest =>
      rw [List.isChain_cons_cons] at hchain
      rcases List.mem_cons.mp hmem with rfl | hmem
      · exact hchain.1.minimum_le
      · exact ih hchain.2 hmem

theorem validate_congr {work' : WorkCheck} (parent : Header)
    (hwork : Difficulty.minimum ≤ h.difficulty → work h = work' h) :
    h.validate fork work parent = h.validate fork work' parent := by
  unfold validate validateEarly validateWithFee
  cases hd : checkDifficulty fork h parent with
  | error r => rfl
  | ok u => rw [hwork (minimum_le_of_checkDifficulty hd)]

/-- The difficulty is computed for every later time, is never below the minimum, does not rise with the
time, and stays near the parent's as long as nothing is added to it. So along a chain no difficulty is
zero, and no work is compared with a target of such a difficulty. -/
theorem difficulty_follows_time (fork : Fork) (number d : Nat) (time parentTime : Word)
    (ommers : Bool) (ht : parentTime.toNat < time.toNat)
    (hlimit : fork = .frontier → parentTime.toNat + 13 < Word.limit) :
    (∃ n, Difficulty.expected fork number time parentTime d ommers = .ok n ∧ 131072 ≤ n ∧
      (∀ time' : Word, time.toNat ≤ time'.toNat → ∃ n' ≤ n,
        Difficulty.expected fork number time' parentTime d ommers = .ok n') ∧
      (number < Difficulty.delay fork + 200000 →
        n = 131072 ∨ d ≤ n + 99 * (d / 2048) ∧ n ≤ d + 2 * (d / 2048))) ∧
    (∀ work headers, List.IsChain (Follows work) headers →
      ∀ h ∈ headers.tail, 131072 ≤ h.difficulty) ∧
    ∀ (h parent : Header) (work work' : WorkCheck), (131072 ≤ h.difficulty → work h = work' h) →
      h.validate fork work parent = h.validate fork work' parent := by
  refine ⟨⟨_, Difficulty.expected_eq number d ommers ht hlimit, Difficulty.minimum_le_level _ _ _ _,
    fun time' htime => ⟨_, ?_, Difficulty.expected_eq number d ommers (ht.trans_le htime) hlimit⟩,
    fun hn => Difficulty.level_near hn (Difficulty.factor_mem _ _ _)⟩,
    fun _ _ hchain _ hmem => minimum_le_of_isChain hchain hmem,
    fun _ parent _ _ hwork => validate_congr parent hwork⟩
  exact Difficulty.level_mono fork number d
    (Difficulty.factor_anti fork ommers (Nat.sub_le_sub_right htime _))

/-- A block on a parent with ommers nine seconds later, and at the latest time there is. -/
theorem difficulty_follows_time_byzantium :
    Difficulty.expected .byzantium 3199999 1009 1000 2048000 true = .ok 2049000 ∧
    (∃ n' ≤ 2049000, Difficulty.expected .byzantium 3199999 (-1) 1000 2048000 true = .ok n') ∧
    2048000 ≤ 2049000 + 99 * (2048000 / 2048) ∧ 2049000 ≤ 2048000 + 2 * (2048000 / 2048) := by
  obtain ⟨⟨n, hn, -, hlater, hnear⟩, -⟩ :=
    difficulty_follows_time .byzantium 3199999 2048000 1009 1000 true (by decide) (by decide)
  have hvalue : Difficulty.expected .byzantium 3199999 1009 1000 2048000 true = .ok 2049000 := rfl
  cases hvalue.symm.trans hn
  exact ⟨hvalue, hlater (-1) (by decide), (hnear (by decide)).resolve_left (by decide)⟩

theorem validate_london : h.validate .london work parent = validateWithFee .london work h parent :=
  rfl

/-- In London the gas limit of a valid header is not too low and near its parent's, since the base fee
is not computed otherwise. The first header with a base fee has its fee without a computation, and is
valid with any limit that covers the gas used. -/
theorem gas_limit_near_parent (work : WorkCheck) (h parent : Header)
    (hvalid : h.validate .london work parent = .ok ()) :
    (h.number ≠ feeNumber → 5000 ≤ h.gasLimit ∧
      parent.gasLimit - parent.gasLimit / 1024 < h.gasLimit ∧
      h.gasLimit < parent.gasLimit + parent.gasLimit / 1024) ∧
    (h.number = feeNumber → ∀ limit, h.gasUsed ≤ limit → work { h with gasLimit := limit } = .ok () →
      { h with gasLimit := limit }.validate .london work parent = .ok ()) := by
  rw [validate_london, validateWithFee_ok_iff, checkFee_ok_iff] at hvalid
  obtain ⟨⟨-, parentFee, fee, hbefore, hexpected, hown⟩, hsuccession, hextra, hdifficulty, hparent,
    -⟩ := hvalid
  refine ⟨fun hn => ?_, fun hn limit hused hwork => ?_⟩
  · rw [decide_eq_false hn] at hexpected
    obtain ⟨_, hlimit, -⟩ := of_except_ok hexpected
    have hnear := Rejection.of_check_ok hlimit
    simp only [Fee.gasLimitOk, Bool.and_eq_true, decide_eq_true_eq] at hnear
    omega
  · rw [decide_eq_true hn] at hexpected
    rw [validate_london, validateWithFee_ok_iff, checkFee_ok_iff]
    refine ⟨⟨hused, parentFee, fee, hbefore, ?_, hown⟩, hsuccession, hextra, hdifficulty, hparent,
      hwork⟩
    rwa [decide_eq_true hn]

def halfFull (number : Nat) : Header :=
  { (default : Header) with
    ommersHash := emptyOmmersHash
    difficulty := 131072
    number := number
    gasLimit := 10000
    gasUsed := 5000
    timestamp := 1
    baseFee? := some Fee.initial }

def afterHalfFull (number limit : Nat) : Header :=
  { (default : Header) with
    parentHash := (halfFull number).hash
    difficulty := 1073872896
    number := number + 1
    gasLimit := limit
    timestamp := 10
    baseFee? := some Fee.initial }

theorem validate_afterHalfFull {number limit : Nat}
    (hfee : checkFee .london (afterHalfFull number limit) (halfFull number) = .ok ())
    (hdifficulty : Difficulty.expected .london (number + 1) 10 1 131072 false = .ok 1073872896) :
    (afterHalfFull number limit).validate .london .none (halfFull number) = .ok () := by
  have htime : (halfFull number).timestamp.toNat < (afterHalfFull number limit).timestamp.toNat :=
    show 1 < 10 by decide
  have hnone : decide ((halfFull number).ommersHash ≠ emptyOmmersHash) = false :=
    decide_eq_false (not_not.mpr rfl)
  rw [validate_london, validateWithFee_ok_iff, checkSuccession_ok_iff, checkDifficulty_ok_iff,
    checkParentHash_ok_iff, hnone]
  exact ⟨hfee, ⟨htime, rfl⟩, rfl, hdifficulty, rfl, rfl⟩

/-- The greatest limit of the second header with a base fee. -/
theorem gas_limit_near_parent_second :
    (afterHalfFull feeNumber 10008).validate .london .none (halfFull feeNumber) = .ok () ∧
      5000 ≤ 10008 ∧ 10000 - 10000 / 1024 < 10008 ∧ 10008 < 10000 + 10000 / 1024 := by
  have hvalid : (afterHalfFull feeNumber 10008).validate .london .none (halfFull feeNumber) = .ok () :=
    validate_afterHalfFull rfl rfl
  exact ⟨hvalid, (gas_limit_near_parent .none _ _ hvalid).1 (by decide)⟩

/-- The first header with a base fee may allow for no gas at all. -/
theorem gas_limit_unchecked : ∃ h parent : Header, h.number = feeNumber ∧
    h.validate .london .none parent = .ok () ∧ h.gasLimit < 5000 ∧
    Fee.gasLimitOk h.gasLimit (2 * parent.gasLimit) = false :=
  ⟨afterHalfFull (feeNumber - 1) 0, halfFull (feeNumber - 1), rfl, validate_afterHalfFull rfl rfl,
    by decide, by decide⟩

end Header

end ExecutionLayer
