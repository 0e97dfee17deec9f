import ExecutionLayer.Activation
import ExecutionLayer.Proofs.Chain.Refusal

/-! # The first block of a fork

A fork that gives headers new fields reads them in the header of the parent, which lacks them if it
belongs to the fork before. So no block is accepted on top of a chain of the fork before London or
Cancun, and what stops the application of a block is not a rule.
-/
namespace ExecutionLayer

namespace Header
variable {fork : Fork} {work : WorkCheck} {h parent : Header}

/-- What the test of a header ends with if the parent has no base fee. The gas used is looked at
first. -/
def feelessRejection (h : Header) : Rejection :=
  if h.gasUsed ≤ h.gasLimit then .fault .missingComponent else .invalidBlock

theorem checkFee_of_feeless (hp : parent.baseFee? = none) :
    checkFee fork h parent = .error h.feelessRejection := by
  have hfee : Rejection.ofFault parent.baseFee = .error (.fault .missingComponent) := by
    rw [baseFee, hp]
    rfl
  unfold checkFee feelessRejection
  by_cases hgas : h.gasUsed ≤ h.gasLimit
  · have hcheck : Rejection.check (h.gasUsed ≤ h.gasLimit) = .ok () := if_pos (decide_eq_true hgas)
    rw [if_pos hgas, except_of_ok hcheck]
    exact except_of_error hfee _
  · have hcheck : Rejection.check (h.gasUsed ≤ h.gasLimit) = .error .invalidBlock :=
      if_neg (by simpa using hgas)
    rw [if_neg hgas]
    exact except_of_error hcheck _

theorem validate_of_feeless (hf : Fork.london ≤ fork) (hp : parent.baseFee? = none) :
    h.validate fork work parent = .error h.feelessRejection := by
  have hlate : ¬fork < Fork.london := Nat.not_lt.mpr hf
  rw [validate, if_neg hlate]
  split
  · exact except_of_error (checkFee_of_feeless hp) _
  · exact except_of_error (checkFee_of_feeless hp) _

theorem IsOf.baseFee?_eq_none (hh : h.IsOf fork) (hf : fork < Fork.london) : h.baseFee? = none := by
  have hsome := hh.baseFee
  have hearly : ¬Fork.london ≤ fork := Nat.not_le_of_lt hf
  rw [decide_eq_false hearly] at hsome
  exact Option.not_isSome_iff_eq_none.mp (by rw [hsome]; decide)

theorem IsOf.blob?_eq_none (hh : h.IsOf fork) (hf : fork < Fork.cancun) : h.blob? = none := by
  have hsome := hh.blob
  have hearly : ¬Fork.cancun ≤ fork := Nat.not_le_of_lt hf
  rw [decide_eq_false hearly] at hsome
  exact Option.not_isSome_iff_eq_none.mp (by rw [hsome]; decide)

end Header

theorem Block.isOf_of_nil {fork : Fork} {b : Block} (h : b.header.IsOf fork) (ho : b.ommers = []) :
    b.IsOf fork := by
  refine ⟨h, fun o hmem => ?_⟩
  rw [ho] at hmem
  exact absurd hmem List.not_mem_nil

namespace Chain
variable {fork : Fork} {work work' : WorkCheck} {c₀ c : Chain} {b block : Block}
  {blocks : List Block} {r : Rejection}

theorem blockBack_zero (h : blocks.getLast? = some b) : blockBack blocks 0 = .ok b := by
  have hpos : 0 < blocks.length := by
    refine List.length_pos_of_ne_nil fun hnil => ?_
    rw [hnil] at h
    cases h
  unfold blockBack
  rw [if_pos hpos, Nat.sub_zero, ← List.getLast?_eq_getElem?, h]

theorem getLast?_of_apply_ok (h : apply fork work b c₀ = .ok () c) :
    c.blocks.getLast? = some b := by
  rw [(of_apply_ok h).2.2, getLast?_lastOnes (by decide), List.getLast?_concat]

theorem apply_of_unchecked (h : checkBlock fork work c.blocks block = .error r) :
    apply fork work block c = .error r c := by
  rw [apply_eq, h]

theorem checkBlock_of_feeless (hb : blocks.getLast? = some b) (hfee : b.header.baseFee? = none) :
    checkBlock .london work blocks block = .error block.header.feelessRejection := by
  have hback : Rejection.ofFault (blockBack blocks 0) = .ok b := by
    rw [blockBack_zero hb]
    rfl
  rw [checkBlock, except_of_ok hback, if_neg (by decide)]
  exact except_of_error (Header.validate_of_feeless (by decide) hfee) _

theorem checkBlock_of_blobless (hb : blocks.getLast? = some b) (hblob : b.header.blob? = none) :
    checkBlock .cancun work blocks block = .error (.fault .missingComponent) := by
  have hback : Rejection.ofFault (blockBack blocks 0) = .ok b := by
    rw [blockBack_zero hb]
    rfl
  have hexcess :
      Rejection.ofFault (expectedExcess b.header) = .error (.fault .missingComponent) := by
    rw [expectedExcess, Header.blob, hblob]
    rfl
  rw [checkBlock, except_of_ok hback, if_pos (by decide)]
  exact except_of_error hexcess _

/-- Whatever block follows on the last one of Berlin, London ends with a missing component when it
tests the header, and so when it applies the block, unless more gas is used than allowed. Whatever
block follows on the last one of Shanghai, Cancun ends so when it applies the block, though it tests
the header by rules only. The chain stays as it was. -/
theorem stopped_at_boundary (work work' : WorkCheck) (b : Block) (c₀ c : Chain) :
    (apply .berlin work b c₀ = .ok () c → b.IsOf .berlin → ∀ block : Block,
      block.header.validate .london work' b.header = .error block.header.feelessRejection ∧
        apply .london work' block c = .error block.header.feelessRejection c) ∧
    (apply .shanghai work b c₀ = .ok () c → b.IsOf .shanghai → ∀ block : Block,
      apply .cancun work' block c = .error (.fault .missingComponent) c ∧
        (block.IsOf .cancun →
          RefusesUnless False (block.header.validate .cancun work' b.header))) := by
  refine ⟨fun h hb block => ?_, fun h hb block => ⟨?_, fun hblock => ?_⟩⟩
  · have hfee := hb.header.baseFee?_eq_none (by decide)
    exact ⟨Header.validate_of_feeless (by decide) hfee,
      apply_of_unchecked (checkBlock_of_feeless (getLast?_of_apply_ok h) hfee)⟩
  · have hblob := hb.header.blob?_eq_none (by decide)
    exact apply_of_unchecked (checkBlock_of_blobless (getLast?_of_apply_ok h) hblob)
  · rw [Header.validate, if_neg (by decide), if_neg (by decide)]
    exact Header.validateWithoutWork_refuses hblock.header (hb.header.baseFee_eq (by decide))
      (by decide)

def rewardedState : State := State.setBalance {} 0xaa (.ofNat 256 (2 * Body.ether))

def earlyHeader : Header :=
  { (default : Header) with
    ommersHash := emptyOmmersHash
    difficulty := 131072
    number := Header.feeNumber - 2
    gasLimit := 5000
    timestamp := 1 }

def lastEarlyHeader : Header :=
  { (default : Header) with
    parentHash := earlyHeader.hash
    ommersHash := emptyOmmersHash
    coinbase := 0xaa
    stateRoot := rewardedState.hashAll keccak256
    transactionsRoot := Body.indexedRoot keccak256 []
    receiptRoot := Body.indexedRoot keccak256 []
    bloom := Bloom.ofLogs keccak256 []
    difficulty := 137439084608
    number := Header.feeNumber - 1
    gasLimit := 5000
    timestamp := 2 }

def lastEarlyBlock : Block := ⟨lastEarlyHeader, [], [], []⟩

def earlyChain : Chain := ⟨[⟨earlyHeader, [], [], []⟩], {}, 1⟩

def firstFeeBlock : Block where
  header := { (default : Header) with
    number := Header.feeNumber, gasLimit := 5000, baseFee? := some Fee.initial }
  transactions := []
  ommers := []

theorem lastEarlyBlock_isOf : lastEarlyBlock.IsOf .berlin := Block.isOf_of_nil ⟨rfl, rfl, rfl⟩ rfl

theorem firstFeeBlock_isOf : firstFeeBlock.IsOf .london := Block.isOf_of_nil ⟨rfl, rfl, rfl⟩ rfl

theorem checkBlock_lastEarlyBlock :
    checkBlock .berlin .none earlyChain.blocks lastEarlyBlock = .ok () := by
  have hdifficulty : Difficulty.expected .berlin lastEarlyHeader.number lastEarlyHeader.timestamp
      earlyHeader.timestamp earlyHeader.difficulty (earlyHeader.ommersHash ≠ emptyOmmersHash) =
        .ok lastEarlyHeader.difficulty := by
    have hnone : decide (earlyHeader.ommersHash ≠ emptyOmmersHash) = false := by
      simp only [earlyHeader, ne_eq, not_true_eq_false, decide_false]
    rw [hnone]
    decide +kernel
  have hparent : lastEarlyHeader.parentHash = earlyHeader.hash := by
    simp only [lastEarlyHeader]
  have hvalid : lastEarlyHeader.validate .berlin .none earlyHeader = .ok () :=
    Header.validate_of_early (by decide) rfl (by decide) rfl rfl (by decide) hdifficulty hparent
  have hommers : Rejection.check (ommersHash [] = lastEarlyHeader.ommersHash) = .ok () := by
    have hhash : ommersHash [] = lastEarlyHeader.ommersHash := by
      simp only [lastEarlyHeader, ommersHash, emptyOmmersHash, List.map_nil]
    rw [decide_eq_true hhash]
    rfl
  exact Eq.trans (checkBlock_of_parent (by decide) rfl hvalid) (except_of_ok hommers _)

theorem apply_lastEarlyBlock : apply .berlin .none lastEarlyBlock earlyChain =
    .ok () (append { earlyChain with state := rewardedState } lastEarlyBlock) := by
  have hpay : Body.payRewards (environment .berlin earlyChain lastEarlyHeader) [] {} =
      .ok () rewardedState := rfl
  have hbody := apply_rewards (show Fork.berlin < Fork.paris by decide) rfl hpay
  refine apply_of_announced checkBlock_lastEarlyBlock hbody ?_
  have hshanghai : Fork.berlin < Fork.shanghai := by decide
  have hcancun : Fork.berlin < Fork.cancun := by decide
  simp only [announces, lastEarlyBlock, lastEarlyHeader, hshanghai, hcancun, decide_true,
    Bool.true_or]
  rfl

def lastBloblessHeader : Header :=
  { (default : Header) with
    parentHash := firstHeader.hash
    ommersHash := emptyOmmersHash
    stateRoot := ({} : State).hashAll keccak256
    transactionsRoot := Body.indexedRoot keccak256 []
    receiptRoot := Body.indexedRoot keccak256 []
    bloom := Bloom.ofLogs keccak256 []
    number := 1
    gasLimit := 5000000
    timestamp := 10
    baseFee? := some 7
    withdrawalsRoot? := some (Body.indexedRoot keccak256 []) }

def lastBloblessBlock : Block := ⟨lastBloblessHeader, [], [], []⟩

def firstBlobBlock : Block where
  header := { (default : Header) with
    number := 2, timestamp := 1710338135, baseFee? := some 7
    withdrawalsRoot? := some 0, blob? := some ⟨0, 0, 0⟩ }
  transactions := []
  ommers := []

theorem lastBloblessBlock_isOf : lastBloblessBlock.IsOf .shanghai :=
  Block.isOf_of_nil ⟨rfl, rfl, rfl⟩ rfl

theorem firstBlobBlock_isOf : firstBlobBlock.IsOf .cancun := Block.isOf_of_nil ⟨rfl, rfl, rfl⟩ rfl

theorem checkBlock_lastBloblessBlock :
    checkBlock .shanghai .none emptyChain.blocks lastBloblessBlock = .ok () := by
  have hvalid : lastBloblessHeader.validate .shanghai .none firstHeader = .ok () :=
    Header.validate_of_late (by decide) rfl rfl rfl rfl rfl rfl rfl
  exact checkBlock_of_parent (by decide) rfl hvalid

theorem apply_lastBloblessBlock : apply .shanghai .none lastBloblessBlock emptyChain =
    .ok () (append emptyChain lastBloblessBlock) := by
  have hbody : Body.apply (environment .shanghai emptyChain lastBloblessHeader) {} {} =
      .ok ⟨0, Body.indexedRoot keccak256 [], Body.indexedRoot keccak256 [],
        Bloom.ofLogs keccak256 [], ({} : State).hashAll keccak256,
        Body.indexedRoot keccak256 [], 0⟩ {} := rfl
  refine apply_of_announced checkBlock_lastBloblessBlock hbody ?_
  have hcancun : Fork.shanghai < Fork.cancun := by decide
  simp only [announces, lastBloblessBlock, lastBloblessHeader, hcancun, decide_true, Bool.true_or,
    Bool.or_true]
  rfl

/-- The first blocks with a base fee and with blobs. -/
theorem stopped_at_boundary_first :
    (∃ c, apply .berlin .none lastEarlyBlock earlyChain = .ok () c ∧
      apply .london .none firstFeeBlock c = .error (.fault .missingComponent) c) ∧
    ∃ c, apply .shanghai .none lastBloblessBlock emptyChain = .ok () c ∧
      apply .cancun .none firstBlobBlock c = .error (.fault .missingComponent) c ∧
      RefusesUnless False (firstBlobBlock.header.validate .cancun .none lastBloblessHeader) := by
  refine ⟨⟨_, apply_lastEarlyBlock, ?_⟩, _, apply_lastBloblessBlock, ?_⟩
  · exact ((stopped_at_boundary .none .none _ _ _).1 apply_lastEarlyBlock lastEarlyBlock_isOf
      firstFeeBlock).2
  · obtain ⟨happly, hvalidate⟩ := (stopped_at_boundary .none .none _ _ _).2 apply_lastBloblessBlock
      lastBloblessBlock_isOf firstBlobBlock
    exact ⟨happly, hvalidate firstBlobBlock_isOf⟩

/-- The first block of a fork may be neither accepted nor refused by a rule. -/
theorem boundary_not_crossed :
    (∃ b c₀ c block, apply .berlin .none b c₀ = .ok () c ∧ b.IsOf .berlin ∧ block.IsOf .london ∧
      block.header.number = Header.feeNumber ∧
      block.header.validate .london .none b.header = .error (.fault .missingComponent) ∧
      apply .london .none block c = .error (.fault .missingComponent) c) ∧
    ∃ b c₀ c block, apply .shanghai .none b c₀ = .ok () c ∧ b.IsOf .shanghai ∧
      block.IsOf .cancun ∧
      Fork.cancun.activation.isActive b.header.number b.header.timestamp.toNat = false ∧
      Fork.cancun.activation.isActive block.header.number block.header.timestamp.toNat = true ∧
      apply .cancun .none block c = .error (.fault .missingComponent) c := by
  refine ⟨⟨_, _, _, firstFeeBlock, apply_lastEarlyBlock, lastEarlyBlock_isOf, firstFeeBlock_isOf,
    rfl, Header.validate_of_feeless (by decide) rfl, ?_⟩, _, _, _, firstBlobBlock,
    apply_lastBloblessBlock, lastBloblessBlock_isOf, firstBlobBlock_isOf, by decide, by decide, ?_⟩
  · exact apply_of_unchecked (checkBlock_of_feeless (getLast?_of_apply_ok apply_lastEarlyBlock) rfl)
  · exact apply_of_unchecked
      (checkBlock_of_blobless (getLast?_of_apply_ok apply_lastBloblessBlock) rfl)

end Chain

end ExecutionLayer
