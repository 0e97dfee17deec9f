import ExecutionLayer.Proofs.Chain.History
import ExecutionLayer.Proofs.Chain.Rejected
import ExecutionLayer.Proofs.Crypto.Keccak

/-! # Ommers

A block may reward up to two headers beside the chain, whose parents are recent blocks of the chain.
The rules look at seven blocks only. Since no ommer is older than six generations, they keep a
header from being rewarded twice on the whole chain.
-/
namespace ExecutionLayer

theorem of_forM_ok {ε α : Type} {f : α → Except ε Unit} {l : List α} (h : l.forM f = .ok ()) :
    ∀ a ∈ l, f a = .ok () := by
  induction l with
  | nil => exact fun a ha => absurd ha List.not_mem_nil
  | cons a l ih =>
    change (f a >>= fun _ => l.forM f) = .ok () at h
    obtain ⟨_, ha, hl⟩ := of_except_ok h
    rintro b (_ | ⟨_, hb⟩)
    · exact ha
    · exact ih hl b hb

namespace Chain
variable {fork : Fork} {work : WorkCheck} {c : Chain} {block b b' : Block} {l : List Block}
  {header ommer : Header} {i j : Nat}

theorem of_blockBack_ok {blocks : List Block} {n : Nat} (h : blockBack blocks n = .ok b) :
    n < blocks.length ∧ blocks[blocks.length - 1 - n]? = some b := by
  unfold blockBack at h
  split at h
  · next hn =>
    split at h
    · next b hb =>
      cases h
      exact ⟨hn, hb⟩
    · cases h
  · cases h

/-- The ommer is a recent header beside the chain of the given blocks, on which the next one may
build. -/
structure IsOmmer (l : List Block) (ommer : Header) : Prop where
  pos : 1 ≤ ommer.number
  below : ommer.number < l.length
  recent : l.length ≤ ommer.number + maxOmmerDepth
  parent : ∃ b, l[ommer.number - 1]? = some b ∧ ommer.parentHash = b.header.hash
  /-- It is none of the latest blocks. -/
  beside : ∀ (i : Nat) (b : Block), l[i]? = some b → l.length ≤ i + maxOmmerDepth + 1 →
    ommer.hash ≠ b.header.hash
  /-- None of the latest blocks has it as an ommer. -/
  new : ∀ (i : Nat) (b : Block), l[i]? = some b → l.length ≤ i + maxOmmerDepth + 1 →
    ∀ o ∈ b.ommers, ommer.hash ≠ o.hash

structure HasOmmers (l : List Block) (block : Block) : Prop where
  length : block.ommers.length ≤ 2
  nodup : (block.ommers.map Header.hash).Nodup
  isOmmer : ∀ ommer ∈ block.ommers, IsOmmer l ommer

theorem History.parent_of_checkOmmerHeader (h : History fork work l c)
    (hn : header.number = l.length) (hc : checkOmmerHeader fork work c.blocks header ommer = .ok ())
    : 1 ≤ ommer.number ∧ ommer.number < l.length ∧
      ∃ b, l[ommer.number - 1]? = some b ∧ ommer.parentHash = b.header.hash := by
  obtain ⟨_, hrange, hc⟩ := of_except_ok hc
  obtain ⟨parent, hback, hvalid⟩ := of_except_ok hc
  have hrange := Rejection.of_check_ok hrange
  simp only [Bool.and_eq_true, decide_eq_true_eq] at hrange
  obtain ⟨hlt, hparent⟩ := of_blockBack_ok (Rejection.of_ofFault_ok hback)
  rw [h.length_blocks] at hlt hparent
  rw [h.getElem?_blocks] at hparent
  refine ⟨hrange.1, by omega, parent, ?_, (Header.of_validate_ok hvalid).2⟩
  rw [← hparent]
  congr 1
  omega

theorem mem_lastOnes_of_getElem? {n : Nat} (hb : l[i]? = some b) (hi : l.length ≤ i + n) :
    b ∈ lastOnes n l := by
  refine List.mem_iff_getElem?.mpr ⟨i - (l.length - n), ?_⟩
  rw [getElem?_lastOnes, ← hb]
  congr 1
  omega

theorem of_checkOmmerPlace {recentBlocks recentOmmers : List Hash}
    (hc : checkOmmerPlace header recentBlocks recentOmmers ommer = .ok ()) :
    ommer.hash ∉ recentBlocks ∧ ommer.hash ∉ recentOmmers ∧
      header.number - ommer.number ≤ maxOmmerDepth := by
  obtain ⟨_, -, hc⟩ := of_except_ok hc
  obtain ⟨_, hblocks, hc⟩ := of_except_ok hc
  obtain ⟨_, hommers, hc⟩ := of_except_ok hc
  obtain ⟨_, hage, -⟩ := of_except_ok hc
  have hblocks := Rejection.of_check_ok hblocks
  have hommers := Rejection.of_check_ok hommers
  have hage := Rejection.of_check_ok hage
  simp only [Bool.not_eq_true', List.contains_eq_mem, decide_eq_false_iff_not] at hblocks hommers
  simp only [Bool.and_eq_true, decide_eq_true_eq] at hage
  exact ⟨hblocks, hommers, hage.2⟩

theorem History.hasOmmers_of_checkOmmers (h : History fork work l c)
    (hn : block.header.number = l.length)
    (hc : checkOmmers fork work c.blocks block.header block.ommers = .ok ()) :
    HasOmmers l block := by
  obtain ⟨_, -, hc⟩ := of_except_ok hc
  dsimp only at hc
  split at hc
  · next hnil =>
    rw [List.isEmpty_iff] at hnil
    refine ⟨?_, ?_, ?_⟩ <;> simp [hnil]
  · obtain ⟨_, hheaders, hc⟩ := of_except_ok hc
    obtain ⟨_, hlength, hc⟩ := of_except_ok hc
    obtain ⟨_, hnodup, hplaces⟩ := of_except_ok hc
    have hlength := Rejection.of_check_ok hlength
    have hnodup := Rejection.of_check_ok hnodup
    rw [decide_eq_true_eq] at hlength hnodup
    refine ⟨hlength, hnodup, fun ommer hmem => ?_⟩
    obtain ⟨hpos, hbelow, hparent⟩ := h.parent_of_checkOmmerHeader hn (of_forM_ok hheaders _ hmem)
    obtain ⟨hblocks, hommers, hage⟩ := of_checkOmmerPlace (of_forM_ok hplaces _ hmem)
    have hrecent (i : Nat) (b : Block) (hb : l[i]? = some b)
        (hi : l.length ≤ i + maxOmmerDepth + 1) : b ∈ lastOnes (maxOmmerDepth + 1) c.blocks := by
      rw [h.blocks, lastOnes_lastOnes (by decide)]
      exact mem_lastOnes_of_getElem? hb hi
    refine ⟨hpos, hbelow, by omega, hparent, fun i b hb hi heq => ?_, fun i b hb hi o ho heq => ?_⟩
    · exact hblocks (List.mem_map.mpr ⟨b, hrecent i b hb hi, heq.symm⟩)
    · exact hommers (List.mem_flatMap.mpr
        ⟨b, hrecent i b hb hi, List.mem_map.mpr ⟨o, ho, heq.symm⟩⟩)

theorem History.hasOmmers_next (h : History fork work l c) (hf : fork < Fork.paris)
    (hc : checkBlock fork work c.blocks block = .ok ()) : HasOmmers l block := by
  obtain ⟨_, -, -, hommers⟩ := of_checkBlock_ok hc
  rw [if_pos hf] at hommers
  exact h.hasOmmers_of_checkOmmers (h.number_next hc) hommers

theorem History.hasOmmers (h : History fork work l c) (hf : fork < Fork.paris) (hi : 1 ≤ i)
    (hb : l[i]? = some b) : HasOmmers (l.take i) b := by
  induction h with
  | first =>
    rw [List.getElem?_eq_none hi] at hb
    cases hb
  | @apply l c c' block h happly ih =>
    by_cases hlast : i = l.length
    · subst hlast
      rw [List.getElem?_concat_length] at hb
      cases hb
      rw [List.take_left]
      exact h.hasOmmers_next hf (of_apply_ok happly).1
    · have hlt : i < l.length := by
        have := (List.getElem?_eq_some_iff.mp hb).1
        rw [List.length_append, List.length_singleton] at this
        omega
      rw [List.getElem?_append_left hlt] at hb
      rw [List.take_append_of_le_length (Nat.le_of_lt hlt)]
      exact ih hb

/-! ## Headers are rewarded once -/

theorem length_take_of_getElem? (hb : l[i]? = some b) : (l.take i).length = i := by
  have hi := (List.getElem?_eq_some_iff.mp hb).1
  rw [List.length_take]
  omega

/-- An ommer is no block of the chain. An earlier one would be among the latest. -/
theorem History.ne_header_of_mem (h : History fork work l c) (hf : fork < Fork.paris) (hi : 1 ≤ i)
    (hb : l[i]? = some b) (ho : ommer ∈ b.ommers) (hb' : l[j]? = some b') : ommer ≠ b'.header := by
  rintro rfl
  have hommer := (h.hasOmmers hf hi hb).isOmmer _ ho
  have hbelow := hommer.below
  have hrecent := hommer.recent
  rw [length_take_of_getElem? hb, h.number hb'] at hbelow hrecent
  refine hommer.beside j b' ?_ ?_ rfl
  · rw [List.getElem?_take_of_lt hbelow, hb']
  · rw [length_take_of_getElem? hb]
    omega

/-- An ommer of a block is no ommer of a later one, which is at most five generations away if both
are young enough for it. -/
theorem History.not_mem_of_lt (h : History fork work l c) (hf : fork < Fork.paris) (hi : 1 ≤ i)
    (hij : i < j) (hb : l[i]? = some b) (hb' : l[j]? = some b') (ho : ommer ∈ b.ommers) :
    ommer ∉ b'.ommers := by
  intro ho'
  have hbelow := ((h.hasOmmers hf hi hb).isOmmer _ ho).below
  have hommer := (h.hasOmmers hf (by omega) hb').isOmmer _ ho'
  have hrecent := hommer.recent
  rw [length_take_of_getElem? hb] at hbelow
  rw [length_take_of_getElem? hb'] at hrecent
  refine hommer.new i b ?_ ?_ _ ho rfl
  · rw [List.getElem?_take_of_lt hij, hb]
  · rw [length_take_of_getElem? hb']
    omega

theorem IsOmmer.reward (h : IsOmmer l ommer) :
    ∃ amount, Body.ommerReward fork l.length ommer.number = .ok amount := by
  have hbelow := h.below
  have hrecent := h.recent
  unfold maxOmmerDepth at hrecent
  unfold Body.ommerReward
  rw [if_neg]
  · exact ⟨_, rfl⟩
  · simp only [Bool.or_eq_true, decide_eq_true_eq]
    omega

/-- On a chain with proof of work each block after the first has at most two ommers, which are one
to six generations older, build on blocks of the chain, are no blocks of the chain themselves, and
are ommers of no other block. The reward is defined for each ommer with which a block on top of the
chain comes to it. -/
theorem ommers_rewarded_once (h : History fork work l c) (hf : fork < Fork.paris) :
    (∀ (i : Nat) (b : Block), 1 ≤ i → l[i]? = some b →
      b.ommers.length ≤ 2 ∧ b.ommers.Nodup ∧ ∀ o ∈ b.ommers,
        o.number + 1 ≤ b.header.number ∧ b.header.number ≤ o.number + 6 ∧
        (∃ parent, l[o.number - 1]? = some parent ∧ parent.header.number + 1 = o.number ∧
          o.parentHash = parent.header.hash) ∧
        ∀ (j : Nat) (b' : Block), l[j]? = some b' →
          o ≠ b'.header ∧ (1 ≤ j → j ≠ i → o ∉ b'.ommers)) ∧
    ∀ block, checkBlock fork work c.blocks block = .ok () → ∀ o ∈ block.ommers,
      ∃ amount, Body.ommerReward fork block.header.number o.number = .ok amount := by
  refine ⟨fun i b hi hb => ?_, fun block hc o ho => ?_⟩
  · have hommers := h.hasOmmers hf hi hb
    refine ⟨hommers.length, hommers.nodup.of_map, fun o ho => ?_⟩
    have hommer := hommers.isOmmer o ho
    have hpos := hommer.pos
    have hbelow := hommer.below
    have hrecent := hommer.recent
    obtain ⟨parent, hparent, hhash⟩ := hommer.parent
    rw [length_take_of_getElem? hb] at hbelow hrecent
    rw [List.getElem?_take_of_lt (by omega)] at hparent
    rw [h.number hb]
    refine ⟨hbelow, hrecent, ⟨parent, hparent, ?_, hhash⟩, fun j b' hb' =>
      ⟨h.ne_header_of_mem hf hi hb ho hb', fun hj hne ho' => ?_⟩⟩
    · rw [h.number hparent]
      omega
    · rcases Nat.lt_or_gt_of_ne hne with hlt | hgt
      · exact h.not_mem_of_lt hf hj hlt hb' hb ho' ho
      · exact h.not_mem_of_lt hf hi hgt hb hb' ho ho'
  · rw [h.number_next hc]
    exact ((h.hasOmmers_next hf hc).isOmmer o ho).reward

/-! ## A chain with an ommer -/

theorem apply_rewards {env : Evm.Environment} {ommers : List Header} {s s' : State}
    (hf : env.fork < Fork.paris) (hs : s'.snapshots = [])
    (hpay : Body.payRewards env ommers s = .ok () s') :
    Body.apply env { ommers := ommers } s =
      .ok ⟨0, Body.indexedRoot keccak256 [], Body.indexedRoot keccak256 [],
        Bloom.ofLogs keccak256 [], s'.hashAll keccak256, Body.indexedRoot keccak256 [], 0⟩ s' := by
  have hshanghai : ¬Fork.shanghai ≤ env.fork :=
    Nat.not_le_of_lt (Nat.lt_trans hf (show Fork.paris.rank < Fork.shanghai.rank by decide))
  have hcancun : ¬Fork.cancun ≤ env.fork :=
    Nat.not_le_of_lt (Nat.lt_trans hf (show Fork.paris.rank < Fork.cancun.rank by decide))
  have hopen : Body.openBody env { ommers := ommers } s = .ok () s := by
    rw [Body.openBody, if_neg hcancun]
    rfl
  have htransactions : Body.applyTransactions env { ommers := ommers } s =
      .ok ⟨env.gasLimit, [], [], [], 0⟩ s := rfl
  have hblobs (p : Body.Progress) : Body.checkBlobGas env p s = .ok () s := by
    rw [Body.checkBlobGas, if_neg hcancun]
    rfl
  have hget : (get : BlockOp State) s' = .ok s' s' := rfl
  have hroot : s'.root keccak256 = .ok (s'.hashAll keccak256) := by
    rw [State.root, hs]
    rfl
  rw [Body.apply_eq, seq_of_ok hopen, seq_of_ok htransactions, seq_of_ok (hblobs _), Body.closeBody,
    if_pos hf, seq_of_ok hpay, if_neg hshanghai]
  dsimp only
  rw [seq_of_ok hget, hroot]
  simp only [Body.Progress.summary, Nat.sub_self]
  rfl

def rootHeader : Header := { (default : Header) with difficulty := 131072, gasLimit := 5000 }

def emptyTrieRoot : Hash := 0x56e81f171bcc55a6ff8345e692c0f86e5b48e01b996cadc001622fb5e363b421

def secondHeader : Header :=
  { (default : Header) with
    parentHash := 0x93c2214754326264ba1e91e00b64457c73f4b4ee665841fd3525980a41843a8e
    ommersHash := 0x1dcc4de8dec75d7aab85b567b6ccd41ad312451b948a7413f0a142fd40d49347
    coinbase := 0xaa
    stateRoot := 0x31352289f8e57c1eed0f8eb339c5831e7c575e2beb41d99bed2ac4614a2d7425
    transactionsRoot := emptyTrieRoot
    receiptRoot := emptyTrieRoot
    bloom := 0
    difficulty := 131136
    number := 1
    gasLimit := 5000
    timestamp := 1 }

def sideHeader : Header :=
  { (default : Header) with
    parentHash := 0x93c2214754326264ba1e91e00b64457c73f4b4ee665841fd3525980a41843a8e
    coinbase := 0xaa
    difficulty := 131136
    number := 1
    gasLimit := 5000
    timestamp := 2 }

def thirdHeader : Header :=
  { (default : Header) with
    parentHash := 0x4ffd4d8b08611ea7e261b7f4a2171d7a17551df3c8b9a26659a4ab647278da98
    ommersHash := 0xfcaeeb90251cdedb77f48d606ad9b02cd418adaaa5569715020e97e6128a8d36
    coinbase := 0xaa
    stateRoot := 0xbaf8bccf6a5d9a51203aa42ceaf20cc1977be39d27ac3d9acaed0b7ced72fad6
    transactionsRoot := emptyTrieRoot
    receiptRoot := emptyTrieRoot
    bloom := 0
    difficulty := 131200
    number := 2
    gasLimit := 5000
    timestamp := 2 }

def rootBlock : Block := ⟨rootHeader, [], [], []⟩

def secondBlock : Block := ⟨secondHeader, [], [], []⟩

def thirdBlock : Block := ⟨thirdHeader, [], [sideHeader], []⟩

theorem hashes_mined : rootHeader.hash = secondHeader.parentHash ∧
    secondHeader.hash = thirdHeader.parentHash ∧
    sideHeader.hash = 0xc76e704ae74b9b7dfeddf4cc3318a9fe8fd6c6c6f86e9da7f0789218cbcfed38 ∧
    thirdHeader.hash = 0xe4ebc1b71d91cc333cd196acec8286c588705598a8c4c898295ef6d2209a4bec ∧
    ommersHash [] = secondHeader.ommersHash ∧
    ommersHash [sideHeader] = thirdHeader.ommersHash := by
  simp only [Header.hash, ommersHash, keccak256_eq_digest]
  decide +kernel

theorem rootHeader_hash : rootHeader.hash = secondHeader.parentHash := hashes_mined.1

theorem secondHeader_hash : secondHeader.hash = thirdHeader.parentHash := hashes_mined.2.1

theorem sideHeader_hash : sideHeader.hash =
    0xc76e704ae74b9b7dfeddf4cc3318a9fe8fd6c6c6f86e9da7f0789218cbcfed38 := hashes_mined.2.2.1

theorem thirdHeader_hash : thirdHeader.hash =
    0xe4ebc1b71d91cc333cd196acec8286c588705598a8c4c898295ef6d2209a4bec := hashes_mined.2.2.2.1

theorem ommersHash_nil : ommersHash [] = secondHeader.ommersHash := hashes_mined.2.2.2.2.1

theorem ommersHash_sideHeader : ommersHash [sideHeader] = thirdHeader.ommersHash :=
  hashes_mined.2.2.2.2.2

theorem secondBlock_checked : checkBlock .frontier .none [rootBlock] secondBlock = .ok () := by
  have hback : blockBack [rootBlock] 0 = .ok rootBlock := rfl
  have hvalid : secondHeader.validate .frontier .none rootHeader = .ok () :=
    Header.validate_of_early (by decide) rfl (by decide) rfl rfl (by decide) rfl rootHeader_hash.symm
  have hommers : checkOmmers .frontier .none [rootBlock] secondHeader [] = .ok () := by
    rw [checkOmmers, ommersHash_nil, decide_eq_true rfl]
    rfl
  exact Eq.trans (checkBlock_of_parent (by decide) hback hvalid) hommers

theorem sideHeader_checked :
    checkOmmers .frontier .none [rootBlock, secondBlock] thirdHeader [sideHeader] = .ok () := by
  have hforM {f : Header → Except Rejection Unit} (h : f sideHeader = .ok ()) :
      [sideHeader].forM f = .ok () := by
    change (f sideHeader >>= fun _ => pure ()) = _
    rw [h]
    rfl
  have hheader : checkOmmerHeader .frontier .none [rootBlock, secondBlock] thirdHeader sideHeader =
      .ok () := by
    have hrange : Rejection.check (1 ≤ sideHeader.number && sideHeader.number < thirdHeader.number) =
        .ok () := rfl
    have hparent : Rejection.ofFault (blockBack [rootBlock, secondBlock]
        (thirdHeader.number - sideHeader.number)) = .ok rootBlock := rfl
    rw [checkOmmerHeader, except_of_ok hrange, except_of_ok hparent]
    exact Header.validate_of_early (by decide) rfl (by decide) rfl rfl (by decide) rfl
      rootHeader_hash.symm
  have hplace : checkOmmerPlace thirdHeader [rootHeader.hash, secondHeader.hash] [] sideHeader =
      .ok () := by
    rw [checkOmmerPlace, sideHeader_hash, thirdHeader_hash, rootHeader_hash, secondHeader_hash]
    decide +kernel
  have hhash : Rejection.check (ommersHash [sideHeader] = thirdHeader.ommersHash) = .ok () := by
    rw [ommersHash_sideHeader, decide_eq_true rfl]
    rfl
  have hfew : Rejection.check ([sideHeader].length ≤ 2) = .ok () := rfl
  have hnodup : Rejection.check ([sideHeader].map Header.hash).Nodup = .ok () := by
    simp only [List.map_cons, List.map_nil, List.nodup_singleton, decide_true]
    rfl
  have hrecent : lastOnes (maxOmmerDepth + 1) [rootBlock, secondBlock] = [rootBlock, secondBlock] :=
    rfl
  have hblocks : [rootBlock, secondBlock].map (·.header.hash) =
      [rootHeader.hash, secondHeader.hash] := by
    simp only [List.map_cons, List.map_nil, rootBlock, secondBlock]
  have hommers : ([rootBlock, secondBlock].flatMap fun b => b.ommers.map Header.hash) = [] := by
    simp only [List.flatMap_cons, List.flatMap_nil, rootBlock, secondBlock, List.map_nil,
      List.append_nil]
  rw [checkOmmers, except_of_ok hhash, if_neg (show ¬[sideHeader].isEmpty = true by simp), hrecent,
    except_of_ok (hforM hheader), except_of_ok hfew, except_of_ok hnodup]
  dsimp only
  rw [hblocks, hommers]
  exact hforM hplace

theorem thirdBlock_checked :
    checkBlock .frontier .none [rootBlock, secondBlock] thirdBlock = .ok () := by
  have hback : blockBack [rootBlock, secondBlock] 0 = .ok secondBlock := rfl
  have hvalid : thirdHeader.validate .frontier .none secondHeader = .ok () :=
    Header.validate_of_early (by decide) rfl (by decide) rfl rfl (by decide) rfl secondHeader_hash.symm
  exact Eq.trans (checkBlock_of_parent (by decide) hback hvalid) sideHeader_checked

theorem indexedRoot_nil : Body.indexedRoot keccak256 [] = emptyTrieRoot := by
  rw [show keccak256 = Keccak.digest from funext keccak256_eq_digest]
  decide +kernel

theorem announces_of_rewards {header : Header} {s : State} (hgas : header.gasUsed = 0)
    (htransactions : header.transactionsRoot = emptyTrieRoot)
    (hreceipts : header.receiptRoot = emptyTrieRoot) (hbloom : header.bloom = 0)
    (hroot : s.hashAll Keccak.digest = header.stateRoot) :
    announces .frontier header ⟨0, Body.indexedRoot keccak256 [], Body.indexedRoot keccak256 [],
      Bloom.ofLogs keccak256 [], s.hashAll keccak256, Body.indexedRoot keccak256 [], 0⟩ = true := by
  have hlogs : Bloom.ofLogs keccak256 [] = 0 := rfl
  have hshanghai : Fork.frontier < Fork.shanghai := by decide
  have hcancun : Fork.frontier < Fork.cancun := by decide
  rw [← show keccak256 = Keccak.digest from funext keccak256_eq_digest] at hroot
  simp only [announces, hgas, htransactions, hreceipts, hbloom, indexedRoot_nil, hroot, hlogs,
    hshanghai, hcancun, decide_true, Bool.true_or, Bool.and_self]

theorem apply_of_rewards {s : State} (hc : checkBlock .frontier .none c.blocks block = .ok ())
    (hcontent : content block = { ommers := block.ommers }) (hs : c.state.snapshots = [])
    (hpay : Body.payRewards (environment .frontier c block.header) block.ommers c.state = .ok () s)
    (ha : announces .frontier block.header ⟨0, Body.indexedRoot keccak256 [],
      Body.indexedRoot keccak256 [], Bloom.ofLogs keccak256 [], s.hashAll keccak256,
      Body.indexedRoot keccak256 [], 0⟩ = true) :
    apply .frontier .none block c = .ok () (append { c with state := s } block) := by
  have hsnapshots : s.snapshots = [] := ((Body.firm_payRewards _ _).snapshots hpay).trans hs
  have hbody := apply_rewards (show Fork.frontier < Fork.paris by decide) hsnapshots hpay
  rw [← hcontent] at hbody
  exact apply_of_announced hc hbody ha

theorem history_mined : ∃ c, History .frontier .none [rootBlock, secondBlock, thirdBlock] c := by
  have hrun : (match Body.payRewards (environment .frontier ⟨[rootBlock], {}, 1⟩ secondHeader) []
        {} with
      | .ok _ s =>
        decide (s.hashAll Keccak.digest = secondHeader.stateRoot) &&
          match Body.payRewards (environment .frontier ⟨[rootBlock, secondBlock], s, 1⟩ thirdHeader)
            [sideHeader] s with
          | .ok _ s => decide (s.hashAll Keccak.digest = thirdHeader.stateRoot)
          | .error _ _ => false
      | .error _ _ => false) = true := by decide +kernel
  split at hrun
  · next s hpay =>
    rw [Bool.and_eq_true, decide_eq_true_eq] at hrun
    obtain ⟨hroot, hrun⟩ := hrun
    split at hrun
    · next s' hpay' =>
      rw [decide_eq_true_eq] at hrun
      have hfirst : History .frontier .none [rootBlock] ⟨[rootBlock], {}, 1⟩ := .first rfl rfl
      have happend : append ⟨[rootBlock], s, 1⟩ secondBlock = ⟨[rootBlock, secondBlock], s, 1⟩ := by
        rw [append, lastOnes_of_length_le (show 2 ≤ 255 by decide)]
        rfl
      have hsecond : apply .frontier .none secondBlock ⟨[rootBlock], {}, 1⟩ =
          .ok () (append ⟨[rootBlock], s, 1⟩ secondBlock) :=
        apply_of_rewards secondBlock_checked rfl rfl hpay
          (announces_of_rewards rfl rfl rfl rfl hroot)
      rw [happend] at hsecond
      have hs : s.snapshots = [] := (Body.firm_payRewards _ _).snapshots hpay
      have hthird : apply .frontier .none thirdBlock ⟨[rootBlock, secondBlock], s, 1⟩ =
          .ok () (append ⟨[rootBlock, secondBlock], s', 1⟩ thirdBlock) :=
        apply_of_rewards thirdBlock_checked rfl hs hpay'
          (announces_of_rewards rfl rfl rfl rfl hrun)
      exact ⟨_, (hfirst.apply hsecond).apply hthird⟩
    · cases hrun
  · cases hrun

/-- The third block has an ommer, which is rewarded this once. -/
theorem ommers_rewarded_once_side :
    ∃ c, History .frontier .none [rootBlock, secondBlock, thirdBlock] c ∧
      sideHeader ∈ thirdBlock.ommers ∧
      ∀ (j : Nat) (b : Block), [rootBlock, secondBlock, thirdBlock][j]? = some b →
        sideHeader ≠ b.header ∧ (1 ≤ j → j ≠ 2 → sideHeader ∉ b.ommers) := by
  obtain ⟨c, hc⟩ := history_mined
  have hmem : sideHeader ∈ thirdBlock.ommers := List.mem_singleton_self _
  obtain ⟨-, -, hommers⟩ := (ommers_rewarded_once hc (by decide)).1 2 thirdBlock (by decide) rfl
  exact ⟨c, hc, hmem, (hommers sideHeader hmem).2.2.2⟩

end Chain

end ExecutionLayer
