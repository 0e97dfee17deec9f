import ExecutionLayer.Proofs.Chain.History
import ExecutionLayer.Proofs.Chain.Rejected

/-! # The hashes of earlier blocks

While a block is applied, its code can ask for the hashes of the 256 blocks before it. A chain knows
them all, since each block that it keeps holds the hash of the block before.
-/
namespace ExecutionLayer

namespace Evm
variable {env : Environment} {m : Machine} {x y : Word} {f : Fault}

structure Machine.MayAsk (m : Machine) (x : Word) : Prop where
  top : m.frame.stack.back? = some x
  stack : m.frame.stack.size ≤ Exec.stackLimit
  paid : Gas.blockHash ≤ m.frame.gasLeft
  gas : m.frame.gasLeft < Word.limit
  untraced : m.world.tracer = none

def Machine.answered (m : Machine) (y : Word) : Machine :=
  { m with
    frame := { m.frame with
      stack := m.frame.stack.pop.push y
      gasLeft := m.frame.gasLeft - Gas.blockHash
      pc := m.frame.pc + 1 } }

theorem blockHash_of_ok (hm : m.MayAsk x) (h : Step.blockHashOf env x.toNat = .ok y) :
    Step.blockHash env m = .ok () (m.answered y) := by
  -- There is room for the hash where the number was.
  have hroom : m.frame.stack.pop.size < Exec.stackLimit := by
    obtain ⟨rest, hrest⟩ := Array.back?_eq_some_iff.mp hm.top
    have hle := hm.stack
    rw [hrest] at hle ⊢
    simpa using hle
  rw [Step.blockHash_of_some hm.untraced hm.gas hm.top, if_neg (Nat.not_lt.mpr hm.paid), h]
  exact bind_of_ok (Exec.push_of_lt y hroom) _

theorem fetch_of_blockHash (hop : m.opcode? env = some .blockhash) (hm : m.MayAsk x) :
    fetch env m = (Step.blockHash >>= fun _ => pure none) env m := by
  rw [fetch_of_some hop, bind_of_ok (trace_of_untraced hm.untraced _)]
  rfl

theorem fetch_hash (hop : m.opcode? env = some .blockhash) (hm : m.MayAsk x)
    (h : Step.blockHashOf env x.toNat = .ok y) : fetch env m = .ok none (m.answered y) := by
  rw [fetch_of_blockHash hop hm, bind_of_ok (blockHash_of_ok hm h)]
  rfl

theorem fetch_hash_error (hop : m.opcode? env = some .blockhash) (hm : m.MayAsk x)
    (h : Step.blockHashOf env x.toNat = .error f) : ∃ m', fetch env m = .error (.fault f) m' := by
  obtain ⟨m', hrun⟩ := Step.blockHash_error hm.untraced hm.gas hm.top hm.paid h
  rw [fetch_of_blockHash hop hm, bind_of_error hrun]
  exact ⟨m', rfl⟩

end Evm

namespace Chain
variable {fork : Fork} {work : WorkCheck} {c : Chain} {block b : Block} {l : List Block} {n : Nat}

theorem History.recentHashes (h : History fork work l c) : ∃ last, l.getLast? = some last ∧
    c.recentHashes = c.blocks.map (·.header.parentHash) ++ [last.header.hash] := by
  obtain ⟨last, hlast⟩ : ∃ last, l.getLast? = some last :=
    Option.ne_none_iff_exists'.mp fun hnone => h.ne_nil (List.getLast?_eq_none_iff.mp hnone)
  refine ⟨last, hlast, ?_⟩
  unfold Chain.recentHashes
  dsimp only
  rw [lastOnes_of_length_le (by rw [h.length_blocks]; omega), h.getLast?_blocks, hlast]

theorem History.recentHash (h : History fork work l c) (hb : l[n]? = some b)
    (hn : l.length ≤ n + 256) :
    l.length - n ≤ c.recentHashes.length ∧
      c.recentHashes[c.recentHashes.length - (l.length - n)]? = some b.header.hash := by
  obtain ⟨last, hlast, hhashes⟩ := h.recentHashes
  obtain ⟨hlt, rfl⟩ := List.getElem?_eq_some_iff.mp hb
  have hlen : c.recentHashes.length = min 255 l.length + 1 := by
    rw [hhashes, List.length_append, List.length_map, h.length_blocks, List.length_singleton]
  refine ⟨by omega, ?_⟩
  rw [hlen, hhashes]
  by_cases hend : n + 1 = l.length
  · -- The hash of the last block is computed from its header.
    rw [List.getLast?_eq_getElem?, ← hend, Nat.add_sub_cancel, hb] at hlast
    cases hlast
    rw [List.getElem?_append_right (by rw [List.length_map, h.length_blocks]; omega),
      List.length_map, h.length_blocks, show min 255 l.length + 1 - (l.length - n) -
        min 255 l.length = 0 by omega]
    rfl
  · -- The hash of an earlier block stands in its successor.
    have hsucc : l[n + 1]? = some l[n + 1] := List.getElem?_eq_getElem (by omega)
    rw [List.getElem?_append_left (by rw [List.length_map, h.length_blocks]; omega),
      List.getElem?_map, h.getElem?_blocks, show l.length - 255 +
        (min 255 l.length + 1 - (l.length - n)) = n + 1 by omega, hsucc, Option.map_some,
      h.parentHash hb hsucc]

/-- The hash of a block that is one of the latest 256 of a list, and zero for any other number. -/
def hashAt (l : List Block) (n : Nat) : Hash :=
  if l.length ≤ n + 256 then (l[n]?.map (·.header.hash)).getD 0 else 0

theorem History.blockHashOf (h : History fork work l c) (env : Evm.Environment)
    (hnumber : env.number = l.length) (hhashes : env.blockHashes = c.recentHashes) (n : Nat) :
    Evm.Step.blockHashOf env n =
      if n < l.length ∧ Word.limit ≤ n + 256 then .error .overflow else .ok (hashAt l n) := by
  unfold Evm.Step.blockHashOf hashAt
  rw [hnumber, hhashes]
  dsimp only
  by_cases hlt : n < l.length
  · rw [if_neg (Nat.not_le.mpr hlt)]
    by_cases hfar : Word.limit ≤ n + 256
    · rw [if_pos hfar, if_pos ⟨hlt, hfar⟩]
    have hnot : ¬(n < l.length ∧ Word.limit ≤ n + 256) := fun hand => hfar hand.2
    rw [if_neg hfar, if_neg hnot]
    by_cases hback : n + 256 < l.length
    · rw [if_pos hback, if_neg (Nat.not_le.mpr hback)]
    have hn := Nat.le_of_not_lt hback
    have hb : l[n]? = some l[n] := List.getElem?_eq_getElem hlt
    obtain ⟨hlen, hhash⟩ := h.recentHash hb hn
    rw [if_neg hback, if_neg (Nat.not_lt.mpr hlen), hhash, if_pos hn, hb]
    rfl
  · have hge := Nat.le_of_not_lt hlt
    have hnot : ¬(n < l.length ∧ Word.limit ≤ n + 256) := fun hand => hlt hand.1
    rw [if_pos hge, if_neg hnot, List.getElem?_eq_none hge]
    split <;> rfl

/-- A chain keeps at most 255 blocks, at least one, each the successor of the one before. While a
block on top of it is applied, an instruction that asks for a hash, in a transaction as in a call
of the system, is answered with that of the block that has the number, if it is one of the latest
256, and otherwise with zero. It overflows if the number is below the block's own, but 256 cannot be
added to it. -/
theorem recent_hashes_known (h : History fork work l c) :
    c.blocks ≠ [] ∧ c.blocks.length ≤ 255 ∧ c.blocks.IsChain Block.Follows ∧
    (∀ (n : Nat) (b : Block), l[n]? = some b → b.header.number = n) ∧
    ∀ block, checkBlock fork work c.blocks block = .ok () → block.header.number = l.length ∧
      ∀ (a : Transaction.Approved) (m : Evm.Machine) (n : Word),
        let env := a.environment (environment fork c block.header)
        m.opcode? env = some .blockhash → m.MayAsk n →
        if n.toNat < l.length ∧ Word.limit ≤ n.toNat + 256 then
          ∃ m', Evm.fetch env m = .error (.fault .overflow) m'
        else Evm.fetch env m = .ok none (m.answered (hashAt l n.toNat)) := by
  refine ⟨?_, ?_, h.isChain_blocks, fun n b hb => h.number hb, fun block hc => ?_⟩
  · intro hnil
    have hlast := h.getLast?_blocks
    rw [hnil] at hlast
    exact h.ne_nil (List.getLast?_eq_none_iff.mp hlast.symm)
  · rw [h.length_blocks]
    exact Nat.min_le_left _ _
  · have hnumber := h.number_next hc
    refine ⟨hnumber, ?_⟩
    intro a m n env hop hm
    have hhashes : env.blockHashes = c.recentHashes := by
      simp only [env, Transaction.Approved.environment, environment]
    have hof := h.blockHashOf env hnumber hhashes n.toNat
    split
    · next hfar => exact Evm.fetch_hash_error hop hm (hof.trans (if_pos hfar))
    · next hnear => exact Evm.fetch_hash hop hm (hof.trans (if_neg hnear))

/-- The header of a block in which nothing happens. The fee is so low that it stays as it is. -/
def idleHeader (number : Nat) (parentHash : Hash) : Header where
  parentHash := parentHash
  ommersHash := emptyOmmersHash
  coinbase := 0
  stateRoot := ({} : State).hashAll keccak256
  transactionsRoot := Body.indexedRoot keccak256 []
  receiptRoot := Body.indexedRoot keccak256 []
  bloom := Bloom.ofLogs keccak256 []
  difficulty := 0
  number := number
  gasLimit := 5000
  gasUsed := 0
  timestamp := .ofNat 256 number
  extraData := .empty
  mixDigest := 0
  nonce := 0
  baseFee? := some 7

def idleBlock : Nat → Block
  | 0 => ⟨idleHeader 0 0, [], [], []⟩
  | n + 1 => ⟨idleHeader (n + 1) (idleBlock n).header.hash, [], [], []⟩

def idleBlocks (n : Nat) : List Block := (List.range (n + 1)).map idleBlock

def idleChain (n : Nat) : Chain := ⟨lastOnes 255 (idleBlocks n), {}, 1⟩

theorem idleBlock_header (n : Nat) : ∃ hash, (idleBlock n).header = idleHeader n hash := by
  cases n with
  | zero => exact ⟨0, rfl⟩
  | succ n => exact ⟨_, rfl⟩

theorem idleBlocks_succ (n : Nat) : idleBlocks (n + 1) = idleBlocks n ++ [idleBlock (n + 1)] := by
  unfold idleBlocks
  rw [List.range_succ, List.map_append, List.map_singleton]

theorem blockBack_idleChain (n : Nat) : blockBack (idleChain n).blocks 0 = .ok (idleBlock n) := by
  have hlast : (idleChain n).blocks.getLast? = some (idleBlock n) := by
    rw [idleChain, getLast?_lastOnes (by decide)]
    cases n with
    | zero => rfl
    | succ n => rw [idleBlocks_succ, List.getLast?_concat]
  have hpos : 0 < (idleChain n).blocks.length := by
    refine List.length_pos_of_ne_nil fun hnil => ?_
    rw [hnil] at hlast
    cases hlast
  unfold blockBack
  rw [if_pos hpos, Nat.sub_zero, ← List.getLast?_eq_getElem?, hlast]

theorem idleHeader_validate (work : WorkCheck) {n : Nat} (hn : n + 1 < Word.limit) (hash : Hash) :
    (idleHeader (n + 1) (idleHeader n hash).hash).validate .paris work (idleHeader n hash) =
      .ok () := by
  have htime (m : Nat) (hm : m < Word.limit) (hash : Hash) :
      (idleHeader m hash).timestamp.toNat = m :=
    (BitVec.toNat_ofNat _ _).trans (Nat.mod_eq_of_lt hm)
  refine Header.validate_of_late (by decide)
    (Header.checkFee_ok_iff.mpr ⟨Nat.zero_le _, 7, 7, rfl, ?_, rfl⟩)
    (Header.checkSuccession_ok_iff.mpr ⟨?_, rfl⟩) rfl rfl rfl rfl rfl
  · simp only [idleHeader]
    rfl
  · rw [htime _ hn, htime n (by omega)]
    exact Nat.lt_succ_self n

theorem checkBlock_idleBlock (work : WorkCheck) {n : Nat} (hn : n + 1 < Word.limit) :
    checkBlock .paris work (idleChain n).blocks (idleBlock (n + 1)) = .ok () := by
  obtain ⟨hash, hheader⟩ := idleBlock_header n
  have hvalid : (idleBlock (n + 1)).header.validate .paris work (idleBlock n).header = .ok () := by
    rw [idleBlock, hheader]
    exact idleHeader_validate work hn hash
  exact checkBlock_of_parent (by decide) (blockBack_idleChain n) hvalid

theorem body_idleBlock (c : Chain) (n : Nat) : ∃ summary,
    Body.apply (environment .paris c (idleBlock n).header) (content (idleBlock n)) {} =
      .ok summary {} ∧ announces .paris (idleBlock n).header summary = true := by
  obtain ⟨hash, hheader⟩ := idleBlock_header n
  have hcontent : content (idleBlock n) = {} := by
    cases n <;> rfl
  rw [hheader, hcontent, Body.apply_eq]
  refine ⟨⟨0, Body.indexedRoot keccak256 [], Body.indexedRoot keccak256 [],
    Bloom.ofLogs keccak256 [], ({} : State).hashAll keccak256, Body.indexedRoot keccak256 [], 0⟩,
    ?_, ?_⟩
  · let env := environment .paris c (idleHeader n hash)
    have hopen : Body.openBody env {} {} = .ok () {} := rfl
    have htransactions : Body.applyTransactions env {} {} = .ok ⟨5000, [], [], [], 0⟩ {} := rfl
    have hblobs : Body.checkBlobGas env ⟨5000, [], [], [], 0⟩ {} = .ok () {} := rfl
    have hclose (p : Body.Progress) : Body.closeBody env {} p {} =
        .ok (p.summary env {} (({} : State).hashAll keccak256)) {} := rfl
    rw [seq_of_ok hopen, seq_of_ok htransactions, seq_of_ok hblobs, hclose, Body.Progress.summary,
      show env.gasLimit - 5000 = 0 from Nat.sub_self 5000]
    rfl
  · simp only [announces, idleHeader, decide_true, Bool.true_and]
    rfl

theorem apply_idleBlock (work : WorkCheck) {n : Nat} (hn : n + 1 < Word.limit) :
    apply .paris work (idleBlock (n + 1)) (idleChain n) = .ok () (idleChain (n + 1)) := by
  obtain ⟨summary, hbody, ha⟩ := body_idleBlock (idleChain n) (n + 1)
  rw [apply_of_announced (checkBlock_idleBlock work hn) hbody ha]
  unfold append idleChain
  rw [idleBlocks_succ, lastOnes_concat _ _ _ (by decide)]

theorem history_idleChain (work : WorkCheck) {n : Nat} (hn : n < Word.limit) :
    History .paris work (idleBlocks n) (idleChain n) := by
  induction n with
  | zero => exact .first rfl rfl
  | succ n ih =>
    rw [idleBlocks_succ]
    exact .apply (ih (by omega)) (apply_idleBlock work hn)

def askingMachine (n : Word) : Evm.Machine where
  frame := { (Evm.Frame.ofMessage { (default : Evm.Message) with code := .ofList [0x40], gas := 20 })
    with stack := #[n] }
  world := { state := {} }

theorem askingMachine_mayAsk (n : Word) : (askingMachine n).MayAsk n :=
  ⟨rfl, show 1 ≤ 1024 by decide, show 20 ≤ 20 by decide, show 20 < Word.limit by decide, rfl⟩

/-- The third block is given the hash of the first one. -/
theorem recent_hashes_known_first :
    let env := (⟨0, 0, []⟩ : Transaction.Approved).environment
      (environment .paris (idleChain 1) (idleBlock 2).header)
    History .paris .none (idleBlocks 1) (idleChain 1) ∧
      Evm.fetch env (askingMachine 0) =
        .ok none ((askingMachine 0).answered (idleBlock 0).header.hash) := by
  intro env
  have hhistory : History .paris .none (idleBlocks 1) (idleChain 1) :=
    history_idleChain .none (by decide)
  obtain ⟨-, -, -, -, hnext⟩ := recent_hashes_known hhistory
  have hfetch := (hnext (idleBlock 2) (checkBlock_idleBlock .none (by decide))).2
    ⟨0, 0, []⟩ (askingMachine 0) 0 rfl (askingMachine_mayAsk 0)
  have hhash : hashAt (idleBlocks 1) (0 : Word).toNat = (idleBlock 0).header.hash := by
    rw [hashAt, if_pos (by decide)]
    rfl
  rw [if_neg (by decide), hhash] at hfetch
  exact ⟨hhistory, hfetch⟩

/-- A block whose number is the greatest word is not given the hash of the block below it. -/
theorem no_hash_of_latest : ∃ (l : List Block) (c : Chain) (block latest : Block) (n : Word),
    History .paris .none l c ∧ checkBlock .paris .none c.blocks block = .ok () ∧
      l[n.toNat]? = some latest ∧ block.header.number = n.toNat + 1 ∧
      ∃ m', Evm.fetch (environment .paris c block.header) (askingMachine n) =
        .error (.fault .overflow) m' := by
  obtain ⟨k, hk⟩ : ∃ k, k + 2 = Word.limit := ⟨Word.limit - 2, by decide⟩
  have htoNat : (BitVec.ofNat 256 k).toNat = k := by
    rw [BitVec.toNat_ofNat]
    exact Nat.mod_eq_of_lt (show k < Word.limit by omega)
  have hhistory : History .paris .none (idleBlocks k) (idleChain k) :=
    history_idleChain .none (by omega)
  have hchecked := checkBlock_idleBlock .none (show k + 1 < Word.limit by omega)
  have hlength : (idleBlocks k).length = k + 1 := by
    rw [idleBlocks, List.length_map, List.length_range]
  have hnumber : (idleBlock (k + 1)).header.number = k + 1 := rfl
  refine ⟨idleBlocks k, idleChain k, idleBlock (k + 1), idleBlock k, .ofNat 256 k, hhistory,
    hchecked, ?_, ?_, ?_⟩
  · rw [htoNat, idleBlocks, List.getElem?_map, List.getElem?_range (by omega)]
    rfl
  · rw [htoNat, hnumber]
  · have hof := hhistory.blockHashOf (environment .paris (idleChain k) (idleBlock (k + 1)).header)
      (hnumber.trans hlength.symm) (by simp only [environment])
      (BitVec.ofNat 256 k).toNat
    rw [if_pos ⟨by omega, by omega⟩] at hof
    exact Evm.fetch_hash_error rfl (askingMachine_mayAsk _) hof

end Chain

end ExecutionLayer
