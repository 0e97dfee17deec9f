import ExecutionLayer.Block.Body
import ExecutionLayer.Dao
import ExecutionLayer.Header.Validation

/-! # Chains

A chain keeps its latest 255 blocks and the state after the last of them. A block that is rejected
is not appended, but what its body has done to the state before it was rejected is not undone.
-/
namespace ExecutionLayer

structure Chain where
  blocks : List Block
  state : State
  chainId : Nat

abbrev ChainOp := EStateM Rejection Chain

namespace Chain

def lastOnes {α : Type} (n : Nat) (l : List α) : List α := l.drop (l.length - n)

/-- The hashes of the latest blocks, the last one's last: each block but the last is known by the
hash that its successor holds. -/
def recentHashes (c : Chain) : List Hash :=
  let recent := lastOnes 255 c.blocks
  match recent.getLast? with
  | none => []
  | some last => recent.map (·.header.parentHash) ++ [last.header.hash]

def maxOmmerDepth : Nat := 6

/-- The block that is so many places before the last one. -/
def blockBack (blocks : List Block) (n : Nat) : Except Fault Block :=
  if n < blocks.length then
    match blocks[blocks.length - 1 - n]? with
    | some b => .ok b
    | none => .error .indexOutOfRange
  else .error .indexOutOfRange

def checkOmmerHeader (fork : Fork) (work : WorkCheck) (blocks : List Block)
    (header ommer : Header) : Except Rejection Unit := do
  Rejection.check (1 ≤ ommer.number && ommer.number < header.number)
  let parent ← Rejection.ofFault (blockBack blocks (header.number - ommer.number))
  ommer.validate fork work parent.header

/-- Tests the place of an ommer: it is new, recent, and a side branch of a recent block. -/
def checkOmmerPlace (header : Header) (recentBlocks recentOmmers : List Hash) (ommer : Header) :
    Except Rejection Unit := do
  let hash := ommer.hash
  Rejection.check (hash ≠ header.hash)
  Rejection.check !recentBlocks.contains hash
  Rejection.check !recentOmmers.contains hash
  let age := header.number - ommer.number
  Rejection.check (1 ≤ age && age ≤ maxOmmerDepth)
  Rejection.check (recentBlocks.contains ommer.parentHash)
  Rejection.check (ommer.parentHash ≠ header.parentHash)

def ommersHash (ommers : List Header) : Hash :=
  keccak256 (Rlp.encodeToBytes (.list (ommers.map Header.item)))

def checkOmmers (fork : Fork) (work : WorkCheck) (blocks : List Block) (header : Header)
    (ommers : List Header) : Except Rejection Unit := do
  Rejection.check (ommersHash ommers = header.ommersHash)
  if ommers.isEmpty then return
  ommers.forM (checkOmmerHeader fork work blocks header)
  Rejection.check (ommers.length ≤ 2)
  Rejection.check (ommers.map Header.hash).Nodup
  let recent := lastOnes (maxOmmerDepth + 1) blocks
  let recentBlocks := recent.map (·.header.hash)
  let recentOmmers := recent.flatMap fun b => b.ommers.map Header.hash
  ommers.forM (checkOmmerPlace header recentBlocks recentOmmers)

def expectedExcess (parent : Header) : Except Fault Nat := do
  let blob ← parent.blob
  Evm.Gas.nextExcess blob.excess.toNat blob.gasUsed.toNat

def checkBlock (fork : Fork) (work : WorkCheck) (blocks : List Block) (block : Block) :
    Except Rejection Unit := do
  let parent := (← Rejection.ofFault (blockBack blocks 0)).header
  if Fork.cancun ≤ fork then
    let excess ← Rejection.ofFault (expectedExcess parent)
    Rejection.check ((← Rejection.ofFault block.header.blob).excess.toNat = excess)
  block.header.validate fork work parent
  if fork < Fork.paris then checkOmmers fork work blocks block.header block.ommers
  else Rejection.check block.ommers.isEmpty

def environment (fork : Fork) (c : Chain) (h : Header) : Evm.Environment where
  fork := fork
  caller := 0
  origin := 0
  coinbase := h.coinbase
  number := h.number
  gasLimit := h.gasLimit
  gasPrice := 0
  time := h.timestamp
  difficulty := h.difficulty
  prevRandao := h.mixDigest
  chainId := c.chainId
  baseFeePerGas := h.baseFee?.getD 0
  excessBlobGas := (h.blob?.map (·.excess.toNat)).getD 0
  blockHashes := c.recentHashes
  blobHashes := []

def content (b : Block) : Body.Content where
  transactions := b.transactions
  ommers := b.ommers
  withdrawals := b.withdrawals
  beaconRoot := (b.header.blob?.map (·.parentBeaconRoot)).getD 0

/-- Whether a header announces what its body has led to. -/
def announces (fork : Fork) (h : Header) (s : Body.Summary) : Bool :=
  s.gasUsed = h.gasUsed && s.transactionsRoot = h.transactionsRoot && s.stateRoot = h.stateRoot &&
    s.receiptRoot = h.receiptRoot && s.bloom = h.bloom &&
    (fork < Fork.shanghai || h.withdrawalsRoot? = some s.withdrawalsRoot) &&
    (fork < Fork.cancun || (h.blob?.map (·.gasUsed.toNat)) = some s.blobGasUsed)

def onState {α : Type} (op : BlockOp α) : ChainOp α := fun c =>
  match op c.state with
  | .ok a s => .ok a { c with state := s }
  | .error e s => .error e { c with state := s }

def ofExcept {α : Type} : Except Rejection α → ChainOp α
  | .ok a => pure a
  | .error e => throw e

def append (c : Chain) (b : Block) : Chain := { c with blocks := lastOnes 255 (c.blocks ++ [b]) }

def apply (fork : Fork) (work : WorkCheck) (block : Block) : ChainOp Unit := do
  ofExcept (checkBlock fork work (← get).blocks block)
  let env := environment fork (← get) block.header
  let summary ← onState (Body.apply env (content block))
  ofExcept (Rejection.check (announces fork block.header summary))
  modify (·.append block)

def activate (fork : Fork) (c : Chain) : Except Fault Chain :=
  if fork = .daoFork then
    match Dao.apply c.state with
    | .ok _ s => .ok { c with state := s }
    | .error f _ => .error f
  else .ok c

end Chain

end ExecutionLayer
