import ExecutionLayer.Block.Basic
import ExecutionLayer.Receipt
import ExecutionLayer.State.Root
import ExecutionLayer.Transaction.Execution

/-! # Application of a block's body

The transactions are run one after the other, each on the state that the one before has left; then
rewards or withdrawals are paid. The results are summed up in roots and a bloom filter.
-/
namespace ExecutionLayer.Body

/-- The root of the trie that maps the encodings of 0, 1, 2, … to the given byte strings. -/
def indexedRoot (hash : Bytes → Hash) (values : List Bytes) : Hash :=
  Trie.Node.root hash <| Trie.build hash <|
    values.zipIdx.map fun (value, i) => (Trie.nibbles (Rlp.encode (.ofNat i)), value.toList)

structure Progress where
  gasAvailable : Nat
  transactions : List Bytes := []
  receipts : List Bytes := []
  logs : List Log := []
  blobGasUsed : Nat := 0

def receiptResult (fork : Fork) (error : Option Evm.Halt) : BlockOp Receipt.Result := do
  if fork < Fork.byzantium then return .root (← BlockOp.ofFault ((← get).root keccak256))
  return .succeeded error.isNone

def applyTransaction (env : Evm.Environment) (p : Progress) (e : Envelope) : BlockOp Progress := do
  let tx ← BlockOp.ofExcept (e.transaction env.fork)
  let (_, result) ← tx.execute env p.gasAvailable
  if p.gasAvailable < result.gasUsed then throw (.fault .overflow)
  let gasAvailable := p.gasAvailable - result.gasUsed
  let receipt := Receipt.make (← receiptResult env.fork result.error) (env.gasLimit - gasAvailable)
    result.logs
  return {
    gasAvailable := gasAvailable
    transactions := p.transactions ++ [tx.encode]
    receipts := p.receipts ++ [receipt.encode tx.type?]
    logs := p.logs ++ result.logs
    blobGasUsed := p.blobGasUsed + tx.blobGas }

def ether : Nat := 1000000000000000000

def reward (fork : Fork) : Nat :=
  if fork < Fork.byzantium then 5 * ether
  else if fork < Fork.constantinople then 3 * ether
  else 2 * ether

/-- The reward for an ommer, which falls with its age. -/
def ommerReward (fork : Fork) (number ommerNumber : Nat) : Except Fault Nat :=
  if number < ommerNumber || 8 < number - ommerNumber then .error .overflow
  else .ok ((8 - (number - ommerNumber)) * reward fork / 8)

def payRewards (env : Evm.Environment) (ommers : List Header) : BlockOp Unit := do
  let own := reward env.fork + ommers.length * (reward env.fork / 32)
  BlockOp.step (·.addBalance env.coinbase own)
  ommers.forM fun ommer => do
    let amount ← BlockOp.ofFault (ommerReward env.fork env.number ommer.number)
    BlockOp.step (·.addBalance ommer.coinbase amount)

/-- Pays a withdrawal. Nothing is left of an account that stays empty. -/
def payWithdrawal (w : Withdrawal) : BlockOp Unit := do
  BlockOp.step (·.withdraw w.address w.amount)
  modify (·.destroyEmpty [w.address])

def systemAddress : Address := 0xfffffffffffffffffffffffffffffffffffffffe

def beaconRootsAddress : Address := 0x000f3df6d732807ef1319fb7b8bb8522d0beac02

def systemGas : Nat := 30000000

/-- Hands the root of the parent's beacon block to the contract that keeps them. -/
def storeBeaconRoot (env : Evm.Environment) (root : Hash) : BlockOp Unit := do
  let env : Evm.Environment :=
    { env with
      caller := systemAddress
      origin := systemAddress
      gasPrice := env.baseFeePerGas
      blobHashes := [] }
  let message : Evm.Message :=
    { (default : Evm.Message) with
      caller := systemAddress
      target := some beaconRootsAddress
      currentTarget := beaconRootsAddress
      gas := systemGas
      data := fixedBytes root
      codeAddress := some beaconRootsAddress
      code := ((← get).account beaconRootsAddress).code
      shouldTransferValue := false }
  let outcome ← BlockOp.runMachine env (Evm.runCall message)
  modify (·.destroyEmpty outcome.touchedAccounts.toList)

structure Content where
  transactions : List Envelope := []
  ommers : List Header := []
  withdrawals : List Withdrawal := []
  beaconRoot : Hash := 0

structure Summary where
  gasUsed : Nat
  transactionsRoot : Hash
  receiptRoot : Hash
  bloom : Bloom
  stateRoot : Hash
  withdrawalsRoot : Hash
  blobGasUsed : Nat
deriving DecidableEq

def Summary.fields (fork : Fork) (s : Summary) : List (String × Rlp.Value) :=
  [("block_gas_used", .number s.gasUsed), ("transactions_root", .fixed s.transactionsRoot),
    ("receipt_root", .fixed s.receiptRoot), ("block_logs_bloom", .fixed s.bloom),
    ("state_root", .fixed s.stateRoot)]
    ++ (if Fork.shanghai ≤ fork then [("withdrawals_root", .fixed s.withdrawalsRoot)] else [])
    ++ if Fork.cancun ≤ fork then [("blob_gas_used", .number s.blobGasUsed)] else []

def Summary.schema (fork : Fork) : Rlp.Schema :=
  .record "ApplyBodyOutput" ([("block_gas_used", .natural), ("transactions_root", .fixedBytes 32),
    ("receipt_root", .fixedBytes 32), ("block_logs_bloom", .fixedBytes 256),
    ("state_root", .fixedBytes 32)]
    ++ (if Fork.shanghai ≤ fork then [("withdrawals_root", .fixedBytes 32)] else [])
    ++ if Fork.cancun ≤ fork then [("blob_gas_used", .natural)] else [])

def maxBlobGas : Nat := 786432

def applyTransactions (env : Evm.Environment) (content : Content) : BlockOp Progress :=
  content.transactions.foldlM (applyTransaction env) { gasAvailable := env.gasLimit }

def apply (env : Evm.Environment) (content : Content) : BlockOp Summary := do
  let fork := env.fork
  if Fork.cancun ≤ fork then storeBeaconRoot env content.beaconRoot
  let p ← applyTransactions env content
  if Fork.cancun ≤ fork then BlockOp.ofExcept (Rejection.check (p.blobGasUsed ≤ maxBlobGas))
  if fork < Fork.paris then payRewards env content.ommers
  if Fork.shanghai ≤ fork then content.withdrawals.forM payWithdrawal
  return {
    gasUsed := env.gasLimit - p.gasAvailable
    transactionsRoot := indexedRoot keccak256 p.transactions
    receiptRoot := indexedRoot keccak256 p.receipts
    bloom := Bloom.ofLogs keccak256 p.logs
    stateRoot := ← BlockOp.ofFault ((← get).root keccak256)
    withdrawalsRoot :=
      indexedRoot keccak256 (content.withdrawals.map fun w => Rlp.encodeToBytes w.item)
    blobGasUsed := p.blobGasUsed }

end ExecutionLayer.Body
