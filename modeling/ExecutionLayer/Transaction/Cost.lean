import ExecutionLayer.Evm.Create
import ExecutionLayer.Transaction.Basic

/-! # What transactions cost before they run -/
namespace ExecutionLayer.Transaction

def baseCost : Nat := 21000

def createCost : Nat := 32000

def zeroByteCost : Nat := 4

def nonZeroByteCost (fork : Fork) : Nat := if Fork.istanbul ≤ fork then 16 else 68

def accessAddressCost : Nat := 2400

def accessKeyCost : Nat := 1900

def dataCost (fork : Fork) (data : Bytes) : Nat :=
  data.data.foldl (fun n b => n + if b = 0 then zeroByteCost else nonZeroByteCost fork) 0

def creationCost (fork : Fork) (tx : Transaction) : Nat :=
  if tx.recipient.isSome || fork < Fork.homestead then 0
  else if fork < Fork.shanghai then createCost
  else createCost + Evm.Gas.initCode tx.data.size

def accessListCost : AccessList → Except Fault Nat
  | [] => .ok 0
  | entry :: rest => do
    let (_, keys) ← entry.parts
    return accessAddressCost + keys.length * accessKeyCost + (← accessListCost rest)

/-- The gas that a transaction uses before any code runs. -/
def intrinsicCost (fork : Fork) (tx : Transaction) : Except Fault Nat := do
  return baseCost + dataCost fork tx.data + tx.creationCost fork + (← accessListCost tx.accesses)

def isValid (fork : Fork) (tx : Transaction) : Except Fault Bool := do
  let cost ← tx.intrinsicCost fork
  return cost ≤ tx.gas && tx.nonce.toNat < maxNonce &&
    (fork < Fork.shanghai || tx.recipient.isSome || tx.data.size ≤ 2 * Evm.maxCodeSize)

def blobGas (tx : Transaction) : Nat := Evm.Gas.perBlob * tx.blobHashes.length

/-- The fee for the blobs of a transaction. The price, which may be long in coming, is only asked
for if there are blobs. -/
def blobFee (excessBlobGas : Nat) (tx : Transaction) : Nat :=
  if tx.blobGas = 0 then 0 else tx.blobGas * Evm.Gas.blobPrice excessBlobGas

theorem blobFee_eq (excessBlobGas : Nat) (tx : Transaction) :
    tx.blobFee excessBlobGas = tx.blobGas * Evm.Gas.blobPrice excessBlobGas := by
  unfold blobFee
  split
  · next h => rw [h, Nat.zero_mul]
  · rfl

end ExecutionLayer.Transaction
