import ExecutionLayer.Word

/-! # Transactions

All transactions have a nonce, a gas limit, a recipient or none, a value, data and a signature. The
four kinds differ in how they pay for gas and in what else they announce.
-/
namespace ExecutionLayer

/-- An announcement of slots that will be accessed. An encoding may lack one or both parts. -/
inductive AccessEntry where
  | complete (address : Address) (keys : List Word)
  | addressOnly (address : Address)
  | nothing
deriving DecidableEq, Repr, Inhabited

abbrev AccessList := List AccessEntry

inductive Transaction.Kind where
  | legacy (gasPrice : Nat) (v : Word)
  | accessList (chainId : BitVec 64) (gasPrice : Nat) (accessList : AccessList) (yParity : Word)
  | feeMarket (chainId : BitVec 64) (maxPriorityFee maxFee : Nat) (accessList : AccessList)
    (yParity : Word)
  | blob (chainId : BitVec 64) (maxPriorityFee maxFee : Nat) (accessList : AccessList)
    (maxBlobFee : Word) (blobHashes : List Hash) (yParity : Word)
deriving DecidableEq, Repr, Inhabited

structure Transaction where
  nonce : Word
  gas : Nat
  recipient : Option Address
  value : Word
  data : Bytes
  kind : Transaction.Kind
  r : Word
  s : Word
deriving DecidableEq, Inhabited

namespace Transaction

def accesses (tx : Transaction) : AccessList :=
  match tx.kind with
  | .legacy _ _ => []
  | .accessList _ _ l _ | .feeMarket _ _ _ l _ | .blob _ _ _ l _ _ _ => l

/-- The price of gas, which only the first two kinds name. -/
def gasPrice (tx : Transaction) : Except Fault Nat :=
  match tx.kind with
  | .legacy price _ | .accessList _ price _ _ => .ok price
  | _ => .error .missingComponent

def blobHashes (tx : Transaction) : List Hash :=
  match tx.kind with
  | .blob _ _ _ _ _ hashes _ => hashes
  | _ => []

def type? (tx : Transaction) : Option UInt8 :=
  match tx.kind with
  | .legacy _ _ => none
  | .accessList _ _ _ _ => some 1
  | .feeMarket _ _ _ _ _ => some 2
  | .blob _ _ _ _ _ _ _ => some 3

end Transaction

def AccessEntry.parts : AccessEntry → Except Fault (Address × List Word)
  | .complete address keys => .ok (address, keys)
  | _ => .error .invalidValue

end ExecutionLayer
