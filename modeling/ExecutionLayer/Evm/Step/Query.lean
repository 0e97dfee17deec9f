import ExecutionLayer.Crypto.Keccak
import ExecutionLayer.Evm.Exec

/-! # Instructions that look something up -/
namespace ExecutionLayer.Evm.Step
open Exec

def query (cost : Nat) (value : Exec Word) : Exec Unit := do
  chargeGas cost
  push (← value)
  next

def queryNat (value : Exec Nat) : Exec Unit := do
  chargeGas Gas.base
  pushNat (← value)
  next

def queryAccount (cost : Fork → Nat) (value : Account → Except Fault Word) : Exec Unit := do
  let address ← popAddress
  chargeGas (← accountAccessCost cost address)
  push (← ofExcept (value ((← state).account address)))
  next

def codeHash (a : Account) : Word := if a.isEmpty then 0 else keccak256 a.code

def selfBalance : Exec Unit :=
  query Gas.selfBalance do
    let address := (← message).currentTarget
    return ((← state).account address).balance

/-- The hash of one of the 256 blocks before the current one, otherwise zero. -/
def blockHashOf (env : Environment) (number : Nat) : Except Fault Word :=
  if env.number ≤ number then .ok 0
  else if Word.limit ≤ number + 256 then .error .overflow
  else if number + 256 < env.number then .ok 0
  else
    let back := env.number - number
    if env.blockHashes.length < back then .error .indexOutOfRange
    else .ok (env.blockHashes[env.blockHashes.length - back]?.getD 0)

def blockHash : Exec Unit := do
  let number ← popNat
  chargeGas Gas.blockHash
  push (← ofExcept (blockHashOf (← read) number))
  next

def blobHash : Exec Unit := do
  let index ← popNat
  chargeGas Gas.blobHash
  push ((← read).blobHashes[index]?.getD 0)
  next

def callDataLoad : Exec Unit := do
  let start ← popNat
  chargeGas Gas.veryLow
  push (.ofBytes ((← message).data.read start 32))
  next

end ExecutionLayer.Evm.Step
