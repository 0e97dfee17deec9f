import ExecutionLayer.Ethash
import ExecutionLayer.Header.Basic
import ExecutionLayer.Header.Difficulty
import ExecutionLayer.Header.Fee

/-! # Validation of headers -/
namespace ExecutionLayer

abbrev WorkCheck := Header → Except Rejection Unit

def WorkCheck.none : WorkCheck := fun _ => .ok ()

def Header.work (params : Ethash.Parameters) (h : Header) : Except Fault (Bytes × Bytes) := do
  let cache ← Ethash.cache params Ethash.keccak h.number
  let size ← Ethash.datasetSize params h.number
  Ethash.hashimotoLight params Ethash.keccak h.workHash h.nonce cache size

/-- Asks for a result that is small enough for the difficulty. -/
def WorkCheck.ethash (params : Ethash.Parameters) : WorkCheck := fun h => do
  let (mix, result) ← Rejection.ofFault (h.work params)
  Rejection.check (mix = fixedBytes h.mixDigest)
  if h.difficulty = 0 then throw (.fault .divisionByZero)
  Rejection.check (result.toNat ≤ Word.limit / h.difficulty)

namespace Header
open Rejection (check ofFault)

def checkSuccession (h parent : Header) : Except Rejection Unit := do
  check (parent.timestamp.toNat < h.timestamp.toNat)
  check (h.number = parent.number + 1)

def checkExtraData (h : Header) : Except Rejection Unit := check (h.extraData.size ≤ 32)

def checkDifficulty (fork : Fork) (h parent : Header) : Except Rejection Unit := do
  let difficulty ← ofFault (Difficulty.expected fork h.number h.timestamp parent.timestamp
    parent.difficulty (parent.ommersHash ≠ emptyOmmersHash))
  check (h.difficulty = difficulty)

def checkParentHash (h parent : Header) : Except Rejection Unit :=
  check (h.parentHash = parent.hash)

/-- The number of the first block under the rules of the recovery, and a mark that ten blocks had
to bear. -/
def recoveryNumber : Nat := 1920000

def recoveryMark : Bytes := "dao-hard-fork".toUTF8

def checkMark (fork : Fork) (h : Header) : Except Rejection Unit :=
  check (fork ≠ .daoFork || h.number < recoveryNumber || recoveryNumber + 10 ≤ h.number ||
    h.extraData = recoveryMark)

def feeNumber : Nat := 12965000

/-- The rules for gas and base fee. The first block with a base fee is recognised by its number, in
the fork that introduced the fee only. -/
def checkFee (fork : Fork) (h parent : Header) : Except Rejection Unit := do
  check (h.gasUsed ≤ h.gasLimit)
  let parentFee ← ofFault parent.baseFee
  let fee ← Fee.expected h.gasLimit parent.gasLimit parent.gasUsed parentFee
    (fork = .london && h.number = feeNumber)
  check (fee = (← ofFault h.baseFee))

def validateEarly (fork : Fork) (work : WorkCheck) (h parent : Header) : Except Rejection Unit := do
  checkSuccession h parent
  check (Fee.gasLimitOk h.gasLimit parent.gasLimit)
  checkExtraData h
  checkDifficulty fork h parent
  checkParentHash h parent
  checkMark fork h
  work h

def validateWithFee (fork : Fork) (work : WorkCheck) (h parent : Header) :
    Except Rejection Unit := do
  checkFee fork h parent
  checkSuccession h parent
  checkExtraData h
  checkDifficulty fork h parent
  checkParentHash h parent
  work h

/-- The rules without proof of work, under which the fields for it have fixed values. -/
def validateWithoutWork (fork : Fork) (h parent : Header) : Except Rejection Unit := do
  checkFee fork h parent
  checkSuccession h parent
  checkExtraData h
  check (h.difficulty = 0)
  check (h.nonce = 0)
  check (h.ommersHash = emptyOmmersHash)
  checkParentHash h parent

def validate (fork : Fork) (work : WorkCheck) (h parent : Header) : Except Rejection Unit :=
  if fork < Fork.london then validateEarly fork work h parent
  else if fork < Fork.paris then validateWithFee fork work h parent
  else validateWithoutWork fork h parent

end Header

end ExecutionLayer
