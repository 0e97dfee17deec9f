import ExecutionLayer.Crypto.Keccak
import ExecutionLayer.Evm.Exec

/-! # Instructions on memory -/
namespace ExecutionLayer.Evm.Step
open Exec

def wordCount (size : Nat) : Nat := ceil32 size / 32

def mload : Exec Unit := do
  let start ← popNat
  chargeWithMemory Gas.veryLow [(start, 32)]
  push (.ofBytes (← readMemory start 32))
  next

def mstore : Exec Unit := do
  let start ← popNat
  let value ← pop
  chargeWithMemory Gas.veryLow [(start, 32)]
  writeMemory start (fixedBytes value)
  next

def mstore8 : Exec Unit := do
  let start ← popNat
  let value ← pop
  chargeWithMemory Gas.veryLow [(start, 1)]
  writeMemory start (.ofList [value.toNat.toUInt8])
  next

def mcopy : Exec Unit := do
  let destination ← popNat
  let source ← popNat
  let size ← popNat
  chargeWithMemory (Gas.veryLow + Gas.copyWord * wordCount size)
    [(source, size), (destination, size)]
  writeMemory destination (← readMemory source size)
  next

def copy (source : Exec Bytes) : Exec Unit := do
  let destination ← popNat
  let start ← popNat
  let size ← popNat
  chargeWithMemory (Gas.veryLow + Gas.copyWord * wordCount size) [(destination, size)]
  writeMemory destination ((← source).read start size)
  next

def copyExternalCode : Exec Unit := do
  let address ← popAddress
  let destination ← popNat
  let start ← popNat
  let size ← popNat
  let access ← accountAccessCost Gas.external address
  chargeWithMemory (access + Gas.copyWord * wordCount size) [(destination, size)]
  writeMemory destination (((← state).account address).code.read start size)
  next

/-- Copies returned data, behind whose end nothing may be read. -/
def copyReturnData : Exec Unit := do
  let destination ← popNat
  let start ← popNat
  let size ← popNat
  let extension ← memoryExtension [(destination, size)]
  chargeGas (Gas.veryLow + Gas.copyWord * wordCount size + extension.cost)
  let returnData := (← frame).returnData
  if returnData.size < start + size then halt .outOfBoundsRead
  else
    expandMemory extension.expandBy
    writeMemory destination (returnData.part start (start + size))
    next

def keccak : Exec Unit := do
  let start ← popNat
  let size ← popNat
  chargeWithMemory (Gas.keccak + Gas.keccakWord * wordCount size) [(start, size)]
  push (keccak256 (← readMemory start size))
  next

def popMany : Nat → Exec (List Word)
  | 0 => return []
  | n + 1 => do
    let x ← pop
    let rest ← popMany n
    return x :: rest

def log (topicCount : Nat) : Exec Unit := do
  let start ← popNat
  let size ← popNat
  let topics ← popMany topicCount
  chargeWithMemory (Gas.log + Gas.logByte * size + Gas.logTopic * topicCount) [(start, size)]
  requireMutable
  let data ← readMemory start size
  modifyFrame fun f => { f with logs := f.logs ++ [⟨f.message.currentTarget, topics, data⟩] }
  next

end ExecutionLayer.Evm.Step
