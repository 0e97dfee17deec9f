import ExecutionLayer.Evm.Interpreter
import ExecutionLayer.Proofs.Bytes

/-! # Instructions and their accesses to memory

Instructions read a range of the memory, write a string or extend the memory, and these three are a
parameter here. With accesses that are checked, one that goes wrong raises an alarm, so that
instructions which do the same with both make no wrong access.
-/
namespace ExecutionLayer.Evm

/-- How instructions get at the memory. -/
structure Port where
  read : Nat → Nat → Exec Bytes
  write : Nat → Bytes → Exec Unit
  expand : Nat → Exec Unit

/-- A string is put in place of another: the bytes of its range are its own, all others are as they
were, and there are no more and no fewer of them. -/
def Replaces (before : Bytes) (start : Nat) (value after : Bytes) : Prop :=
  after.size = before.size ∧ ∀ i < before.size, after.get i =
    if start ≤ i ∧ i < start + value.size then value.get (i - start) else before.get i

instance (before : Bytes) (start : Nat) (value after : Bytes) :
    Decidable (Replaces before start value after) := inferInstanceAs (Decidable (_ ∧ _))

namespace Port
open Exec

def direct : Port := ⟨readMemory, writeMemory, expandMemory⟩

/-- A range that is read has to be there as a whole, a string that is written has to replace just
its range, and the memory has to grow by whole words. -/
def checked (alarm : Stop) : Port where
  read start size := do
    let value ← readMemory start size
    if value.size = size then return value else throw alarm
  write start value := do
    let m ← get
    let m' := endOf (writeMemory start value (← readThe Environment) m)
    if Replaces m.frame.memory start value m'.frame.memory then writeMemory start value
    else throw alarm
  expand size := if 32 ∣ size then expandMemory size else throw alarm

end Port

namespace Step
open Exec
variable (port : Port)

def chargeVia (amount : Nat) (ranges : List (Nat × Nat)) : Exec Unit := do
  let extension ← memoryExtension ranges
  chargeGas (amount + extension.cost)
  port.expand extension.expandBy

def mloadVia : Exec Unit := do
  let start ← popNat
  chargeVia port Gas.veryLow [(start, 32)]
  push (.ofBytes (← port.read start 32))
  next

def mstoreVia : Exec Unit := do
  let start ← popNat
  let value ← pop
  chargeVia port Gas.veryLow [(start, 32)]
  port.write start (fixedBytes value)
  next

def mstore8Via : Exec Unit := do
  let start ← popNat
  let value ← pop
  chargeVia port Gas.veryLow [(start, 1)]
  port.write start (.ofList [value.toNat.toUInt8])
  next

def mcopyVia : Exec Unit := do
  let destination ← popNat
  let source ← popNat
  let size ← popNat
  chargeVia port (Gas.veryLow + Gas.copyWord * wordCount size)
    [(source, size), (destination, size)]
  port.write destination (← port.read source size)
  next

def copyVia (source : Exec Bytes) : Exec Unit := do
  let destination ← popNat
  let start ← popNat
  let size ← popNat
  chargeVia port (Gas.veryLow + Gas.copyWord * wordCount size) [(destination, size)]
  port.write destination ((← source).read start size)
  next

def copyExternalCodeVia : Exec Unit := do
  let address ← popAddress
  let destination ← popNat
  let start ← popNat
  let size ← popNat
  let access ← accountAccessCost Gas.external address
  chargeVia port (access + Gas.copyWord * wordCount size) [(destination, size)]
  port.write destination (((← state).account address).code.read start size)
  next

def copyReturnDataVia : Exec Unit := do
  let destination ← popNat
  let start ← popNat
  let size ← popNat
  let extension ← memoryExtension [(destination, size)]
  chargeGas (Gas.veryLow + Gas.copyWord * wordCount size + extension.cost)
  let returnData := (← frame).returnData
  if returnData.size < start + size then halt .outOfBoundsRead
  else
    port.expand extension.expandBy
    port.write destination (returnData.part start (start + size))
    next

def keccakVia : Exec Unit := do
  let start ← popNat
  let size ← popNat
  chargeVia port (Gas.keccak + Gas.keccakWord * wordCount size) [(start, size)]
  push (keccak256 (← port.read start size))
  next

def logVia (topicCount : Nat) : Exec Unit := do
  let start ← popNat
  let size ← popNat
  let topics ← popMany topicCount
  chargeVia port (Gas.log + Gas.logByte * size + Gas.logTopic * topicCount) [(start, size)]
  requireMutable
  let data ← port.read start size
  modifyFrame fun f => { f with logs := f.logs ++ [⟨f.message.currentTarget, topics, data⟩] }
  next

def setOutputVia : Exec Unit := do
  let start ← popNat
  let size ← popNat
  chargeVia port 0 [(start, size)]
  let output ← port.read start size
  modifyFrame fun f => { f with output := output }

def retVia : Exec Unit := do
  setOutputVia port
  finish

def revertVia : Exec Unit := do
  setOutputVia port
  halt .revert

def createAtVia (endowment : Word) (address : Address) (start size : Nat) :
    Exec (Option Pending) := do
  let fork ← fork
  let initCode ← port.read start size
  if Fork.shanghai ≤ fork && 2 * maxCodeSize < initCode.size then halt .outOfGas
  if Fork.berlin ≤ fork then
    let _ ← accessAccount address
  let gas ← withdrawCreateGas
  requireMutable
  setReturnData ByteArray.empty
  let m ← message
  let creator := (← state).account m.currentTarget
  if creator.balance.toNat < endowment.toNat || creator.nonce = maxNonce ||
      depthLimit < m.depth + 1 then
    addGas gas
    decline
  else if (← state).hasCodeOrNonce address then
    modifyState (·.incrementNonce m.currentTarget)
    decline
  else
    modifyState (·.incrementNonce m.currentTarget)
    return some { message := creationMessage (← frame) gas endowment address initCode }

def createVia : Exec (Option Pending) := do
  let endowment ← pop
  let start ← popNat
  let size ← popNat
  chargeVia port (createCost (← fork) size) [(start, size)]
  let creator := (← message).currentTarget
  let address := contractAddress creator ((← state).account creator).nonce
  createAtVia port endowment address start size

def create2Via : Exec (Option Pending) := do
  let endowment ← pop
  let start ← popNat
  let size ← popNat
  let salt ← pop
  chargeVia port (createCost (← fork) size + Gas.keccakWord * (ceil32 size / 32)) [(start, size)]
  let address := saltedContractAddress (← message).currentTarget salt (← port.read start size)
  createAtVia port endowment address start size

def enterVia (c : Call) (r : Ranges) : Exec (Option Pending) := do
  setReturnData ByteArray.empty
  let parent ← frame
  if depthLimit < parent.message.depth + 1 then
    addGas c.gas
    decline
  else
    let data ← port.read r.inputStart r.inputSize
    let code := ((← state).account c.codeAddress).code
    return some ⟨callMessage parent c data code, r.outputStart, r.outputSize⟩

def enterWithValueVia (c : Call) (r : Ranges) : Exec (Option Pending) := do
  if ((← state).account c.caller).balance.toNat < c.value.toNat then
    setReturnData ByteArray.empty
    addGas c.gas
    decline
  else enterVia port c r

def callVia : Exec (Option Pending) := do
  let gas ← popNat
  let target ← popAddress
  let value ← pop
  let r ← popRanges
  let extension ← memoryExtension r.toList
  let createCost := newAccountCost (← fork) (← state) target value
  let price ← priceCall gas value.toNat extension.cost target createCost
  chargeGas (price.cost + extension.cost)
  if value ≠ 0 then requireMutable
  port.expand extension.expandBy
  let current := (← message).currentTarget
  enterWithValueVia port ⟨price.stipend, value, current, target, target, true, false⟩ r

def callcodeVia : Exec (Option Pending) := do
  let gas ← popNat
  let codeAddress ← popAddress
  let value ← pop
  let r ← popRanges
  let extension ← memoryExtension r.toList
  let current := (← message).currentTarget
  let createCost :=
    if (← fork) < Fork.tangerineWhistle && !(← state).accountExists current then Gas.newAccount
    else 0
  let price ← priceCall gas value.toNat extension.cost codeAddress createCost
  chargeGas (price.cost + extension.cost)
  port.expand extension.expandBy
  enterWithValueVia port ⟨price.stipend, value, current, current, codeAddress, true, false⟩ r

def delegatecallVia : Exec (Option Pending) := do
  let gas ← popNat
  let codeAddress ← popAddress
  let r ← popRanges
  let extension ← memoryExtension r.toList
  let price ← priceCall gas 0 extension.cost codeAddress 0
  chargeGas (price.cost + extension.cost)
  port.expand extension.expandBy
  let m ← message
  enterVia port ⟨price.stipend, m.value, m.caller, m.currentTarget, codeAddress, false, false⟩ r

def staticcallVia : Exec (Option Pending) := do
  let gas ← popNat
  let target ← popAddress
  let r ← popRanges
  let extension ← memoryExtension r.toList
  let price ← priceCall gas 0 extension.cost target 0
  chargeGas (price.cost + extension.cost)
  port.expand extension.expandBy
  enterVia port ⟨price.stipend, 0, (← message).currentTarget, target, target, true, true⟩ r

def Pending.respondVia (pending : Pending) (child : Frame) : Exec Unit := do
  match pending.message.target with
  | none =>
    setReturnData (if child.error.isSome then child.output else ByteArray.empty)
    push (if child.error.isSome then 0 else pending.message.currentTarget.toWord)
  | some _ =>
    setReturnData child.output
    push (.ofBool child.error.isNone)
    port.write pending.outputStart (child.output.part 0 pending.outputSize)
  next

def Pending.resumeVia (pending : Pending) (child : Frame) : Exec Unit := do
  if child.error.isSome then absorbFailure child else absorb child
  pending.respondVia port child

def moveVia : Opcode → Exec Unit
  | .keccak => keccakVia port
  | .calldatacopy => copyVia port (return (← message).data)
  | .codecopy => copyVia port (return (← frame).code)
  | .extcodecopy => copyExternalCodeVia port
  | .returndatacopy => copyReturnDataVia port
  | .pop => dropTop
  | .mload => mloadVia port
  | .mstore => mstoreVia port
  | .mstore8 => mstore8Via port
  | .mcopy => mcopyVia port
  | .sload => sload
  | .sstore => sstore
  | .tload => tload
  | .tstore => tstore
  | .push n => pushImmediate n
  | .dup n => dup n
  | .swap n => swap n
  | .log n => logVia port n
  | op => lookUp op

def executeAloneVia : Opcode → Exec Unit
  | .stop => stop
  | .jump => jump
  | .jumpi => jumpi
  | .jumpdest => jumpdest
  | .ret => retVia port
  | .revert => revertVia port
  | .selfdestruct => selfdestruct
  | op => moveVia port op

def executeVia : Opcode → Exec (Option Pending)
  | .create => createVia port
  | .call => callVia port
  | .callcode => callcodeVia port
  | .delegatecall => delegatecallVia port
  | .create2 => create2Via port
  | .staticcall => staticcallVia port
  | op => do
    executeAloneVia port op
    return none

theorem executeVia_direct (op : Opcode) : executeVia .direct op = execute op := by
  cases op <;> rfl

end Step

section Steps
variable (port : Port)

def fetchVia : Exec (Option Step.Pending) := do
  let f := (← get).frame
  let byte := f.code.get f.pc
  match Opcode.decode (← Exec.fork) byte with
  | none => Exec.halt (.invalidOpcode byte)
  | some op =>
    Exec.trace (.opStart op)
    Step.executeVia port op

def attendVia (runner : Runner) : Option Step.Pending → Exec Unit
  | none => Exec.trace .opEnd
  | some pending => do
    pending.resumeVia port (← Exec.onWorld (launch runner pending.message))
    Exec.trace .opEnd

def stepVia (runner : Runner) : Exec Unit := do attendVia port runner (← fetchVia port)

end Steps

theorem fetchVia_direct : fetchVia .direct = fetch := by
  refine bind_congr fun m => bind_congr fun fork => ?_
  cases Opcode.decode fork (m.frame.code.get m.frame.pc) with
  | none => rfl
  | some op => exact bind_congr fun _ => Step.executeVia_direct op

theorem stepVia_direct (runner : Runner) : stepVia .direct runner = stepInstruction runner := by
  have hattend : attendVia .direct runner = attend runner := by
    funext pending
    cases pending <;> rfl
  unfold stepVia stepInstruction
  rw [fetchVia_direct, hattend]

end ExecutionLayer.Evm
