import ExecutionLayer.ContractAddress
import ExecutionLayer.Evm.Create

/-! # Instructions that run other frames -/
namespace ExecutionLayer.Evm.Step
open Exec

/-- The precompiled contract whose touch outlasts a failed frame. -/
def stickyAddress : Address := 3

def addressUnion (a b : AddressSet) : AddressSet := b.foldl (fun s x => s.insert x) a

def setReturnData (b : Bytes) : Exec Unit := modifyFrame fun f => { f with returnData := b }

def absorb (child : Frame) : Exec Unit := do
  let fork ← fork
  let target := child.message.currentTarget
  let touchesTarget := (← state).existsAndIsEmpty target
  modifyFrame fun f =>
    { f with
      gasLeft := f.gasLeft + child.gasLeft
      logs := f.logs ++ child.logs
      refund := f.refund + child.refund
      accountsToDelete :=
        if fork = .daoFork then f.accountsToDelete
        else addressUnion f.accountsToDelete child.accountsToDelete
      touchedAccounts :=
        let touched := addressUnion f.touchedAccounts child.touchedAccounts
        if touchesTarget then touched.insert target else touched
      accessedAddresses := child.accessedAddresses
      accessedSlots := child.accessedSlots }

/-- Takes over from a frame that failed: what gas it left, and the one touch that stays. -/
def absorbFailure (child : Frame) : Exec Unit := do
  let touches :=
    child.touchedAccounts.contains stickyAddress ||
      (child.message.currentTarget = stickyAddress && (← state).existsAndIsEmpty stickyAddress)
  modifyFrame fun f =>
    { f with
      gasLeft := f.gasLeft + child.gasLeft
      touchedAccounts :=
        if touches then f.touchedAccounts.insert stickyAddress else f.touchedAccounts }

def childMessage (parent : Frame) : Message :=
  { parent.message with
    depth := parent.message.depth + 1
    accessedAddresses := parent.accessedAddresses
    accessedSlots := parent.accessedSlots
    deletedAbove := addressUnion parent.message.deletedAbove parent.accountsToDelete
    refundAbove := parent.message.refundAbove + parent.refund }

/-- The frame that an instruction asks for, and where the output of a call goes. -/
structure Pending where
  message : Message
  outputStart : Nat := 0
  outputSize : Nat := 0

/-- Takes over from the frame that was run: its gas, what it leaves, and a word that tells how it
went. -/
def Pending.resume (pending : Pending) (child : Frame) : Exec Unit := do
  if child.error.isSome then absorbFailure child else absorb child
  match pending.message.target with
  | none =>
    setReturnData (if child.error.isSome then child.output else ByteArray.empty)
    push (if child.error.isSome then 0 else pending.message.currentTarget.toWord)
  | some _ =>
    setReturnData child.output
    push (.ofBool child.error.isNone)
    writeMemory pending.outputStart (child.output.part 0 pending.outputSize)
  next

/-- Goes on without a frame, as if it had failed. -/
def decline : Exec (Option Pending) := do
  push 0
  next
  return none

def creationMessage (parent : Frame) (gas : Nat) (endowment : Word) (address : Address)
    (initCode : Bytes) : Message :=
  { childMessage parent with
    caller := parent.message.currentTarget
    target := none
    currentTarget := address
    gas := gas
    value := endowment
    data := ByteArray.empty
    codeAddress := none
    code := initCode
    shouldTransferValue := true
    isStatic := false }

def withdrawCreateGas : Exec Nat := do
  let gasLeft := (← frame).gasLeft
  let gas := if Fork.tangerineWhistle ≤ (← fork) then Gas.maxCallGas gasLeft else gasLeft
  modifyFrame fun f => { f with gasLeft := f.gasLeft - gas }
  return gas

/-- Asks for a contract at the given address. If the creator cannot create, its gas is kept; if the
address is taken, the gas is lost. -/
def createAt (endowment : Word) (address : Address) (start size : Nat) :
    Exec (Option Pending) := do
  let fork ← fork
  let initCode ← readMemory start size
  if Fork.shanghai ≤ fork && 2 * maxCodeSize < initCode.size then halt .outOfGas
  if Fork.berlin ≤ fork then
    let _ ← accessAccount address
  let gas ← withdrawCreateGas
  requireMutable
  setReturnData ByteArray.empty
  let m ← message
  let creator := (← state).account m.currentTarget
  if creator.balance.toNat < endowment.toNat || creator.nonce = maxNonce ||
      depthLimit < m.depth + 1 then
    addGas gas
    decline
  else if (← state).hasCodeOrNonce address then
    modifyState (·.incrementNonce m.currentTarget)
    decline
  else
    modifyState (·.incrementNonce m.currentTarget)
    return some { message := creationMessage (← frame) gas endowment address initCode }

def createCost (fork : Fork) (size : Nat) : Nat :=
  Gas.create + if Fork.shanghai ≤ fork then Gas.initCode size else 0

def create : Exec (Option Pending) := do
  let endowment ← pop
  let start ← popNat
  let size ← popNat
  chargeWithMemory (createCost (← fork) size) [(start, size)]
  let creator := (← message).currentTarget
  let address := contractAddress creator ((← state).account creator).nonce
  createAt endowment address start size

def create2 : Exec (Option Pending) := do
  let endowment ← pop
  let start ← popNat
  let size ← popNat
  let salt ← pop
  chargeWithMemory (createCost (← fork) size + Gas.keccakWord * (ceil32 size / 32)) [(start, size)]
  let address := saltedContractAddress (← message).currentTarget salt (← readMemory start size)
  createAt endowment address start size

/-- Where in memory a call's data is and where its output goes. -/
structure Ranges where
  (inputStart inputSize outputStart outputSize : Nat)

def Ranges.toList (r : Ranges) : List (Nat × Nat) :=
  [(r.inputStart, r.inputSize), (r.outputStart, r.outputSize)]

def popRanges : Exec Ranges := do
  let inputStart ← popNat
  let inputSize ← popNat
  let outputStart ← popNat
  let outputSize ← popNat
  return ⟨inputStart, inputSize, outputStart, outputSize⟩

structure Call where
  gas : Nat
  value : Word
  caller : Address
  target : Address
  codeAddress : Address
  transfersValue : Bool
  isStatic : Bool

def callMessage (parent : Frame) (c : Call) (data code : Bytes) : Message :=
  { childMessage parent with
    caller := c.caller
    target := some c.target
    currentTarget := c.target
    gas := c.gas
    value := c.value
    data := data
    codeAddress := some c.codeAddress
    code := code
    shouldTransferValue := c.transfersValue
    isStatic := c.isStatic || parent.message.isStatic }

/-- Asks for the frame of a call, unless that would be too deep. -/
def enter (c : Call) (r : Ranges) : Exec (Option Pending) := do
  setReturnData ByteArray.empty
  let parent ← frame
  if depthLimit < parent.message.depth + 1 then
    addGas c.gas
    decline
  else
    let data ← readMemory r.inputStart r.inputSize
    let code := ((← state).account c.codeAddress).code
    return some ⟨callMessage parent c data code, r.outputStart, r.outputSize⟩

def enterWithValue (c : Call) (r : Ranges) : Exec (Option Pending) := do
  if ((← state).account c.caller).balance.toNat < c.value.toNat then
    setReturnData ByteArray.empty
    addGas c.gas
    decline
  else enter c r

/-- Works out what a call costs. At first a callee got all the gas that was asked for. -/
def priceCall (gas value memoryCost : Nat) (codeAddress : Address) (createCost : Nat) :
    Exec Gas.CallGas := do
  let access ← accountAccessCost Gas.call codeAddress
  let extra := access + createCost + if value = 0 then 0 else Gas.callValue
  if (← fork) < Fork.tangerineWhistle then return Gas.callGasUnlimited value gas extra
  return Gas.callGas value gas (← frame).gasLeft memoryCost extra

def newAccountCost (fork : Fork) (s : State) (target : Address) (value : Word) : Nat :=
  if fork < Fork.spuriousDragon then if s.accountExists target then 0 else Gas.newAccount
  else if value = 0 || s.isAlive target then 0 else Gas.newAccount

def call : Exec (Option Pending) := do
  let gas ← popNat
  let target ← popAddress
  let value ← pop
  let r ← popRanges
  let extension ← memoryExtension r.toList
  let createCost := newAccountCost (← fork) (← state) target value
  let price ← priceCall gas value.toNat extension.cost target createCost
  chargeGas (price.cost + extension.cost)
  if value ≠ 0 then requireMutable
  expandMemory extension.expandBy
  let current := (← message).currentTarget
  enterWithValue ⟨price.stipend, value, current, target, target, true, false⟩ r

def callcode : Exec (Option Pending) := do
  let gas ← popNat
  let codeAddress ← popAddress
  let value ← pop
  let r ← popRanges
  let extension ← memoryExtension r.toList
  let current := (← message).currentTarget
  let createCost :=
    if (← fork) < Fork.tangerineWhistle && !(← state).accountExists current then Gas.newAccount
    else 0
  let price ← priceCall gas value.toNat extension.cost codeAddress createCost
  chargeGas (price.cost + extension.cost)
  expandMemory extension.expandBy
  enterWithValue ⟨price.stipend, value, current, current, codeAddress, true, false⟩ r

def delegatecall : Exec (Option Pending) := do
  let gas ← popNat
  let codeAddress ← popAddress
  let r ← popRanges
  let extension ← memoryExtension r.toList
  let price ← priceCall gas 0 extension.cost codeAddress 0
  chargeGas (price.cost + extension.cost)
  expandMemory extension.expandBy
  let m ← message
  enter ⟨price.stipend, m.value, m.caller, m.currentTarget, codeAddress, false, false⟩ r

def staticcall : Exec (Option Pending) := do
  let gas ← popNat
  let target ← popAddress
  let r ← popRanges
  let extension ← memoryExtension r.toList
  let price ← priceCall gas 0 extension.cost target 0
  chargeGas (price.cost + extension.cost)
  expandMemory extension.expandBy
  enter ⟨price.stipend, 0, (← message).currentTarget, target, target, true, true⟩ r

end ExecutionLayer.Evm.Step
