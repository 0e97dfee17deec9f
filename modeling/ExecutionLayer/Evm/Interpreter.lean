import ExecutionLayer.Evm.Precompile
import ExecutionLayer.Evm.Step

/-! # Running messages

A message is run in a snapshot of the world, to which the world returns if the frame fails. Frames
call each other up to a limited depth, which is what the recursion runs on; within a frame every
instruction but the last consumes gas, which bounds their number.
-/
namespace ExecutionLayer.Evm

def fetch : Exec (Option Step.Pending) := do
  let f := (← get).frame
  let byte := f.code.get f.pc
  match Opcode.decode (← Exec.fork) byte with
  | none => Exec.halt (.invalidOpcode byte)
  | some op =>
    Exec.trace (.opStart op)
    Step.execute op

def attend (runner : Runner) : Option Step.Pending → Exec Unit
  | none => Exec.trace .opEnd
  | some pending => do
    pending.resume (← Exec.onWorld (launch runner pending.message))
    Exec.trace .opEnd

def stepInstruction (runner : Runner) : Exec Unit := do attend runner (← fetch)

def runCode (runner : Runner) : Nat → Exec Unit
  | 0 => Exec.fault .brokenInvariant
  | fuel + 1 => do
    let f := (← get).frame
    if f.running && f.pc < f.code.size then
      stepInstruction runner
      runCode runner fuel
    else Exec.trace .codeEnd

/-- More than the number of instructions that can be paid with the gas. -/
def fuelFor (gas : Nat) : Nat := gas + 2

def runBody (runner : Runner) (message : Message) : Exec Unit := do
  match message.codeAddress.bind (Precompile.at? (← Exec.fork)) with
  | some contract =>
    Exec.trace .precompileStart
    contract.run
    Exec.trace .precompileEnd
  | none => runCode runner (fuelFor message.gas)

def runFrame (runner : Runner) : Runner := fun message => do
  let (frame, halt) ← WorldOp.attempt (.ofMessage message) (runBody runner message)
  match halt with
  | none => return frame
  | some h =>
    let (frame, _) ← WorldOp.attempt frame (Exec.trace (.halted h))
    return frame.fail (← WorldOp.fork) h

def transferValue (message : Message) : WorldOp Unit := do
  if (message.shouldTransferValue || (← WorldOp.fork) = .frontier) && message.value ≠ 0 then
    WorldOp.changeBalances
      (State.moveEther message.caller message.currentTarget message.value)

def openMessage (message : Message) : WorldOp Unit := do
  modify (·.begin)
  modify (·.modifyState (·.touch message.currentTarget))
  transferValue message

def runInSnapshot (runner : Runner) : Runner := fun message => do
  openMessage message
  let frame ← runFrame runner message
  WorldOp.step fun w => if frame.error.isSome then w.rollback else w.commit
  return frame

/-- Runs a message below which so many levels of frames are allowed, itself included. -/
def runWithin : Nat → Runner
  | 0 => fun _ => throw (.halt .stackDepthLimit)
  | levels + 1 => runInSnapshot (runWithin levels)

def runMessage : Runner := fun message => runWithin (depthLimit + 1 - message.depth) message

structure Outcome where
  gasLeft : Nat
  refund : Word
  logs : List Log
  accountsToDelete : AddressSet
  touchedAccounts : AddressSet
  error : Option Halt
  /-- The data returned; nothing if no code was run because the address was taken. -/
  output : Option Bytes
  accessedAddresses : AddressSet
  accessedSlots : Std.ExtTreeSet SlotKey

namespace Outcome
open Rlp (Value)

def addresses (s : AddressSet) : Value := .seq (s.toList.map .fixed)

def slot (k : SlotKey) : Value :=
  .seq [.fixed (k.extractLsb' 256 160 : Address), .fixed (k.setWidth 256 : Hash)]

def fields (fork : Fork) (o : Outcome) : List (String × Value) :=
  [("gas_left", .number o.gasLeft), ("refund_counter", .word o.refund),
    ("logs", .seq (o.logs.map Log.value)), ("accounts_to_delete", addresses o.accountsToDelete),
    ("output", (o.output.map .bytes).getD .absent)]
    ++ if fork < Fork.spuriousDragon then []
      else [("touched_accounts", addresses o.touchedAccounts)]

def accessFields (o : Outcome) : List (String × Value) :=
  [("accessed_addresses", addresses o.accessedAddresses),
    ("accessed_storage_keys", .seq (o.accessedSlots.toList.map slot))]

end Outcome

/-- The outcome if a contract's address is taken. -/
def Outcome.collision (message : Message) : Outcome where
  gasLeft := 0
  refund := 0
  logs := []
  accountsToDelete := ∅
  touchedAccounts := ∅
  error := some .addressCollision
  output := none
  accessedAddresses := message.accessedAddresses
  accessedSlots := message.accessedSlots

def Frame.finalRefund (f : Frame) : Except Fault Word :=
  if f.error.isSome then .ok 0
  else if f.refund < 0 then .error .overflow
  else Word.ofNat? f.refund.toNat

/-- The outcome of a frame. A frame that failed leaves only gas and output. -/
def Outcome.ofFrame (f : Frame) : Except Fault Outcome := do
  let refund ← f.finalRefund
  return {
    gasLeft := f.gasLeft
    refund := refund
    logs := if f.error.isSome then [] else f.logs
    accountsToDelete := if f.error.isSome then ∅ else f.accountsToDelete
    touchedAccounts := if f.error.isSome then ∅ else f.touchedAccounts
    error := f.error
    output := some f.output
    accessedAddresses := f.accessedAddresses
    accessedSlots := f.accessedSlots }

def conclude (message : Message) (frame : Frame) : WorldOp Outcome := do
  match Outcome.ofFrame frame with
  | .error f => throw (.fault f)
  | .ok outcome =>
    if message.gas < frame.gasLeft then throw (.fault .overflow)
    let event := .transactionEnd (message.gas - frame.gasLeft) frame.output frame.error
    let _ ← WorldOp.attempt frame (Exec.trace event)
    return outcome

def Message.isTaken (message : Message) (s : State) : Bool :=
  message.target.isNone && s.hasCodeOrNonce message.currentTarget

/-- Counts the account that was called as touched, if it is empty. -/
def Frame.touchTarget (frame : Frame) (s : State) : Option Address → Frame
  | none => frame
  | some target =>
    if s.existsAndIsEmpty target then
      { frame with touchedAccounts := frame.touchedAccounts.insert target }
    else frame

def runCall (message : Message) : WorldOp Outcome := do
  if message.isTaken (← get).state then return .collision message
  let frame ← launch runMessage message
  conclude message (frame.touchTarget (← get).state message.target)

/-- What a message from outside names. What a fork has no use for must not be named. -/
structure Request where
  caller : Address
  target : Option Address
  gas : Nat
  value : Word
  data : Bytes
  codeAddress : Option Address := none
  shouldTransferValue : Option Bool := none
  isStatic : Option Bool := none
  accessed : Option (List (Address × List Word)) := none

def Request.accesses (r : Request) : List (Address × List Word) := r.accessed.getD []

def Request.isKnown (fork : Fork) (r : Request) : Bool :=
  (r.shouldTransferValue.isNone || Fork.homestead ≤ fork) &&
    (r.isStatic.isNone || Fork.byzantium ≤ fork) &&
    (r.accessed.isNone || Fork.berlin ≤ fork)

def Request.initialAddresses (fork : Fork) (r : Request) (currentTarget : Address) : AddressSet :=
  if fork < Fork.berlin then ∅
  else
    let addresses := currentTarget :: r.caller ::
      (Precompile.available fork).map Precompile.address ++ r.accesses.map (·.1)
    addresses.foldl (fun s a => s.insert a) ∅

/-- Makes a message. A new contract's address is formed from the nonce that the caller had before
it was incremented for the transaction. -/
def Request.message (fork : Fork) (s : State) (r : Request) : Except Fault Message := do
  require (r.isKnown fork) .wrongType
  let slots := r.accesses.flatMap fun (address, keys) => keys.map (slotKey address)
  let shared : Message :=
    { (default : Message) with
      caller := r.caller
      target := r.target
      gas := r.gas
      value := r.value
      shouldTransferValue := r.shouldTransferValue.getD true
      isStatic := r.isStatic.getD false
      accessedSlots := slots.foldl (fun s k => s.insert k) ∅ }
  match r.target with
  | none =>
    let nonce := (s.account r.caller).nonce
    if nonce = 0 then throw .overflow
    let address := contractAddress r.caller (nonce - 1)
    return { shared with
      currentTarget := address
      codeAddress := r.codeAddress
      code := r.data
      accessedAddresses := r.initialAddresses fork address }
  | some target =>
    return { shared with
      currentTarget := target
      data := r.data
      codeAddress := some (r.codeAddress.getD target)
      code := (s.account target).code
      accessedAddresses := r.initialAddresses fork target }

end ExecutionLayer.Evm
