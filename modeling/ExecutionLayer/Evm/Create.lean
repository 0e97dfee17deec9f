import ExecutionLayer.Evm.Exec

/-! # Creation of contracts

The code of a creating message runs like any other. What it returns becomes the code of the new
account, if that can be paid.
-/
namespace ExecutionLayer.Evm

abbrev Runner := Message → WorldOp Frame

def maxCodeSize : Nat := 24576

def payDeposit : Exec Unit := do
  let fork ← Exec.fork
  let code := (← Exec.frame).output
  if Fork.london ≤ fork && code.size ≠ 0 && code.get 0 = 0xef then Exec.halt .invalidContractPrefix
  Exec.chargeGas (code.size * Gas.codeDepositByte)
  if Fork.spuriousDragon ≤ fork && maxCodeSize < code.size then Exec.halt .outOfGas

def prepareAccount (fork : Fork) (address : Address) (s : State) : State :=
  let s := if fork = .daoFork then s else s.destroyStorage address
  let s := if Fork.istanbul ≤ fork then s.markCreated address else s
  if Fork.spuriousDragon ≤ fork then s.incrementNonce address else s

def openCreation (message : Message) : WorldOp Unit := do
  let fork ← WorldOp.fork
  modify (·.begin)
  modify (·.modifyState (prepareAccount fork message.currentTarget))

/-- Gives a new account the code that its frame has returned. At first a contract whose code could
not be paid was left without code; since Homestead the creation fails. -/
def depositCode (message : Message) (frame : Frame) : WorldOp Frame := do
  let (frame, halt) ← WorldOp.attempt frame payDeposit
  match halt with
  | none =>
    modify (·.modifyState (·.setCode message.currentTarget frame.output))
    WorldOp.step (·.commit)
    return frame
  | some h =>
    let fork ← WorldOp.fork
    if fork = .frontier then
      WorldOp.step (·.commit)
      return { frame with output := ByteArray.empty }
    else
      WorldOp.step (·.rollback)
      return frame.fail fork h

def runCreate (runner : Runner) : Runner := fun message => do
  openCreation message
  let frame ← runner message
  if frame.error.isSome then
    WorldOp.step (·.rollback)
    return frame
  else depositCode message frame

def launch (runner : Runner) : Runner := fun message =>
  match message.target with
  | none => runCreate runner message
  | some _ => runner message

end ExecutionLayer.Evm
