import ExecutionLayer.Evm.Interpreter
import ExecutionLayer.Transaction.Cost
import ExecutionLayer.Transaction.Signature

/-! # Execution of transactions

A transaction is checked and its sender found, the gas is paid in advance, its message is run, and
what is left of the gas is paid back. What was done to the state before a rejection stays done.
-/
namespace ExecutionLayer

abbrev BlockOp := EStateM Rejection State

namespace BlockOp

def ofExcept {α : Type} : Except Rejection α → BlockOp α
  | .ok a => pure a
  | .error e => throw e

def ofFault {α : Type} (r : Except Fault α) : BlockOp α := ofExcept (Rejection.ofFault r)

def step (f : State → Except Fault State) : BlockOp Unit := do
  set (← ofFault (f (← get)))

/-- Changes balances, or leaves the state as it was. -/
def changeBalances (f : State → Except Fault State) : BlockOp Unit := fun s =>
  match f s with
  | .ok s => .ok () s
  | .error e => .error (.imbalance e) s

/-- Runs the machine on the state, with transient storage of its own. -/
def runMachine {α : Type} (env : Evm.Environment) (op : Evm.WorldOp α) : BlockOp α := fun s =>
  match op env { state := s } with
  | .ok a w => .ok a w.state
  | .error e w => .error (.stopped e) w.state

end BlockOp

namespace Transaction
open Rejection (check ofFault)

structure Approved where
  sender : Address
  gasPrice : Nat
  blobHashes : List Hash
deriving DecidableEq

def maxGasPrice (tx : Transaction) : Nat :=
  match tx.kind with
  | .legacy price _ | .accessList _ price _ _ => price
  | .feeMarket _ _ fee _ _ | .blob _ _ fee _ _ _ _ => fee

/-- The price of gas for the sender, of which the base fee is one part. -/
def effectivePrice (fork : Fork) (baseFee : Nat) (tx : Transaction) : Except Rejection Nat := do
  if fork < Fork.london then return tx.maxGasPrice
  match tx.kind with
  | .feeMarket _ priority fee _ _ | .blob _ priority fee _ _ _ _ =>
    check (priority ≤ fee)
    check (baseFee ≤ fee)
    return min priority (fee - baseFee) + baseFee
  | .legacy price _ | .accessList _ price _ _ =>
    check (baseFee ≤ price)
    return price

/-- The rules for blobs. Answers the highest fee for them. -/
def checkBlobs (excessBlobGas : Nat) (tx : Transaction) : Except Rejection Nat := do
  match tx.kind with
  | .blob _ _ _ _ maxFee hashes _ =>
    check tx.recipient.isSome
    check !hashes.isEmpty
    check (hashes.all fun h => (fixedBytes h).get 0 = 1)
    check (Evm.Gas.blobPrice excessBlobGas ≤ maxFee.toNat)
    return tx.blobGas * maxFee.toNat
  | _ => return 0

/-- The rules for the sender's account, which has to be able to pay all that may be asked. -/
def checkAccount (account : Account) (maxFee : Nat) (tx : Transaction) : Except Rejection Unit := do
  check (account.nonce = tx.nonce.toNat)
  check (maxFee + tx.value.toNat ≤ account.balance.toNat)
  check (account.code.size = 0)

def checkForm (fork : Fork) (tx : Transaction) : Except Rejection Unit := do
  check (← ofFault (tx.isValid fork))

/-- Since Cancun the form is checked in advance. -/
def checkEarly (env : Evm.Environment) (tx : Transaction) : Except Rejection Unit :=
  if Fork.cancun ≤ env.fork then tx.checkForm env.fork else .ok ()

/-- Since Cancun blobs and the sender's account are checked in advance. -/
def checkFunds (env : Evm.Environment) (s : State) (sender : Address) (tx : Transaction) :
    Except Rejection Unit :=
  if Fork.cancun ≤ env.fork then do
    let blobFee ← tx.checkBlobs env.excessBlobGas
    tx.checkAccount (s.account sender) (tx.gas * tx.maxGasPrice + blobFee)
  else .ok ()

/-- Checks a transaction in its block. Since Cancun this includes all that can be known before it
runs; earlier forks check form and account when they run it. -/
def approveBy (recover : Recovery) (env : Evm.Environment) (s : State) (gasAvailable : Nat)
    (tx : Transaction) : Except Rejection Approved := do
  tx.checkEarly env
  check (tx.gas ≤ gasAvailable)
  let sender ← tx.senderBy recover env.fork env.chainId
  let price ← tx.effectivePrice env.fork env.baseFeePerGas
  tx.checkFunds env s sender
  return ⟨sender, price, tx.blobHashes⟩

def approve (env : Evm.Environment) (s : State) (gasAvailable : Nat) (tx : Transaction) :
    Except Rejection Approved :=
  tx.approveBy Secp256k1.recover env s gasAvailable

def Approved.environment (a : Approved) (env : Evm.Environment) : Evm.Environment :=
  { env with
    caller := a.sender
    origin := a.sender
    gasPrice := a.gasPrice
    blobHashes := a.blobHashes }

structure Result where
  gasUsed : Nat
  logs : List Log
  /-- Why the outermost frame failed, which forks before Byzantium do not report. -/
  error : Option Evm.Halt

def blobDataFee (env : Evm.Environment) (tx : Transaction) : Nat :=
  if Fork.cancun ≤ env.fork then tx.blobFee env.excessBlobGas else 0

def takeFee (address : Address) (fee : Nat) (s : State) : Except Fault State :=
  let balance := (s.account address).balance.toNat
  if balance < fee then .error .overflow
  else .ok (s.setBalance address (.ofNat 256 (balance - fee)))

def payInAdvance (env : Evm.Environment) (tx : Transaction) : BlockOp Unit := do
  modify (·.incrementNonce env.origin)
  BlockOp.changeBalances
    (takeFee env.origin (tx.gas * env.gasPrice + tx.blobDataFee env))

def request (env : Evm.Environment) (gas : Nat) (tx : Transaction) :
    Except Fault Evm.Request := do
  let accesses ← tx.accesses.mapM AccessEntry.parts
  let warm := if Fork.shanghai ≤ env.fork then [(env.coinbase, [])] else []
  return {
    caller := env.origin
    target := tx.recipient
    gas := gas
    value := tx.value
    data := tx.data
    accessed := if Fork.berlin ≤ env.fork then some (warm ++ accesses) else none }

def refundQuotient (fork : Fork) : Nat := if Fork.london ≤ fork then 5 else 2

def gasRefund (env : Evm.Environment) (outcome : Evm.Outcome) (tx : Transaction) : Nat :=
  min ((tx.gas - outcome.gasLeft) / refundQuotient env.fork) outcome.refund.toNat

def gasUsed (env : Evm.Environment) (outcome : Evm.Outcome) (tx : Transaction) : Nat :=
  tx.gas - outcome.gasLeft - tx.gasRefund env outcome

def baseFee (env : Evm.Environment) : Nat := if Fork.london ≤ env.fork then env.baseFeePerGas else 0

/-- Sets the balance of the coinbase. Since Spurious Dragon nothing is left of an empty one. -/
def setCoinbase (env : Evm.Environment) (balance : Word) (s : State) : State :=
  if balance ≠ 0 || env.fork < Fork.spuriousDragon then s.setBalance env.coinbase balance
  else if s.existsAndIsEmpty env.coinbase then s.destroyAccount env.coinbase
  else s

def payCoinbase (env : Evm.Environment) (fee : Nat) (s : State) : Except Fault State := do
  return setCoinbase env (← Word.ofNat? ((s.account env.coinbase).balance.toNat + fee)) s

/-- Deletes the accounts that were marked for it and, since Spurious Dragon, the empty ones that
were touched. -/
def clearUp (env : Evm.Environment) (outcome : Evm.Outcome) (s : State) : State :=
  let s := outcome.accountsToDelete.toList.foldl State.destroyAccount s
  if Fork.spuriousDragon ≤ env.fork then s.destroyEmpty outcome.touchedAccounts.toList else s

def settle (env : Evm.Environment) (tx : Transaction) (outcome : Evm.Outcome) : BlockOp Nat := do
  if tx.gas < outcome.gasLeft then throw (.fault .overflow)
  let total := tx.gasUsed env outcome
  if env.gasPrice < baseFee env then throw (.fault .overflow)
  BlockOp.changeBalances
    (·.addBalance env.origin ((outcome.gasLeft + tx.gasRefund env outcome) * env.gasPrice))
  BlockOp.changeBalances (payCoinbase env (total * (env.gasPrice - baseFee env)))
  modify (clearUp env outcome)
  return total

/-- Checks form and account, in the forks where `approve` does not. -/
def checkBeforeCancun (env : Evm.Environment) (s : State) (tx : Transaction) :
    Except Rejection Unit := do
  checkForm env.fork tx
  tx.checkAccount (s.account env.origin) (tx.gas * tx.maxGasPrice)

def checkLate (env : Evm.Environment) (tx : Transaction) : BlockOp Unit := do
  if env.fork < Fork.cancun then BlockOp.ofExcept (tx.checkBeforeCancun env (← get))

def messageGas (env : Evm.Environment) (tx : Transaction) : Except Fault Nat := do
  let cost ← tx.intrinsicCost env.fork
  if tx.gas < cost then throw .overflow else return tx.gas - cost

def prepare (env : Evm.Environment) (tx : Transaction) : BlockOp Evm.Message := do
  tx.checkLate env
  let gas ← BlockOp.ofFault (tx.messageGas env)
  tx.payInAdvance env
  let request ← BlockOp.ofFault (tx.request env gas)
  BlockOp.ofFault (request.message env.fork (← get))

def process (env : Evm.Environment) (tx : Transaction) : BlockOp Result := do
  let message ← tx.prepare env
  let outcome ← BlockOp.runMachine env (Evm.runCall message)
  let gasUsed ← tx.settle env outcome
  return {
    gasUsed := gasUsed
    logs := outcome.logs
    error := if Fork.byzantium ≤ env.fork then outcome.error else none }

def execute (env : Evm.Environment) (gasAvailable : Nat) (tx : Transaction) :
    BlockOp (Approved × Result) := do
  let approved ← BlockOp.ofExcept (tx.approve env (← get) gasAvailable)
  return (approved, ← tx.process (approved.environment env))

end Transaction

end ExecutionLayer
