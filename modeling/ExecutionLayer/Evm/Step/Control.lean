import ExecutionLayer.Evm.Step.Call

/-! # Instructions on the course of a frame -/
namespace ExecutionLayer.Evm.Step
open Exec

def stop : Exec Unit := do
  finish
  next

def jumpTo (place : Nat) : Exec Unit := do
  if isDestination (← frame).destinations place then modifyFrame fun f => { f with pc := place }
  else halt .invalidJumpDestination

def jump : Exec Unit := do
  let place ← popNat
  chargeGas Gas.mid
  jumpTo place

def jumpi : Exec Unit := do
  let place ← popNat
  let condition ← pop
  chargeGas Gas.high
  if condition = 0 then next else jumpTo place

def jumpdest : Exec Unit := do
  chargeGas Gas.jumpdest
  next

def setOutput : Exec Unit := do
  let start ← popNat
  let size ← popNat
  chargeWithMemory 0 [(start, size)]
  let output ← readMemory start size
  modifyFrame fun f => { f with output := output }

def ret : Exec Unit := do
  setOutput
  finish

def revert : Exec Unit := do
  setOutput
  halt .revert

def newBeneficiaryCost (fork : Fork) (s : State) (account beneficiary : Address) : Nat :=
  if fork < Fork.tangerineWhistle then 0
  else if fork < Fork.spuriousDragon then
    if s.accountExists beneficiary then 0 else Gas.newAccount
  else if !s.isAlive beneficiary && (s.account account).balance ≠ 0 then Gas.newAccount
  else 0

/-- The price of an access to the beneficiary, which is free if it was accessed before. -/
def beneficiaryAccessCost (beneficiary : Address) : Exec Nat := do
  if (← fork) < Fork.berlin then return 0
  if ← accessAccount beneficiary then return 0 else return Gas.coldAccount

def destroyCost (beneficiary : Address) : Exec Nat := do
  let access ← beneficiaryAccessCost beneficiary
  let fork ← fork
  let created := newBeneficiaryCost fork (← state) (← message).currentTarget beneficiary
  return Gas.selfDestruct fork + access + created

/-- Refunds the first destruction of an account. Accounts destroyed by the frames above count as
destroyed here. Since London nothing is refunded. -/
def refundDestruction : Exec Unit := do
  if (← fork) < Fork.london then
    modifyFrame fun f =>
      { f with accountsToDelete := addressUnion f.accountsToDelete f.message.deletedAbove }
    let f ← frame
    if !f.accountsToDelete.contains f.message.currentTarget then
      addRefund Gas.refundSelfDestruct

def markDeleted (address : Address) : Exec Unit :=
  modifyFrame fun f => { f with accountsToDelete := f.accountsToDelete.insert address }

/-- Gives the balance away and marks the account for deletion. An account that is its own
beneficiary loses the balance. -/
def destroy (account beneficiary : Address) : Exec Unit := do
  let balance := ((← state).account account).balance
  onWorld (.changeBalances (State.step (·.addBalance beneficiary balance.toNat)))
  modifyState (·.setBalance account 0)
  markDeleted account

/-- Gives the balance away; only an account created in the same transaction is deleted. -/
def destroyIfCreated (account beneficiary : Address) : Exec Unit := do
  let balance := ((← state).account account).balance
  onWorld (.changeBalances (State.moveEther account beneficiary balance))
  if (← state).created.contains account then
    modifyState (·.setBalance account 0)
    markDeleted account

def payDestruction : Exec Address := do
  let beneficiary ← popAddress
  let cost ← destroyCost beneficiary
  refundDestruction
  chargeGas cost
  requireMutable
  return beneficiary

def giveAway (account beneficiary : Address) : Exec Unit := do
  if Fork.cancun ≤ (← fork) then destroyIfCreated account beneficiary
  else destroy account beneficiary

def touchIfEmpty (address : Address) : Exec Unit := do
  if (← state).existsAndIsEmpty address then
    modifyFrame fun f => { f with touchedAccounts := f.touchedAccounts.insert address }

def selfdestruct : Exec Unit := do
  let beneficiary ← payDestruction
  giveAway (← message).currentTarget beneficiary
  touchIfEmpty beneficiary
  finish

end ExecutionLayer.Evm.Step
