import ExecutionLayer.Evm.Exec

/-! # Instructions on storage -/
namespace ExecutionLayer.Evm.Step
open Exec

def sload : Exec Unit := do
  let key ← pop
  let fork ← fork
  if fork < Fork.berlin then chargeGas (Gas.sload fork)
  else chargeGas (if ← accessSlot key then Gas.warmAccess else Gas.coldSlot)
  push ((← state).getStorage (← message).currentTarget key)
  next

structure Change where
  cost : Nat
  refund : Int
deriving DecidableEq, Repr

def grossChange (current new : Word) : Change where
  cost := if new ≠ 0 ∧ current = 0 then Gas.storageSet else Gas.storageUpdate
  refund := if new = 0 ∧ current ≠ 0 then Gas.storageClearRefund .frontier else 0

/-- What a change costs if also the value before the transaction counts. `read` is the price of
looking at the slot, `update` that of changing a slot that was not empty. -/
def netChange (clearRefund read update : Nat) (start current new : Word) : Change where
  cost :=
    if start = current ∧ current ≠ new then if start = 0 then Gas.storageSet else update
    else read
  refund :=
    if current = new then 0
    else
      (if start ≠ 0 ∧ current ≠ 0 ∧ new = 0 then (clearRefund : Int) else 0)
        - (if start ≠ 0 ∧ current = 0 then (clearRefund : Int) else 0)
        + (if start = new then
            ((if start = 0 then Gas.storageSet - read else update - read : Nat) : Int)
          else 0)

/-- Works out what a change costs; a net change needs more gas left than a stipend. -/
def priceChange (key new : Word) : Exec Change := do
  let fork ← fork
  let target := (← message).currentTarget
  let current := (← state).getStorage target key
  if fork < Fork.istanbul then return grossChange current new
  if (← frame).gasLeft ≤ Gas.callStipend then halt .outOfGas
  let start ← ofExcept ((← state).startStorage target key)
  let clearRefund := Gas.storageClearRefund fork
  if fork < Fork.berlin then
    return netChange clearRefund (Gas.sload fork) Gas.storageUpdate start current new
  let access := if ← accessSlot key then 0 else Gas.coldSlot
  let change := netChange clearRefund Gas.warmAccess (Gas.storageUpdate - Gas.coldSlot)
    start current new
  return { change with cost := access + change.cost }

def sstore : Exec Unit := do
  let key ← pop
  let new ← pop
  let change ← priceChange key new
  addRefund change.refund
  chargeGas change.cost
  requireMutable
  let target := (← message).currentTarget
  onWorld (.onState .fault (State.step (·.setStorage target key new)))
  next

def tload : Exec Unit := do
  let key ← pop
  chargeGas Gas.warmAccess
  push ((← transient).get (← message).currentTarget key)
  next

def tstore : Exec Unit := do
  let key ← pop
  let new ← pop
  chargeGas Gas.warmAccess
  requireMutable
  let target := (← message).currentTarget
  modifyTransient (·.set target key new)
  next

end ExecutionLayer.Evm.Step
