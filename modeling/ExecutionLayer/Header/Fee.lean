import ExecutionLayer.Fork
import ExecutionLayer.Rejection

/-! # Gas limits and base fees -/
namespace ExecutionLayer.Fee

def gasLimitOk (limit parentLimit : Nat) : Bool :=
  let delta := parentLimit / 1024
  limit < parentLimit + delta && parentLimit - delta < limit && 5000 ≤ limit

/-- The part of a fee that corresponds to the distance from the target. -/
def share (fee distance target : Nat) : Except Fault Nat :=
  if target = 0 then .error .divisionByZero else .ok (fee * distance / target / 8)

/-- The base fee after a block: it follows the distance of the gas used from half the limit. -/
def next (parentLimit parentUsed parentFee : Nat) : Except Fault Nat := do
  let target := parentLimit / 2
  if parentUsed = target then return parentFee
  else if target < parentUsed then
    return parentFee + max (← share parentFee (parentUsed - target) target) 1
  else
    let delta ← share parentFee (target - parentUsed) target
    if parentFee < delta then throw .overflow
    return parentFee - delta

def initial : Nat := 1000000000

/-- The base fee that a block has to have. The first block with a base fee is not tested for its gas
limit. -/
def expected (limit parentLimit parentUsed parentFee : Nat) (isFirst : Bool) :
    Except Rejection Nat := do
  if isFirst then return initial
  Rejection.check (gasLimitOk limit parentLimit)
  Rejection.ofFault (next parentLimit parentUsed parentFee)

end ExecutionLayer.Fee
