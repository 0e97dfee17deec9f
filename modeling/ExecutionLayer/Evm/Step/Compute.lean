import ExecutionLayer.Evm.Arithmetic
import ExecutionLayer.Evm.Exec

/-! # Instructions on the stack

Operands are popped, then the price is paid, then the result is pushed. So a lack of operands is
noticed before a lack of gas, and a lack of gas before a full stack.
-/
namespace ExecutionLayer.Evm.Step
open Exec

def unary (cost : Nat) (f : Word → Word) : Exec Unit := do
  let x ← pop
  chargeGas cost
  push (f x)
  next

def binary (cost : Nat) (f : Word → Word → Except Fault Word) : Exec Unit := do
  let x ← pop
  let y ← pop
  chargeGas cost
  push (← ofExcept (f x y))
  next

def binaryTotal (cost : Nat) (f : Word → Word → Word) : Exec Unit := do
  let x ← pop
  let y ← pop
  chargeGas cost
  push (f x y)
  next

def ternary (cost : Nat) (f : Word → Word → Word → Except Fault Word) : Exec Unit := do
  let x ← pop
  let y ← pop
  let z ← pop
  chargeGas cost
  push (← ofExcept (f x y z))
  next

def exp : Exec Unit := do
  let base ← pop
  let exponent ← pop
  chargeGas (Arithmetic.expCost (Gas.exponentByte (← fork)) exponent)
  push (← ofExcept (Arithmetic.exp base exponent))
  next

def dropTop : Exec Unit := do
  let _ ← pop
  chargeGas Gas.base
  next

def pushImmediate (size : Nat) : Exec Unit := do
  chargeGas (if size = 0 then Gas.base else Gas.veryLow)
  let f ← frame
  push (.ofBytes (f.code.read (f.pc + 1) size))
  advance (1 + size)

def dup (depth : Nat) : Exec Unit := do
  chargeGas Gas.veryLow
  let stack := (← frame).stack
  if depth < stack.size then
    push (stack[stack.size - 1 - depth]?.getD 0)
    next
  else halt .stackUnderflow

def swap (depth : Nat) : Exec Unit := do
  chargeGas Gas.veryLow
  let size := (← frame).stack.size
  if depth + 1 < size then
    modifyFrame fun f =>
      { f with stack := f.stack.swapIfInBounds (size - 1) (size - 2 - depth) }
    next
  else halt .stackUnderflow

end ExecutionLayer.Evm.Step
