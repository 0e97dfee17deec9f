import ExecutionLayer.Fault

/-! # Halts

A frame that cannot go on halts. All halts but a revert consume the frame's gas. A halt ends one
frame and is reported to its caller; a fault ends everything.
-/
namespace ExecutionLayer.Evm

inductive Halt where
  | stackUnderflow
  | stackOverflow
  | outOfGas
  | invalidOpcode (code : UInt8)
  | invalidJumpDestination
  | stackDepthLimit
  | writeInStaticContext
  | outOfBoundsRead
  | invalidParameter
  | invalidContractPrefix
  | addressCollision
  | kzgProof
  | revert
deriving DecidableEq, Repr, Inhabited

namespace Halt

def name : Halt → String
  | stackUnderflow => "StackUnderflowError"
  | stackOverflow => "StackOverflowError"
  | outOfGas => "OutOfGasError"
  | invalidOpcode _ => "InvalidOpcode"
  | invalidJumpDestination => "InvalidJumpDestError"
  | stackDepthLimit => "StackDepthLimitError"
  | writeInStaticContext => "WriteInStaticContext"
  | outOfBoundsRead => "OutOfBoundsRead"
  | invalidParameter => "InvalidParameter"
  | invalidContractPrefix => "InvalidContractPrefix"
  | addressCollision => "AddressCollision"
  | kzgProof => "KZGProofError"
  | revert => "Revert"

def message? : Halt → Option String
  | invalidOpcode code => some (toString code.toNat)
  | stackDepthLimit => some "Stack depth limit reached"
  | _ => none

end Halt

inductive Stop where
  | halt (h : Halt)
  | fault (f : Fault)
  /-- A balance that cannot be changed as it should be, which ends everything too. -/
  | imbalance (f : Fault)
deriving DecidableEq, Repr, Inhabited

end ExecutionLayer.Evm
