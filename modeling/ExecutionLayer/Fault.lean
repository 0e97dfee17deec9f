/-! # Faults

A fault is the failure of an operation on plain data: a number that leaves its range, a missing
list entry, bytes of the wrong size, a broken invariant. Faults are not part of the protocol.
A frame that halts and a block that is rejected have types of their own; a fault passes through
both unhandled.
-/
namespace ExecutionLayer

inductive Fault where
  /-- A number does not fit its type, which includes negative results. -/
  | overflow
  | divisionByZero
  | indexOutOfRange
  | invalidValue
  | wrongSize (expected actual : Nat)
  | offCurve
  | zeroDegree
  /-- A condition that the operation takes for granted does not hold. -/
  | brokenInvariant
  | missingComponent
  | wrongType
  | unsupported
  | notAWord
  /-- More bytes are asked for than there are addresses. -/
  | outOfMemory
deriving DecidableEq, Repr, Inhabited

namespace Fault

def message? : Fault → Option String
  | wrongSize expected actual => some s!"expected {expected} bytes but got {actual}"
  | offCurve => some "Point not on curve"
  | zeroDegree => some "deg() does not support zero"
  | _ => none

end Fault

def require (condition : Bool) (fault : Fault) : Except Fault Unit :=
  if condition then .ok () else .error fault

end ExecutionLayer
