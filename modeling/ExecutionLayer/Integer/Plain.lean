import ExecutionLayer.Integer
import ExecutionLayer.Rlp.Value

/-! # Integers without bounds

What every integer offers, whatever its kind: these methods look at the value alone and answer
integers of any size. An operand may turn out not to be an integer at all; most methods then have no
result, which is an answer and not a fault.
-/
namespace ExecutionLayer.Integer

inductive Relation where
  | eq | ne | lt | le | gt | ge
deriving DecidableEq, Repr

def Relation.holds (r : Relation) (a b : Int) : Bool :=
  match r with
  | eq => a = b
  | ne => a ≠ b
  | lt => a < b
  | le => a ≤ b
  | gt => b < a
  | ge => b ≤ a

inductive Plain where
  | operator (op : Operator) (side : Side)
  | pow (side : Side)
  | quotient (side : Side)
  | compare (relation : Relation)
  | negate
  | complement
  | magnitude
  | value
  | truth
  | text
  | hash
  | bitLength
  | bitCount
  | ratio
  /-- The nearest number with zeros at the end, if asked for; see `round`. -/
  | round
  /-- Big-endian bytes, one of them unless another number is given. -/
  | bytes
  | float
  /-- A number that belongs to the integer and cannot be applied to anything. -/
  | component
deriving DecidableEq, Repr

def Answer.value : Answer → Rlp.Value
  | number i => .integer i
  | pair q r => .seq [.integer q, .integer r]
  | truth b => .truth b
  | bytes b => .bytes b
  | text s => .text s

inductive Outcome where
  | answer (a : Answer)
  | notDefined

def Outcome.number (i : Int) : Outcome := .answer (.number i)

/-- Euclid's algorithm on `r` and `s`, which are `u` and `v` times one number modulo another one.
Answers the common divisor and its factor. -/
def inverseLoop (r s : Nat) (u v : Int) : Nat × Int :=
  if _h : s = 0 then (r, u)
  else inverseLoop s (r % s) v (u - (r / s : Nat) * v)
termination_by s
decreasing_by exact Nat.mod_lt _ (Nat.pos_of_ne_zero _h)

/-- The power modulo `m`, which has the sign of `m`. A negative exponent asks for an inverse of the
base. -/
def powModInt (base exponent m : Int) : Except Fault Int := do
  require (m ≠ 0) .invalidValue
  let modulus := m.natAbs
  let reduced := (base % (modulus : Int)).toNat
  let root ←
    if 0 ≤ exponent then pure reduced
    else
      let (divisor, inverse) := inverseLoop reduced modulus 1 0
      require (divisor = 1) .invalidValue
      pure (inverse % (modulus : Int)).toNat
  return (powMod root exponent.natAbs modulus : Int).fmod m

/-- A quotient that is not rounded is no integer. What is wrong with its operands is told first. -/
def quotient (a b : Int) : Except Fault Int := do
  require (b ≠ 0) .divisionByZero
  require (a.natAbs / b.natAbs < floatLimit) .overflow
  throw .wrongType

def powInt (base exponent : Int) : Except Fault Int :=
  if 0 ≤ exponent then
    let sign := if base < 0 && exponent.toNat % 2 = 1 then -1 else 1
    .ok (sign * (natPow base.natAbs exponent.toNat : Int))
  else do
    require (exponent.natAbs < floatLimit) .overflow
    require (base ≠ 0) .divisionByZero
    throw .wrongType

def bitCount (n : Nat) : Nat :=
  if _h : n = 0 then 0 else n % 2 + bitCount (n / 2)
termination_by n
decreasing_by omega

/-- The multiple of `unit` that is nearest to `i`. Of two that are equally near it is the even
multiple. -/
def nearest (unit : Nat) (i : Int) : Int :=
  let quotient := i.fdiv unit
  let twice := 2 * i.fmod unit
  if twice < unit || twice = unit && quotient % 2 = 0 then quotient * unit
  else (quotient + 1) * unit

/-- Rounds an integer to as many digits behind the point. Only for a negative number of them does it
change; a unit of more than twice the integer need not be computed. -/
def round (digits : Int) (i : Int) : Int :=
  if 0 ≤ digits then i
  else if ExecutionLayer.bitLength i.natAbs < 3 * digits.natAbs then 0
  else nearest (Nat.pow 10 digits.natAbs) i

def sizedBytes (width : Int) (i : Int) : Except Fault Bytes := do
  let size ← Capacity.size width
  require (0 ≤ width) .invalidValue
  require (0 ≤ i && byteLength i.toNat ≤ size) .overflow
  return Bytes.ofNat size i.toNat

/-- Applies a method to an integer. Operands that are no integers come as `none`. -/
def Plain.apply (m : Plain) (self : Int) (args : List (Option Int)) : Except Fault Outcome := do
  match m, args with
  | operator op .left, [some i] => return .answer (← exact op self i)
  | operator op .right, [some i] => return .answer (← exact op i self)
  | compare r, [some i] => return .answer (.truth (r.holds self i))
  | quotient .left, [some i] => return .number (← Integer.quotient self i)
  | quotient .right, [some i] => return .number (← Integer.quotient i self)
  | pow .left, [some i] => return .number (← powInt self i)
  | pow .right, [some i] => return .number (← powInt i self)
  | pow .left, [some i, some m] => return .number (← powModInt self i m)
  | pow .right, [some i, some m] => return .number (← powModInt i self m)
  | operator _ _, [none] | compare _, [none] | quotient _, [none] | pow _, [_] | pow _, [_, _] =>
    return .notDefined
  | negate, [] => return .number (-self)
  | complement, [] => return .number (-self - 1)
  | magnitude, [] => return .number self.natAbs
  | value, [] => return .number self
  | truth, [] => return .answer (.truth (self ≠ 0))
  | text, [] => return .answer (.text (← Text.decimal self))
  | hash, [] => return .number (hashResidue self)
  | bitLength, [] => return .number (ExecutionLayer.bitLength self.natAbs)
  | bitCount, [] => return .number (Integer.bitCount self.natAbs)
  | ratio, [] => return .answer (.pair self 1)
  | round, [] => return .number self
  | round, [some digits] => return .number (Integer.round digits self)
  | bytes, [] => return .answer (.bytes (← sizedBytes 1 self))
  | float, [] => return .number (← Integer.quotient self 1)
  | bytes, [some width] => return .answer (.bytes (← sizedBytes width self))
  | _, _ => throw .wrongType

end ExecutionLayer.Integer
