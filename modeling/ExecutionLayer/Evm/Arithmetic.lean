import ExecutionLayer.Numeric

/-! # Arithmetic on words

The results of the instructions that only compute. They are formed with exact integers, which are
then read as words; an integer that no word represents would be a fault.
-/
namespace ExecutionLayer.Evm.Arithmetic

def div (x y : Word) : Word := if y = 0 then 0 else x / y

def mod (x y : Word) : Word := if y = 0 then 0 else x % y

/-- Signed division towards zero. The one quotient that exceeds the range stays where it was. -/
def sdiv (x y : Word) : Except Fault Word :=
  let a := x.toSigned
  let b := y.toSigned
  if b = 0 then .ok 0
  else if a = -(Word.half : Int) ∧ b = -1 then Word.ofSigned a
  else Word.ofSigned (Numeric.sign (a * b) * (a.natAbs / b.natAbs : Nat))

/-- Signed remainder with the sign of the dividend. -/
def smod (x y : Word) : Except Fault Word :=
  let a := x.toSigned
  let b := y.toSigned
  if b = 0 then .ok 0
  else Word.ofSigned (Numeric.sign a * (a.natAbs % b.natAbs : Nat))

def addmod (x y z : Word) : Except Fault Word :=
  if z = 0 then .ok 0 else Word.ofNat? ((x.toNat + y.toNat) % z.toNat)

def mulmod (x y z : Word) : Except Fault Word :=
  if z = 0 then .ok 0 else Word.ofNat? (x.toNat * y.toNat % z.toNat)

def exp (base exponent : Word) : Except Fault Word :=
  Word.ofNat? (powMod base.toNat exponent.toNat Word.limit)

/-- Repeats the sign bit of the lowest `k + 1` bytes in all bytes above them. -/
def signextend (k x : Word) : Word :=
  if 31 < k.toNat then x
  else
    let bits := 8 * (k.toNat + 1)
    let low := x.toNat % Nat.pow 2 bits
    if low < Nat.pow 2 (bits - 1) then BitVec.ofNat 256 low
    else BitVec.ofNat 256 (low + (Word.limit - Nat.pow 2 bits))

def lt (x y : Word) : Word := .ofBool (x.toNat < y.toNat)

def gt (x y : Word) : Word := .ofBool (x.toNat > y.toNat)

def slt (x y : Word) : Word := .ofBool (x.toSigned < y.toSigned)

def sgt (x y : Word) : Word := .ofBool (x.toSigned > y.toSigned)

def eq (x y : Word) : Word := .ofBool (x = y)

def isZero (x : Word) : Word := .ofBool (x = 0)

def byte (i x : Word) : Word :=
  if 32 ≤ i.toNat then 0 else (x >>> ((31 - i.toNat) * 8)) &&& 255

def shl (shift x : Word) : Except Fault Word :=
  if shift.toNat < 256 then Word.ofNat? ((x.toNat <<< shift.toNat) % Word.limit) else .ok 0

def shr (shift x : Word) : Word := if shift.toNat < 256 then x >>> shift.toNat else 0

def sar (shift x : Word) : Except Fault Word :=
  if shift.toNat < 256 then Word.ofSigned (x.toSigned >>> shift.toNat)
  else .ok (if 0 ≤ x.toSigned then 0 else BitVec.allOnes 256)

def expCost (byteCost : Nat) (exponent : Word) : Nat := 10 + byteCost * byteLength exponent.toNat

end ExecutionLayer.Evm.Arithmetic
