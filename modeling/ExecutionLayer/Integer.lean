import ExecutionLayer.Text.Numeral
import ExecutionLayer.Word

/-! # Checked integers

Unsigned integers come in two kinds: naturals of any size, and integers of a fixed number of bits.
An operator takes one integer of the kind and one arbitrary integer. It computes the exact result
and answers it only if operand and result are admissible; otherwise it overflows. The wrapping
operators reduce the result instead, but still refuse an inadmissible operand.
-/
namespace ExecutionLayer

/-- `base ^ exponent % modulus` by repeated squaring; `acc` collects the factors. -/
def powMod.loop (modulus : Nat) (exponent base acc : Nat) : Nat :=
  if _h : exponent = 0 then acc
  else
    let acc := if exponent % 2 = 1 then acc * base % modulus else acc
    powMod.loop modulus (exponent / 2) (base * base % modulus) acc
termination_by exponent
decreasing_by omega

def powMod (base exponent modulus : Nat) : Nat :=
  powMod.loop modulus exponent (base % modulus) (1 % modulus)

theorem powMod.loop_lt {m : Nat} (e b : Nat) {acc : Nat} (h : acc < m) :
    powMod.loop m e b acc < m := by
  fun_induction powMod.loop m e b acc with
  | case1 => exact h
  | case2 e b acc _ acc' ih =>
    refine ih ?_
    dsimp only [acc']
    split
    · exact Nat.mod_lt _ (Nat.zero_lt_of_lt h)
    · exact h

theorem powMod_lt {m : Nat} (h : 0 < m) (b e : Nat) : powMod b e m < m :=
  powMod.loop_lt e (b % m) (Nat.mod_lt 1 h)

namespace Integer

inductive Kind where
  | natural
  | fixed (bits : Nat)
deriving DecidableEq, Repr

def Kind.admits (kind : Kind) (i : Int) : Bool :=
  match kind with
  | natural => 0 ≤ i
  | fixed bits => 0 ≤ i && i < Nat.pow 2 bits

def Kind.make (kind : Kind) (i : Int) : Except Fault Nat :=
  if kind.admits i then .ok i.toNat else .error .overflow

/-- What takes the place of an integer when hashes are compared: its residue modulo a Mersenne
prime with the sign kept, where minus one is taken for minus two. -/
def hashResidue (i : Int) : Int :=
  let residue := i.tmod (Nat.pow 2 61 - 1 : Nat)
  if residue = -1 then -2 else residue

inductive Operator where
  | add | sub | mul | floorDiv | mod | divMod | and | or | xor | shiftLeft | shiftRight
deriving DecidableEq, Repr

/-- On which side of the operator the integer of the kind stands. -/
inductive Side where
  | left
  | right
deriving DecidableEq, Repr

inductive Answer where
  | number (i : Int)
  | pair (quotient remainder : Int)
  | truth (b : Bool)
  | bytes (b : Bytes)
  | text (s : String)
deriving DecidableEq

def land : Int → Int → Int
  | .ofNat n, .ofNat m => .ofNat (n &&& m)
  | .ofNat n, .negSucc m | .negSucc m, .ofNat n => .ofNat (n - (n &&& m))
  | .negSucc n, .negSucc m => .negSucc (n ||| m)

def lor : Int → Int → Int
  | .ofNat n, .ofNat m => .ofNat (n ||| m)
  | .ofNat n, .negSucc m | .negSucc m, .ofNat n => .negSucc (m - (n &&& m))
  | .negSucc n, .negSucc m => .negSucc (n &&& m)

def lxor : Int → Int → Int
  | .ofNat n, .ofNat m | .negSucc n, .negSucc m => .ofNat (n ^^^ m)
  | .ofNat n, .negSucc m | .negSucc m, .ofNat n => .negSucc (n ^^^ m)

/-- The power of naturals. Powers of zero and one need no computation, however large the exponent
is. -/
def natPow (base exponent : Nat) : Nat :=
  if exponent = 0 then 1 else if base ≤ 1 then base else Nat.pow base exponent

theorem natPow_eq (base exponent : Nat) : natPow base exponent = Nat.pow base exponent := by
  unfold natPow
  split
  · next h => simp [h]
  · next h =>
    split
    · next le =>
      match base, le with
      | 0, _ => simp [Nat.zero_pow (Nat.pos_of_ne_zero h)]
      | 1, _ => simp
    · rfl

/-- Moves the bits up, if there can be so many; zero needs none. -/
def shiftLeft (a : Int) (bits : Nat) : Except Fault Int :=
  if a = 0 then .ok 0
  else do
    Capacity.allotBits bits
    return a * Nat.pow 2 bits

def exact (op : Operator) (a b : Int) : Except Fault Answer :=
  match op with
  | .add => .ok (.number (a + b))
  | .sub => .ok (.number (a - b))
  | .mul => .ok (.number (a * b))
  | .floorDiv => if b = 0 then .error .divisionByZero else .ok (.number (a.fdiv b))
  | .mod => if b = 0 then .error .divisionByZero else .ok (.number (a.fmod b))
  | .divMod =>
    if b = 0 then .error .divisionByZero else .ok (.pair (a.fdiv b) (a.fmod b))
  | .and => .ok (.number (land a b))
  | .or => .ok (.number (lor a b))
  | .xor => .ok (.number (lxor a b))
  | .shiftLeft =>
    if b < 0 then .error .invalidValue else (shiftLeft a b.toNat).map .number
  | .shiftRight =>
    if b < 0 then .error .invalidValue
    else .ok (.number (a >>> min b.toNat (bitLength a.natAbs)))

/-- Whether the operator checks the operand against the kind at all. -/
def Operator.checks (op : Operator) (kind : Kind) (side : Side) : Bool :=
  match op, kind, side with
  | .and, .natural, _ | .or, .natural, _ => false
  | .and, .fixed _, .right | .or, .fixed _, .right => false
  | .shiftLeft, _, _ | .shiftRight, _, _ => false
  | _, _, _ => true

/-- Operators whose fixed-width operand is only bounded through the result. -/
def Operator.boundsResult : Operator → Bool
  | .add | .mul => true
  | _ => false

def apply (kind : Kind) (op : Operator) (side : Side) (self : Nat) (other : Int) :
    Except Fault Answer := do
  if op.checks kind side then
    require (0 ≤ other) .overflow
    unless op.boundsResult do require (kind.admits other) .overflow
  let (a, b) := if side = .left then ((self : Int), other) else (other, (self : Int))
  let answer ← exact op a b
  match op, answer with
  | .add, .number i | .sub, .number i | .mul, .number i =>
    require (kind.admits i) .overflow
    return answer
  | _, _ => return answer

/-- Integers of this absolute value and above have no floating-point number near them. -/
def floatLimit : Nat := Nat.pow 2 1024 - Nat.pow 2 970

/-- Power of two integers, modulo a third one if given. A negative exponent is a fault whose sort
depends on whether the base is invertible. -/
def power (base exponent : Int) (modulus : Option Int) : Except Fault Nat := do
  match modulus with
  | some m =>
    require (m ≠ 0) .invalidValue
    if exponent < 0 then
      require (base.toNat.gcd m.toNat = 1) .invalidValue
      throw .overflow
    return powMod base.toNat exponent.toNat m.toNat
  | none =>
    if exponent < 0 then
      require (exponent.natAbs < floatLimit) .overflow
      require (base ≠ 0) .divisionByZero
      throw .overflow
    return natPow base.toNat exponent.toNat

def pow (kind : Kind) (self : Nat) (exponent : Int) (modulus : Option Int) :
    Except Fault Answer := do
  if let some m := modulus then require (kind.admits m) .overflow
  match kind with
  | .natural =>
    require (0 ≤ exponent) .overflow
    return .number (← power self exponent modulus)
  | .fixed bits =>
    if modulus.isNone && 2 ≤ self && (bits : Int) ≤ exponent then throw .overflow
    if modulus.isNone && !kind.admits exponent && 0 ≤ exponent then throw .overflow
    let result ← power self exponent modulus
    require (kind.admits exponent && kind.admits result) .overflow
    return .number result

/-- `base ^ self`, where only the base is checked. -/
def powReflected (kind : Kind) (self : Nat) (base : Int) (modulus : Option Int) :
    Except Fault Answer := do
  if let some m := modulus then require (kind.admits m) .overflow
  require (kind.admits base) .overflow
  return .number (← power base self modulus)

def wrapping (bits : Nat) (op : Operator) (self : Nat) (other : Int) : Except Fault Answer := do
  require ((Kind.fixed bits).admits other) .overflow
  match ← exact op self other with
  | .number i => return .number (i % Nat.pow 2 bits)
  | answer => return answer

/-- The power reduced to the given number of bits, after a modulus if one is given. -/
def wrappingPow (bits : Nat) (self : Nat) (exponent : Int) (modulus : Option Int) :
    Except Fault Answer := do
  if let some m := modulus then require ((Kind.fixed bits).admits m) .overflow
  require ((Kind.fixed bits).admits exponent) .overflow
  match modulus with
  | some m => return .number ((← power self exponent (some m)) % Nat.pow 2 bits : Nat)
  | none => return .number (powMod self exponent.toNat (Nat.pow 2 bits))

/-- All bits flipped; naturals have no bits to flip and become negative. -/
def complement (kind : Kind) (self : Nat) : Int :=
  match kind with
  | .natural => -(self : Int) - 1
  | .fixed bits => (Nat.pow 2 bits : Int) - 1 - (self : Int)

def ofBytes (kind : Kind) (b : Bytes) : Except Fault Nat :=
  match kind with
  | .natural => .ok b.toNat
  | .fixed bits => if (bits + 7) / 8 < b.size then .error .invalidValue else .ok b.toNat

def ofBytesLittle (kind : Kind) (b : Bytes) : Except Fault Nat :=
  match kind with
  | .natural => .ok b.toNatLittle
  | .fixed bits => if (bits + 7) / 8 < b.size then .error .invalidValue else .ok b.toNatLittle

def toBytes (width : Nat) (n : Nat) : Except Fault Bytes :=
  if byteLength n ≤ width then .ok (Bytes.ofNat width n) else .error .overflow

def toBytesLittle (width : Int) (n : Nat) : Except Fault Bytes := do
  let size ← Capacity.size width
  require (0 ≤ width) .invalidValue
  require (byteLength n ≤ size) .overflow
  return Bytes.ofNatLittle size n

end Integer

end ExecutionLayer
