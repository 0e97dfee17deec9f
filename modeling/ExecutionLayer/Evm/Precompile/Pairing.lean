import ExecutionLayer.AltBn128.Pairing
import ExecutionLayer.Evm.Exec

/-! # Contracts on the alt_bn128 curve

A coordinate that is no residue, or a pair that is no point, halts the frame.
-/
namespace ExecutionLayer.Evm.Pairing
open AltBn128 Exec

def addCost (fork : Fork) : Nat := if Fork.istanbul ≤ fork then 150 else 500

def mulCost (fork : Fork) : Nat := if Fork.istanbul ≤ fork then 6000 else 40000

def checkCost (fork : Fork) (pairs : Nat) : Nat :=
  if Fork.istanbul ≤ fork then 34000 * pairs + 45000 else 80000 * pairs + 100000

/-- The number in 32 bytes of the input, which is continued by zeros. -/
def wordAt (data : Bytes) (start : Nat) : Nat := (data.read start 32).toNat

def coordinate (data : Bytes) (start : Nat) : Exec Base :=
  let n := wordAt data start
  if n < prime then return .ofNat n else halt .outOfGas

def point {F : Type} [Coordinate F] (x y : F) : Exec (Point F) :=
  match Point.make x y with
  | .ok p => return p
  | .error _ => halt .outOfGas

def encode (p : Point Base) : Bytes := Bytes.ofNat 32 p.x.val ++ Bytes.ofNat 32 p.y.val

def add (data : Bytes) : Exec Bytes := do
  chargeGas (addCost (← fork))
  let x0 ← coordinate data 0
  let y0 ← coordinate data 32
  let x1 ← coordinate data 64
  let y1 ← coordinate data 96
  let p ← point x0 y0
  let q ← point x1 y1
  return encode (← ofExcept (p.add q))

def mul (data : Bytes) : Exec Bytes := do
  chargeGas (mulCost (← fork))
  let x ← coordinate data 0
  let y ← coordinate data 32
  let p ← point x y
  return encode (← ofExcept (p.mulBy (wordAt data 64)))

def pairAt (data : Bytes) (start : Nat) (acc : Dodecic) : Exec Dodecic := do
  let x ← coordinate data start
  let y ← coordinate data (start + 32)
  let xi ← coordinate data (start + 64)
  let xr ← coordinate data (start + 96)
  let yi ← coordinate data (start + 128)
  let yr ← coordinate data (start + 160)
  let p ← point x y
  let q ← point (Quadratic.make xr xi) (Quadratic.make yr yi)
  if !(← ofExcept (p.mulBy order)).isInfinity then halt .outOfGas
  if !(← ofExcept (q.mulBy order)).isInfinity then halt .outOfGas
  if p.isInfinity || q.isInfinity then return acc
  return acc * (← ofExcept (pairing q p))

def product (data : Bytes) : Nat → Nat → Dodecic → Exec Dodecic
  | 0, _, acc => return acc
  | pairs + 1, start, acc => do product data pairs (start + 192) (← pairAt data start acc)

def check (data : Bytes) : Exec Bytes := do
  let pairs := data.size / 192
  chargeGas (checkCost (← fork) pairs)
  if data.size % 192 ≠ 0 then halt .outOfGas
  let result ← product data pairs 0 (.ofBase 1)
  return fixedBytes (Word.ofBool (result = .ofBase 1))

end ExecutionLayer.Evm.Pairing
