import ExecutionLayer.Integer

/-! # Public keys from signatures on secp256k1

The curve `y² = x³ + 7` over a prime field. Points are held in Jacobian coordinates
`(X / Z², Y / Z³)`, in which addition needs no division; the point at infinity has `Z = 0`.
-/
namespace ExecutionLayer.Secp256k1

def prime : Nat := Nat.pow 2 256 - Nat.pow 2 32 - 977

def order : Nat := 0xfffffffffffffffffffffffffffffffebaaedce6af48a03bbfd25e8cd0364141

structure Point where
  (x y z : Nat)
deriving DecidableEq, Repr

def infinity : Point := ⟨1, 1, 0⟩

def generator : Point where
  x := 0x79be667ef9dcbbac55a06295ce870b07029bfcdb2dce28d959f2815b16f81798
  y := 0x483ada7726a3c4655da4fbfc0e1108a8fd17b448a68554199c47d08ffb10d4b8
  z := 1

def sub (a b : Nat) : Nat := (a + (prime - b)) % prime

def inverse (modulus a : Nat) : Nat := powMod a (modulus - 2) modulus

def double (p : Point) : Point :=
  if p.z = 0 || p.y = 0 then infinity
  else
    let yy := p.y * p.y % prime
    let s := 4 * p.x * yy % prime
    let m := 3 * p.x * p.x % prime
    let x := sub (m * m % prime) (2 * s % prime)
    let y := sub (m * sub s x % prime) (8 * yy * yy % prime)
    ⟨x, y, 2 * p.y * p.z % prime⟩

def add (p q : Point) : Point :=
  if p.z = 0 then q
  else if q.z = 0 then p
  else
    let zz1 := p.z * p.z % prime
    let zz2 := q.z * q.z % prime
    let u1 := p.x * zz2 % prime
    let u2 := q.x * zz1 % prime
    let s1 := p.y * zz2 * q.z % prime
    let s2 := q.y * zz1 * p.z % prime
    if u1 = u2 then if s1 = s2 then double p else infinity
    else
      let h := sub u2 u1
      let r := sub s2 s1
      let hh := h * h % prime
      let hhh := h * hh % prime
      let v := u1 * hh % prime
      let x := sub (r * r % prime) ((hhh + 2 * v) % prime)
      let y := sub (r * sub v x % prime) (s1 * hhh % prime)
      ⟨x, y, h * p.z * q.z % prime⟩

/-- `a` times `p` plus `b` times `q`, where `a` and `b` have at most the given number of bits. -/
def combine (a b : Nat) (p q : Point) : Nat → Point
  | 0 => infinity
  | bits + 1 =>
    let sum := double (combine (a / 2) (b / 2) p q bits)
    let sum := if a % 2 = 1 then add sum p else sum
    if b % 2 = 1 then add sum q else sum

def affine? (p : Point) : Option (Nat × Nat) :=
  if p.z = 0 then none
  else
    let i := inverse prime p.z
    let ii := i * i % prime
    some (p.x * ii % prime, p.y * ii * i % prime)

/-- The point with the given first coordinate whose second one has the given parity. -/
def lift? (x : Nat) (odd : Bool) : Option Point :=
  let yy := (x * x * x + 7) % prime
  let y := powMod yy ((prime + 1) / 4) prime
  if y * y % prime = yy then some ⟨x, if (y % 2 == 1) = odd then y else prime - y, 1⟩ else none

/-- The public key under which `(r, s)` signs the given digest. The recovery number tells which of
up to four keys is meant. -/
def recover (r s recovery : Nat) (digest : Hash) : Except Fault Bytes :=
  let key? : Option (Nat × Nat) := do
    guard (recovery ≤ 3 && 0 < r && r < order && 0 < s && s < order)
    let x := if 2 ≤ recovery then r + order else r
    guard (x < prime)
    let p ← lift? x (recovery % 2 == 1)
    let i := inverse order r
    let a := (order - digest.toNat % order) * i % order
    affine? (combine a (s * i % order) generator p 256)
  match key? with
  | some (x, y) => .ok (Bytes.ofNat 32 x ++ Bytes.ofNat 32 y)
  | none => .error .invalidValue

end ExecutionLayer.Secp256k1
