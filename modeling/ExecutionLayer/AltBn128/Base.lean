import ExecutionLayer.Integer

/-! # The base field of alt_bn128 -/
namespace ExecutionLayer.AltBn128

def prime : Nat := 21888242871839275222246405745257275088696311157297823662689037894645226208583

def order : Nat := 21888242871839275222246405745257275088548364400416034343698204186575808495617

abbrev Base := Fin prime

theorem prime_pos : 0 < prime := by decide

namespace Base

def ofNat (n : Nat) : Base := ⟨n % prime, Nat.mod_lt n prime_pos⟩

instance (n : Nat) : OfNat Base n := ⟨ofNat n⟩

def ofInt (i : Int) : Base := ofNat (i % prime).toNat

def pow (a : Base) (n : Nat) : Base := ofNat (powMod a.val n prime)

/-- The inverse of an element other than zero, by Fermat's little theorem. -/
def inverse (a : Base) : Base := pow a (prime - 2)

def inverse? (a : Base) : Except Fault Base :=
  if a = 0 then .error .invalidValue else .ok (inverse a)

def power (a : Base) (i : Int) : Except Fault Base :=
  if 0 ≤ i then .ok (pow a i.toNat) else do return pow (← inverse? a) (-i).toNat

end Base

end ExecutionLayer.AltBn128
