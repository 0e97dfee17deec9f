import ExecutionLayer.Bytes

/-! # Words, addresses and hashes

Values of a fixed number of bytes are bit vectors. Their byte form is big-endian and of full
width, so it determines the value.
-/
namespace ExecutionLayer

abbrev Word := BitVec 256

abbrev Hash := BitVec 256

abbrev Address := BitVec 160

abbrev Bloom := BitVec 2048

def Word.limit : Nat := Nat.pow 2 256

/-- The words from here on are negative in two's complement. -/
def Word.half : Nat := Nat.pow 2 255

def fixedBytes {w : Nat} (x : BitVec w) : Bytes := Bytes.ofNat (w / 8) x.toNat

/-- Reads a string of exactly as many bytes as the type has. -/
def ofFixedBytes (w : Nat) (b : Bytes) : Except Fault (BitVec w) :=
  if b.size = w / 8 then .ok (BitVec.ofNat w b.toNat) else .error (.wrongSize (w / 8) b.size)

namespace Word

def ofNat? (n : Nat) : Except Fault Word :=
  if n < limit then .ok (BitVec.ofNat 256 n) else .error .overflow

def ofBytes (b : Bytes) : Word := BitVec.ofNat 256 b.toNat

def ofBool (b : Bool) : Word := if b then 1 else 0

def toSigned (x : Word) : Int :=
  if x.toNat < half then x.toNat else (x.toNat : Int) - limit

/-- The word that represents an integer in two's complement. Integers outside the range of words
are not represented on the positive side and wrap on the negative side. -/
def ofSigned (i : Int) : Except Fault Word :=
  if 0 ≤ i then ofNat? i.toNat else .ok (BitVec.ofInt 256 i)

def toAddress (x : Word) : Address := x.setWidth 160

end Word

def Address.toWord (a : Address) : Word := a.setWidth 256

def ceil32 (n : Nat) : Nat := (n + 31) / 32 * 32

end ExecutionLayer
