import ExecutionLayer.Capacity

/-! # Byte strings

Byte strings at rest are packed arrays. Codecs work on their list of bytes, where taking a string
apart is pattern matching; `Bytes.toList` and `Bytes.ofList` are inverse to each other.
-/
namespace ExecutionLayer

abbrev Bytes := ByteArray

namespace Bytes

instance (priority := 2000) : DecidableEq Bytes := ByteArray.decEq

def toList (b : Bytes) : List UInt8 := b.data.toList

def ofList (l : List UInt8) : Bytes := ⟨⟨l⟩⟩

@[simp] theorem toList_ofList (l : List UInt8) : toList (ofList l) = l := rfl

@[simp] theorem ofList_toList (b : Bytes) : ofList (toList b) = b := rfl

/-- The given number of zero bytes; long strings are put together from halves. -/
def zeros (n : Nat) : Bytes :=
  if n ≤ 256 then ⟨Array.replicate n 0⟩
  else
    let half := zeros (n / 2)
    if n % 2 = 0 then half ++ half else (half ++ half).push 0

theorem data_zeros (n : Nat) : (zeros n).data = Array.replicate n 0 := by
  fun_induction zeros n with
  | case1 => rfl
  | case2 n _ half even ih =>
    rw [ByteArray.data_append, ih, Array.replicate_append_replicate]
    congr 1
    omega
  | case3 n _ half odd ih =>
    rw [ByteArray.data_push, ByteArray.data_append, ih, Array.replicate_append_replicate,
      ← Array.replicate_succ]
    congr 1
    omega

@[simp] theorem size_zeros (n : Nat) : (zeros n).size = n := by
  simp [ByteArray.size, data_zeros]

def padRight (b : Bytes) (size : Nat) : Bytes :=
  if b.size < size then b ++ zeros (size - b.size) else b

def padLeft (b : Bytes) (size : Nat) : Bytes :=
  if b.size < size then zeros (size - b.size) ++ b else b

/-- The part between two places; places behind the end count as the end. -/
def part (b : Bytes) (start stop : Nat) : Bytes := b.extract (min start b.size) (min stop b.size)

/-- The given range of the string continued by zero bytes for ever. -/
def read (b : Bytes) (start size : Nat) : Bytes :=
  padRight (part b start (start + size)) size

def padRight? (b : Bytes) (size : Int) : Except Fault Bytes := do
  return b.padRight (← Capacity.size size)

def padLeft? (b : Bytes) (size : Int) : Except Fault Bytes := do
  return b.padLeft (← Capacity.size size)

def read? (b : Bytes) (start size : Nat) : Except Fault Bytes := do
  Capacity.allotPadded size
  return b.read start size

/-- Puts `value` in place of the bytes that stand from `start` on. What the string lacks up to
`start` is not filled in: a write behind the end appends. -/
def splice (b : Bytes) (start : Nat) (value : Bytes) : Bytes :=
  if start + value.size ≤ b.size then value.copySlice 0 b start value.size
  else part b 0 start ++ value ++ part b (start + value.size) b.size

/-- The place that an index denotes in a string of the given size: negative indices count from the
end, and indices outside the string denote its nearer end. -/
def place (size : Nat) (i : Int) : Nat :=
  if i < 0 then (size + i).toNat else min size i.toNat

def slice (b : Bytes) (start stop : Int) : Bytes :=
  b.extract (place b.size start) (place b.size stop)

def get (b : Bytes) (i : Nat) : UInt8 := if h : i < b.size then b[i] else 0

end Bytes

namespace BigEndian

def value (l : List UInt8) : Nat := l.foldl (fun n b => n * 256 + b.toNat) 0

def digits : Nat → Nat → List UInt8
  | 0, _ => []
  | width + 1, n => digits width (n / 256) ++ [n.toUInt8]

/-- Puts the digits of `n` in front of `tail`, `width` of them. -/
def digitsOnto : Nat → Nat → List UInt8 → List UInt8
  | 0, _, tail => tail
  | width + 1, n, tail => digitsOnto width (n / 256) (n.toUInt8 :: tail)

theorem digitsOnto_eq (width n : Nat) (tail : List UInt8) :
    digitsOnto width n tail = digits width n ++ tail := by
  induction width generalizing n tail with
  | zero => rfl
  | succ width ih => simp [digitsOnto, digits, ih]

end BigEndian

def bitLength (n : Nat) : Nat := if n = 0 then 0 else n.log2 + 1

def byteLength (n : Nat) : Nat := (bitLength n + 7) / 8

namespace Bytes

def toNat (b : Bytes) : Nat := b.data.foldl (fun n x => n * 256 + x.toNat) 0

def toNatLittle (b : Bytes) : Nat := b.data.foldr (fun x n => n * 256 + x.toNat) 0

def ofNat (width n : Nat) : Bytes := ofList (BigEndian.digitsOnto width n [])

def ofNatMinimal (n : Nat) : Bytes := ofNat (byteLength n) n

def ofNatLittle (width n : Nat) : Bytes := ofList (BigEndian.digitsOnto width n []).reverse

end Bytes

end ExecutionLayer
