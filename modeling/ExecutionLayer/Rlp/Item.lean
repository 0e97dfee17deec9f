import ExecutionLayer.Word

/-! # Recursive length encoding of items

An item is a byte string or a list of items. Its encoding is the payload after a header that tells
strings from lists and gives the payload's length; a single byte below 128 is its own encoding.
-/
namespace ExecutionLayer.Rlp

inductive Item where
  | bytes (b : List UInt8)
  | list (items : List Item)
deriving Inhabited

/-- The header of a payload: one byte for lengths below 56, else a byte that counts the bytes of
the length, then the length. `base` is 128 for strings and 192 for lists. -/
def header (base length : Nat) : List UInt8 :=
  if length < 56 then [(base + length).toUInt8]
  else (base + 55 + byteLength length).toUInt8 :: BigEndian.digits (byteLength length) length

def wrap (base : Nat) (payload : List UInt8) : List UInt8 :=
  header base payload.length ++ payload

def encodeBytes : List UInt8 → List UInt8
  | [b] => if b < 128 then [b] else wrap 128 [b]
  | bs => wrap 128 bs

mutual

def encode : Item → List UInt8
  | .bytes b => encodeBytes b
  | .list items => wrap 192 (encodeAll items)

def encodeAll : List Item → List UInt8
  | [] => []
  | item :: items => encode item ++ encodeAll items

end

namespace Item

def ofBytes (b : Bytes) : Item := .bytes b.toList

/-- Numbers are written as byte strings without leading zeros. -/
def ofNat (n : Nat) : Item := .bytes (BigEndian.digits (byteLength n) n)

def ofFixed {w : Nat} (x : BitVec w) : Item := .bytes (fixedBytes x).toList

def ofWord (x : Word) : Item := ofNat x.toNat

def ofBool (b : Bool) : Item := .bytes (if b then [1] else [])

mutual

def beq : Item → Item → Bool
  | .bytes a, .bytes b => a == b
  | .list a, .list b => beqAll a b
  | _, _ => false

def beqAll : List Item → List Item → Bool
  | [], [] => true
  | a :: as, b :: bs => beq a b && beqAll as bs
  | _, _ => false

end

instance : BEq Item := ⟨beq⟩

end Item

def encodeToBytes (item : Item) : Bytes := .ofList (encode item)

end ExecutionLayer.Rlp
