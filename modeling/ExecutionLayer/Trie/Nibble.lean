import ExecutionLayer.Bytes

/-! # Nibbles

Keys of a trie are read four bits at a time. A path of nibbles inside a node is packed two to a
byte after a first nibble that tells leaves from extensions and even lengths from odd ones.
-/
namespace ExecutionLayer.Trie

def nibbles : List UInt8 → List UInt8
  | [] => []
  | b :: bs => (b >>> 4) :: (b &&& 15) :: nibbles bs

def commonLength : List UInt8 → List UInt8 → Nat
  | a :: as, b :: bs => if a = b then commonLength as bs + 1 else 0
  | _, _ => 0

def pack : List UInt8 → List UInt8
  | a :: b :: rest => (16 * a + b) :: pack rest
  | _ => []

/-- The first byte's upper nibble: two for leaves, and one more for paths of odd length. -/
def pathFlag (leaf : Bool) (path : List UInt8) : UInt8 :=
  (if leaf then 2 else 0) + (if path.length % 2 = 0 then 0 else 1)

def compact (path : List UInt8) (leaf : Bool) : List UInt8 :=
  match path.length % 2, path with
  | 1, first :: rest => pack (pathFlag leaf path :: first :: rest)
  | _, _ => 16 * pathFlag leaf path :: pack path

/-- Whether packing two entries to a byte leaves the range of bytes nowhere. -/
def packs : List UInt8 → Bool
  | a :: b :: rest => 16 * a.toNat + b.toNat < 256 && packs rest
  | _ => true

def compact? (path : List UInt8) (leaf : Bool) : Except Fault (List UInt8) :=
  let padded := if path.length % 2 = 0 then path else pathFlag leaf path :: path
  if packs padded then .ok (compact path leaf) else .error .invalidValue

end ExecutionLayer.Trie
