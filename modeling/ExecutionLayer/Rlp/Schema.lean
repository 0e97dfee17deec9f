import ExecutionLayer.Rlp.Decode
import ExecutionLayer.Rlp.Value

/-! # Decoding to a type

A schema names the type that an item has to have. Records need exactly their fields. Tuples do
not: components and items are paired up to the end of the shorter list. A union needs exactly one
variant that fits.
-/
namespace ExecutionLayer.Rlp

inductive Schema where
  | natural
  /-- Numbers of up to the given number of bits; leading zero bytes are allowed. -/
  | fixedWidth (bits : Nat)
  | bytes
  | fixedBytes (size : Nat)
  | truth
  /-- What numbers, or strings, of a fixed but unknown size have in common. -/
  | unsized (numeric : Bool)
  | tuple (parts : List Schema)
  /-- A tuple whose last component is repeated as often as there are items left. -/
  | tupleRepeating (parts : List Schema)
  | union (variants : List Schema)
  | record (name : String) (fields : List (String × Schema))
  /-- A type of its own in the form of another one. Types with different tags are different. -/
  | tagged (tag : Nat) (form : Schema)
  /-- A type to which nothing can be decoded, for a reason of its own. -/
  | refused (name : String) (reason : DecodeError)
deriving Inhabited

namespace Schema

def many (s : Schema) : Schema := tupleRepeating [s]

def unsupported (name : String) : Schema := refused name .unsupportedType

mutual

def beq : Schema → Schema → Bool
  | natural, natural | bytes, bytes | truth, truth => true
  | fixedWidth a, fixedWidth b => a == b
  | unsized a, unsized b => a == b
  | fixedBytes a, fixedBytes b => a == b
  | tuple a, tuple b | tupleRepeating a, tupleRepeating b | union a, union b => beqAll a b
  | record a as, record b bs => a == b && beqFields as bs
  | tagged i a, tagged j b => i == j && beq a b
  | refused a e, refused b f => a == b && e == f
  | _, _ => false

def beqAll : List Schema → List Schema → Bool
  | [], [] => true
  | a :: as, b :: bs => beq a b && beqAll as bs
  | _, _ => false

def beqFields : List (String × Schema) → List (String × Schema) → Bool
  | [], [] => true
  | (a, s) :: as, (b, t) :: bs => a == b && beq s t && beqFields as bs
  | _, _ => false

end

instance : BEq Schema := ⟨beq⟩

/-- The union of types: unions among them are dissolved, repetitions dropped, and a single type
stands for itself. -/
def unionOf (variants : List Schema) : Schema :=
  let flat := variants.flatMap fun
    | union more => more
    | s => [s]
  match flat.foldl (fun kept s => if kept.contains s then kept else kept ++ [s]) [] with
  | [s] => s
  | kept => union kept

mutual

def decode : Schema → Item → Except DecodeError Value
  | natural, .bytes b => .ok (.number (BigEndian.value b))
  | fixedWidth bits, .bytes b =>
    if (bits + 7) / 8 < b.length then .error .malformed else .ok (.number (BigEndian.value b))
  | bytes, .bytes b => .ok (.bytes (.ofList b))
  | fixedBytes size, .bytes b =>
    if b.length = size then .ok (.bytes (.ofList b)) else .error .malformed
  | truth, .bytes [] => .ok (.truth false)
  | truth, .bytes [b] => if b = 1 then .ok (.truth true) else .error .malformed
  | unsized _, .bytes _ => .error .unknownSize
  | tuple parts, .list items =>
    if parts.isEmpty then .error .emptyTuple else (decodeTuple parts items).map .seq
  | tupleRepeating parts, .list items =>
    if parts.isEmpty then .error .emptyTuple else (decodeRepeating parts items).map .seq
  | union variants, item =>
    match decodeVariants variants item with
    | [] => .error .noVariant
    | [value] => .ok value
    | _ => .error .manyVariants
  | record name _, .bytes _ => .error (.bytesForRecord name)
  | record name fields, .list items =>
    if fields.length = items.length then (decodeFields fields items).map (.record name)
    else .error (.fieldCount name fields.length items.length)
  | tagged _ form, item => decode form item
  | refused _ reason, _ => .error reason
  | _, _ => .error .malformed

/-- Pairs components and items up to the end of the shorter list. -/
def decodeTuple : List Schema → List Item → Except DecodeError (List Value)
  | s :: ss, item :: items => do
    let value ← decode s item
    return value :: (← decodeTuple ss items)
  | _, _ => .ok []

/-- Like `decodeTuple`, with the last component for all further items. -/
def decodeRepeating : List Schema → List Item → Except DecodeError (List Value)
  | [s], items => items.mapM fun item => decode s item
  | s :: ss, item :: items => do
    let value ← decode s item
    return value :: (← decodeRepeating ss items)
  | _, _ => .ok []

/-- The values of the variants that fit. -/
def decodeVariants : List Schema → Item → List Value
  | [], _ => []
  | s :: ss, item =>
    match decode s item with
    | .ok value => value :: decodeVariants ss item
    | .error _ => decodeVariants ss item

def decodeFields : List (String × Schema) → List Item →
    Except DecodeError (List (String × Value))
  | (name, s) :: fields, item :: items => do
    let value ← decode s item
    return (name, value) :: (← decodeFields fields items)
  | _, _ => .ok []

end

def decodeBytes (s : Schema) (b : Bytes) : Except DecodeError Value := do
  s.decode (← Rlp.decode b.toList)

end Schema

end ExecutionLayer.Rlp
