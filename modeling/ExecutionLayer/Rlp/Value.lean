import ExecutionLayer.Rlp.Item

/-! # Values with structure

A value is what an encoding stands for once its type is known: numbers, byte strings, truth values,
text, sequences and records with named fields. Signed integers and the absent value occur in
records but have no encoding.
-/
namespace ExecutionLayer.Rlp

inductive Value where
  | number (n : Nat)
  | bytes (b : Bytes)
  | truth (b : Bool)
  | text (s : String)
  | seq (values : List Value)
  | record (name : String) (fields : List (String × Value))
  | absent
  | integer (i : Int)
deriving Inhabited

namespace Value

def fixed {w : Nat} (x : BitVec w) : Value := .bytes (fixedBytes x)

def word {w : Nat} (x : BitVec w) : Value := .number x.toNat

mutual

def toItem? : Value → Option Item
  | number n => some (.ofNat n)
  | bytes b => some (.ofBytes b)
  | truth b => some (.ofBool b)
  | text s => some (.ofBytes s.toUTF8)
  | seq values => (toItems? values).map .list
  | record _ fields => (fieldItems? fields).map .list
  | absent => none
  | integer _ => none

def toItems? : List Value → Option (List Item)
  | [] => some []
  | v :: vs => do return (← toItem? v) :: (← toItems? vs)

def fieldItems? : List (String × Value) → Option (List Item)
  | [] => some []
  | (_, v) :: fields => do return (← toItem? v) :: (← fieldItems? fields)

end

mutual

def ofItem : Item → Value
  | .bytes b => bytes (.ofList b)
  | .list items => seq (ofItems items)

def ofItems : List Item → List Value
  | [] => []
  | item :: items => ofItem item :: ofItems items

end

end Value

end ExecutionLayer.Rlp
