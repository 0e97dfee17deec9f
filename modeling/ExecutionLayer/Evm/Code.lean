import ExecutionLayer.Bytes

/-! # Jump destinations

A jump may only go to a `JUMPDEST` that begins an instruction. The bytes that belong to a push are
no instructions, so the code is read from its start, one instruction after the other.
-/
namespace ExecutionLayer.Evm

def immediateSize (b : UInt8) : Nat :=
  if 0x60 ≤ b.toNat && b.toNat ≤ 0x7f then b.toNat - 0x5f else 0

/-- Marks destinations with one and all other places with zero, from place `i` on. The marks of
the places before `i` are in `marks`. -/
def markFrom (code : Bytes) (i : Nat) (marks : Bytes) : Bytes :=
  if h : i < code.size then
    let b := code[i]
    let size := immediateSize b
    let marks := marks.push (if b = 0x5b then 1 else 0)
    markFrom code (i + 1 + size) (if size = 0 then marks else marks ++ Bytes.zeros size)
  else marks
termination_by code.size - i

def markDestinations (code : Bytes) : Bytes := markFrom code 0 ByteArray.empty

def isDestination (marks : Bytes) (place : Nat) : Bool := marks.get place = 1

def jumpDestinations (code : Bytes) : List Nat :=
  (List.range code.size).filter (isDestination (markDestinations code))

end ExecutionLayer.Evm
