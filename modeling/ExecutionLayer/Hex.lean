import ExecutionLayer.Integer

/-! # Hexadecimal text

Byte strings and numbers are exchanged as hexadecimal digits, usually after the mark `0x`.
-/
namespace ExecutionLayer.Hex

def hasMark (s : String) : Bool := s.startsWith "0x"

def dropMark (s : String) : List Char :=
  if hasMark s then s.toList.drop 2 else s.toList

/-- Reads pairs of digits and adds their bytes to `acc`; blanks may stand between pairs. -/
def pairs? (acc : Bytes) : List Char → Option Bytes
  | [] => some acc
  | c :: rest =>
    if Text.isAsciiBlank c then pairs? acc rest
    else
      match rest with
      | [] => none
      | d :: more =>
        match Text.hexValue? c, Text.hexValue? d with
        | some high, some low => pairs? (acc.push (high * 16 + low).toUInt8) more
        | _, _ => none

def decode (cs : List Char) : Except Fault Bytes :=
  match pairs? ByteArray.empty cs with
  | some b => .ok b
  | none => .error .invalidValue

def toBytes (s : String) : Except Fault Bytes := decode (dropMark s)

/-- Reads a string of exactly `size` bytes, after zero digits are put in front up to `digits`
characters. -/
def toSized (size digits : Nat) (s : String) : Except Fault Bytes := do
  let b ← decode (Text.padZeros (dropMark s) digits)
  if b.size = size then return b else throw (.wrongSize size b.size)

def toBytes8 (s : String) : Except Fault Bytes := toSized 8 16 s

/-- Text for twenty bytes is filled up to twenty digits only, half of what the bytes need. -/
def toBytes20 (s : String) : Except Fault Bytes := toSized 20 20 s

def toBytes32 (s : String) : Except Fault Bytes := toSized 32 64 s

def toBytes256 (s : String) : Except Fault Bytes := toSized 256 512 s

def toHash (s : String) : Except Fault Hash := do ofFixedBytes 256 (← toBytes s)

def toRoot (s : String) : Except Fault Hash := toHash s

def toBloom (s : String) : Except Fault Bloom := do ofFixedBytes 2048 (← toBytes s)

def toAddress (s : String) : Except Fault Address := do
  ofFixedBytes 160 (← decode (Text.padZeros (dropMark s) 40))

def toInteger (kind : Integer.Kind) (s : String) : Except Fault Nat :=
  match Text.integer? 16 (String.ofList (dropMark s)) with
  | some i => kind.make i
  | none => .error .invalidValue

/-- Reads a word in base sixteen if the mark stands in front, else in base ten. -/
def toWordAnyBase (s : String) : Except Fault Word := do
  if hasMark s then return BitVec.ofNat 256 (← toInteger (.fixed 256) s)
  match Text.integer? 10 s with
  | some i => return BitVec.ofNat 256 (← (Integer.Kind.fixed 256).make i)
  | none => throw .invalidValue

def digit (n : Nat) : Char := if n < 10 then Char.ofNat (48 + n) else Char.ofNat (87 + n)

def digits (b : Bytes) : String :=
  b.data.foldl (fun s x => (s.push (digit (x.toNat / 16))).push (digit (x.toNat % 16))) ""

def encode (b : Bytes) : String := "0x" ++ digits b

def ofNat (n : Nat) : String := "0x" ++ String.ofList (Nat.toDigits 16 n)

end ExecutionLayer.Hex
