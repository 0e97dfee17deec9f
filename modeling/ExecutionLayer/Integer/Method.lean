import ExecutionLayer.Integer.Plain

/-! # Operations by name

Each kind of integer offers a set of methods, besides those that look at the value alone.
-/
namespace ExecutionLayer.Integer

inductive Method where
  | new
  | ofBytes
  | ofBytesLittle
  | ofSigned
  /-- Bytes of any number and a given order, which is big-endian if none is given. -/
  | ofOrderedBytes
  | operator (op : Operator) (side : Side)
  | pow
  | powReflected
  | wrapping (op : Operator)
  | wrappingPow
  | plain (m : Plain)
  | complement
  | toBytes
  /-- Bytes of a given number and order; big-endian if no order is given. -/
  | toSizedBytes
  | toWordBytes
  | toBytesLittle
  /-- Little-endian bytes, as many as the type has; `width` is what the name of the method says. -/
  | toFullBytesLittle (width : Nat)
  | toSigned
deriving DecidableEq, Repr

inductive Argument where
  | integer (i : Int)
  | bytes (b : Bytes)
  | text (s : String)

def Method.isMethodOf (m : Method) (kind : Kind) : Bool :=
  match m, kind with
  | .ofBytesLittle, kind | .toBytesLittle, kind => kind != .fixed 256
  | .ofSigned, kind | .toSigned, kind => kind == .fixed 256
  | .toWordBytes, kind => kind == .natural || kind == .fixed 256
  | .toFullBytesLittle width, kind => kind == .fixed (8 * width) && width < 32
  | .wrapping _, .natural | .wrappingPow, .natural => false
  | _, _ => true

/-- Makes an integer from an argument. Text and bytes are never accepted, but are told apart by
whether they write a numeral. -/
def construct (kind : Kind) : Argument → Except Fault Nat
  | .integer i => kind.make i
  | .text s => .error (if (Text.integer? 10 s).isSome then .wrongType else .invalidValue)
  | .bytes b =>
    let ascii := b.data.all (· < 128)
    let text := String.ofList (b.toList.map fun x => Char.ofNat x.toNat)
    .error (if ascii && (Text.integer? 10 text).isSome then .wrongType else .invalidValue)

def number (n : Nat) : Outcome := .answer (.number n)

def Argument.integer? : Argument → Option Int
  | integer i => some i
  | _ => none

/-- The order of bytes that a text names: whether the least comes first. -/
def isLittle (order : String) : Except Fault Bool :=
  if order = "little" then .ok true
  else if order = "big" then .ok false
  else .error .invalidValue

def applyMethod (kind : Kind) (m : Method) (self : Nat) (args : List Argument) :
    Except Fault Outcome := do
  match m, args with
  | .operator op side, [.integer i] => return .answer (← apply kind op side self i)
  | .operator _ _, [_] => return .notDefined
  | .wrapping op, [.integer i] =>
    match kind with
    | .fixed bits => return .answer (← wrapping bits op self i)
    | .natural => throw .missingComponent
  | .wrapping _, [_] => return .notDefined
  | .pow, [.integer i] => return .answer (← Integer.pow kind self i none)
  | .pow, [.integer i, .integer m] => return .answer (← Integer.pow kind self i (some m))
  | .powReflected, [.integer i] => return .answer (← Integer.powReflected kind self i none)
  | .powReflected, [.integer i, .integer m] =>
    return .answer (← Integer.powReflected kind self i (some m))
  | .wrappingPow, [.integer i] =>
    match kind with
    | .fixed bits => return .answer (← Integer.wrappingPow bits self i none)
    | .natural => throw .missingComponent
  | .wrappingPow, [.integer i, .integer m] =>
    match kind with
    | .fixed bits => return .answer (← Integer.wrappingPow bits self i (some m))
    | .natural => throw .missingComponent
  | .pow, [_, .integer m] | .powReflected, [_, .integer m] | .wrappingPow, [_, .integer m] =>
    require (kind.admits m) .overflow
    return .notDefined
  | .pow, [_] | .powReflected, [_] | .wrappingPow, [_]
  | .pow, [_, _] | .powReflected, [_, _] | .wrappingPow, [_, _] => return .notDefined
  | .complement, [] => return .answer (.number (Integer.complement kind self))
  | .plain m, args => m.apply self (args.map Argument.integer?)
  | .toBytes, [] => return .answer (.bytes (.ofNatMinimal self))
  | .toWordBytes, [] => return .answer (.bytes (← Integer.toBytes 32 self))
  | .toBytesLittle, [] => return .answer (.bytes (.ofNatLittle (byteLength self) self))
  | .toBytesLittle, [.integer width] =>
    require (kind = .natural) .wrongType
    return .answer (.bytes (← Integer.toBytesLittle width self))
  | .toSizedBytes, [.integer width, .text order] =>
    require (Capacity.admits width) .overflow
    let little ← isLittle order
    let b ← Integer.toBytesLittle width self
    return .answer (.bytes (if little then b else .ofList b.toList.reverse))
  | .toSizedBytes, args => Plain.bytes.apply self (args.map Argument.integer?)
  | .toFullBytesLittle width, [] => return .answer (.bytes (.ofNatLittle width self))
  | .toSigned, [] => return .answer (.number (Word.toSigned (BitVec.ofNat 256 self)))
  | _, _ => throw .wrongType

/-- Why arguments cannot be read as bytes: text is refused for its length first. -/
def notBytes (kind : Kind) : List Argument → Fault
  | [.text s] =>
    match kind with
    | .natural => .wrongType
    | .fixed bits => if (bits + 7) / 8 < s.length then .invalidValue else .wrongType
  | _ => .wrongType

/-- Whether a number that is shifted has few enough digits to be written. This is told without
computing it. -/
def isShiftWritable (a bits : Int) : Bool :=
  a = 0 || bits < Text.maxDecimalBits || !(Capacity.allotBits bits.toNat).isOk

def Method.isWritable (m : Method) (self : Nat) (args : List Argument) : Bool :=
  match m, args with
  | .operator .shiftLeft .left, [.integer i] => isShiftWritable self i
  | .operator .shiftLeft .right, [.integer i] => isShiftWritable i self
  | _, _ => true

/-- Runs a method, if its outcome can be written. Constructors take their argument as it is; all
other methods belong to the integer made from the first argument. -/
def run (kind : Kind) (m : Method) (args : List Argument) : Except Fault Outcome := do
  match m, args with
  | .new, [a] => return number (← construct kind a)
  | .new, _ => throw .wrongType
  | .ofBytes, [.bytes b] => return number (← Integer.ofBytes kind b)
  | .ofBytes, args => throw (notBytes kind args)
  | .ofBytesLittle, args =>
    require (m.isMethodOf kind) .missingComponent
    match args with
    | [.bytes b] => return number (← Integer.ofBytesLittle kind b)
    | args => throw (notBytes kind args)
  | .ofSigned, args =>
    require (m.isMethodOf kind) .missingComponent
    match args with
    | [.integer i] => return number (← Word.ofSigned i).toNat
    | _ => throw .wrongType
  | .ofOrderedBytes, [.bytes b] => return number (← kind.make b.toNat)
  | .ofOrderedBytes, [a, .text order] =>
    match ← isLittle order, a with
    | true, .bytes b => return number (← kind.make b.toNatLittle)
    | false, .bytes b => return number (← kind.make b.toNat)
    | _, _ => throw .wrongType
  | .ofOrderedBytes, _ => throw .wrongType
  | m, a :: args =>
    let self ← construct kind a
    require (m.isMethodOf kind) .missingComponent
    require (m.isWritable self args) .invalidValue
    applyMethod kind m self args
  | _, [] => throw .wrongType

end ExecutionLayer.Integer
