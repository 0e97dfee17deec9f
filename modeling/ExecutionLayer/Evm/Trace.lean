import ExecutionLayer.Evm.Halt
import ExecutionLayer.Evm.Opcode
import ExecutionLayer.Hex

/-! # Traces

A trace has a line for every instruction that was started, written down before its effect is known.
The gas it costs and the halt it ends in are entered into the last line when they become known;
each is entered at most once. Calls of precompiled contracts have lines too, which are not shown.
-/
namespace ExecutionLayer.Evm.Trace

structure Step where
  pc : Nat
  op : Nat
  opName : String
  gas : Nat
  gasCost : Nat
  memory : Option Bytes
  memorySize : Nat
  stack : Option (Array Word)
  returnData : Option Bytes
  depth : Nat
  refund : Int
  gasCostKnown : Bool := false
  errorKnown : Bool := false
  precompile : Bool := false
  error : Option String := none

inductive Line where
  | step (s : Step)
  | final (output : Bytes) (gasUsed : Nat) (error : Option String)

/-- What a line shows of a frame. -/
structure View where
  pc : Nat
  gasLeft : Nat
  memory : Bytes
  stack : Array Word
  returnData : Bytes
  depth : Nat
  refund : Int
  running : Bool
  codeSize : Nat

/-- Which parts of a frame are written down. -/
structure Detail where
  memory : Bool := false
  stack : Bool := true
  returnData : Bool := false

/-- Memory and returned data are mostly asked for together. -/
instance : Coe Bool Detail := ⟨fun full => { memory := full, returnData := full }⟩

structure Tracer where
  fork : Fork
  detailed : Detail
  lines : Array Line := #[]

inductive Event where
  | precompileStart
  | precompileEnd
  | opStart (op : Opcode)
  | opEnd
  | halted (h : Halt)
  /-- The code has come to its end. -/
  | codeEnd
  | gas (cost : Nat)
  | transactionEnd (gasUsed : Nat) (output : Bytes) (error : Option Halt)

namespace Tracer

def last? (t : Tracer) : Option Line := t.lines.back?

def push (t : Tracer) (line : Line) : Tracer := { t with lines := t.lines.push line }

def newStep (t : Tracer) (v : View) (op : Nat) (opName : String) : Step where
  pc := v.pc
  op := op
  opName := opName
  gas := v.gasLeft
  gasCost := 0
  memory := if t.detailed.memory && v.memory.size ≠ 0 then some v.memory else none
  memorySize := v.memory.size
  stack := if t.detailed.stack then some v.stack else none
  returnData := if t.detailed.returnData && Fork.byzantium ≤ t.fork then some v.returnData else none
  depth := v.depth + 1
  refund := v.refund

def amend (t : Tracer) (f : Step → Step) : Except Fault Tracer :=
  match t.last? with
  | some (.step s) => .ok { t with lines := t.lines.pop.push (.step (f s)) }
  | _ => .error .brokenInvariant

def opStart (t : Tracer) (v : View) (op : Opcode) : Tracer :=
  t.push (.step (t.newStep v op.toByte.toNat (op.name t.fork)))

/-- A halt before the frame has a line of its own needs a new line, which only an invalid
opcode can have. -/
def halted (t : Tracer) (v : View) (h : Halt) : Except Fault Tracer :=
  match t.last? with
  | some (.final _ _ _) => .error .brokenInvariant
  | none => newLine
  | some (.step s) =>
    if s.errorKnown || s.depth = v.depth then newLine
    else t.amend fun s => { s with error := some h.name, errorKnown := true }
where
  newLine : Except Fault Tracer :=
    match h with
    | .invalidOpcode code =>
      .ok (t.push (.step { t.newStep v code.toNat "InvalidOpcode" with
        gasCostKnown := true, errorKnown := true, error := some h.name }))
    | _ => .error .wrongType

def record (t : Tracer) (v : View) : Event → Except Fault Tracer
  | .precompileStart => .ok (t.push (.step { t.newStep v 0 "" with precompile := true }))
  | .opStart op => .ok (t.opStart v op)
  | .precompileEnd | .opEnd => t.amend fun s => { s with gasCostKnown := true, errorKnown := true }
  | .halted h => t.halted v h
  | .codeEnd => .ok (if !v.running || v.codeSize = 0 then t else t.opStart v .stop)
  | .gas cost =>
    if t.lines.isEmpty then .ok t
    else
      t.amend fun s =>
        if s.gasCostKnown then s
        else { s with gasCost := cost, refund := v.refund, gasCostKnown := true }
  | .transactionEnd gasUsed output error =>
    .ok (t.push (.final output gasUsed (error.map Halt.name)))

def shown (t : Tracer) : List Line :=
  t.lines.toList.filter fun
    | .step s => !s.precompile
    | .final _ _ _ => true

end Tracer

inductive Shown where
  | number (i : Int)
  | text (s : String)
  | texts (l : List String)
deriving DecidableEq, Repr

/-- An amount of gas; amounts above 64 bits are left out. -/
def shownGas (name : String) (n : Nat) : List (String × Shown) :=
  if n < Nat.pow 2 64 then [(name, .text (Hex.ofNat n))] else []

def shownBytes (name : String) : Option Bytes → List (String × Shown)
  | some b => [(name, .text (Hex.encode b))]
  | none => []

def shownStack : Option (Array Word) → List (String × Shown)
  | some stack => [("stack", .texts (stack.toList.map fun x => Hex.ofNat x.toNat))]
  | none => []

def shownError : Option String → List (String × Shown)
  | some e => [("error", .text e)]
  | none => []

def Line.fields : Line → List (String × Shown)
  | .step s =>
    [("pc", .number s.pc), ("op", .number s.op), ("opName", .text s.opName)]
      ++ shownGas "gas" s.gas ++ shownGas "gasCost" s.gasCost ++ shownBytes "memory" s.memory
      ++ [("memSize", .number s.memorySize)] ++ shownStack s.stack
      ++ shownBytes "returnData" s.returnData
      ++ [("depth", .number s.depth), ("refund", .number s.refund)] ++ shownError s.error
  | .final output gasUsed error =>
    [("output", .text (Hex.digits output)), ("gasUsed", .text (Hex.ofNat gasUsed))]
      ++ shownError error

end ExecutionLayer.Evm.Trace
