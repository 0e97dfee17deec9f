import ExecutionLayer.Evm.Code
import ExecutionLayer.Evm.Gas
import ExecutionLayer.Evm.Message
import ExecutionLayer.Evm.Trace
import ExecutionLayer.Log

/-! # Frames and the world

A frame is one message being executed. The world is what frames change and leave to each other.
-/
namespace ExecutionLayer.Evm

structure Frame where
  pc : Nat
  /-- The stack with its top at the end. -/
  stack : Array Word
  memory : Bytes
  code : Bytes
  gasLeft : Nat
  destinations : Bytes
  logs : List Log
  refund : Int
  running : Bool
  message : Message
  output : Bytes
  accountsToDelete : AddressSet
  touchedAccounts : AddressSet
  returnData : Bytes
  error : Option Halt
  accessedAddresses : AddressSet
  accessedSlots : Std.ExtTreeSet SlotKey

def Frame.ofMessage (message : Message) : Frame where
  pc := 0
  stack := #[]
  memory := ByteArray.empty
  code := message.code
  gasLeft := message.gas
  destinations := markDestinations message.code
  logs := []
  refund := 0
  running := true
  message := message
  output := ByteArray.empty
  accountsToDelete := ∅
  touchedAccounts := ∅
  returnData := ByteArray.empty
  error := none
  accessedAddresses := message.accessedAddresses
  accessedSlots := message.accessedSlots

instance : Inhabited Frame := ⟨.ofMessage default⟩

def Frame.view (f : Frame) : Trace.View where
  pc := f.pc
  gasLeft := f.gasLeft
  memory := f.memory
  stack := f.stack
  returnData := f.returnData
  depth := f.message.depth
  refund := f.refund + f.message.refundAbove
  running := f.running
  codeSize := f.code.size

structure World where
  state : State
  transient : Transient := {}
  tracer : Option Trace.Tracer := none

structure Machine where
  frame : Frame
  world : World

namespace Frame

/-- The frame after a halt. A revert keeps gas and output. -/
def fail (fork : Fork) (f : Frame) : Halt → Frame
  | .revert => { f with error := some .revert }
  | h =>
    { f with
      gasLeft := 0
      output := if Fork.byzantium ≤ fork then ByteArray.empty else f.output
      error := some h }

end Frame

namespace World

def modifyState (w : World) (f : State → State) : World := { w with state := f w.state }

def begin (w : World) : World :=
  { w with state := w.state.begin, transient := w.transient.begin }

def commit (w : World) : Except Fault World := do
  return { w with state := ← w.state.commit, transient := ← w.transient.commit }

def rollback (w : World) : Except Fault World := do
  return { w with state := ← w.state.rollback, transient := ← w.transient.rollback }

end World

end ExecutionLayer.Evm
