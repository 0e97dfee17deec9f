import ExecutionLayer.Evm.Frame

/-! # Execution

Execution reads the environment, changes frame and world, and may stop; what was changed before it
stopped stays changed.
-/
namespace ExecutionLayer.Evm

abbrev WorldOp := ReaderT Environment (EStateM Stop World)

abbrev Exec := ReaderT Environment (EStateM Stop Machine)

namespace WorldOp

def fork : WorldOp Fork := return (← read).fork

/-- Takes a step on the world that succeeds or leaves it as it was. -/
def step (f : World → Except Fault World) : WorldOp Unit := fun _ w =>
  match f w with
  | .ok w => .ok () w
  | .error e => .error (.fault e) w

/-- Runs an operation on the state; `stop` says what a fault in it counts as. -/
def onState {α : Type} (stop : Fault → Stop) (op : StateOp α) : WorldOp α := fun _ w =>
  match op w.state with
  | .ok a s => .ok a { w with state := s }
  | .error f s => .error (stop f) { w with state := s }

def changeBalances (op : StateOp Unit) : WorldOp Unit := onState .imbalance op

/-- Runs a frame. If it halts, the halt is answered beside the frame as it was left. -/
def attempt (frame : Frame) (body : Exec Unit) : WorldOp (Frame × Option Halt) := fun env w =>
  match body env ⟨frame, w⟩ with
  | .ok _ m => .ok (m.frame, none) m.world
  | .error (.halt h) m => .ok (m.frame, some h) m.world
  | .error stop m => .error stop m.world

end WorldOp

namespace Exec

def onWorld {α : Type} (op : WorldOp α) : Exec α := fun env m =>
  match op env m.world with
  | .ok a w => .ok a { m with world := w }
  | .error e w => .error e { m with world := w }

def halt {α : Type} (h : Halt) : Exec α := throw (.halt h)

def fault {α : Type} (f : Fault) : Exec α := throw (.fault f)

def fork : Exec Fork := return (← read).fork

def frame : Exec Frame := return (← get).frame

def message : Exec Message := return (← frame).message

@[inline] def modifyFrame (f : Frame → Frame) : Exec Unit :=
  modify fun m => { m with frame := f m.frame }

def state : Exec State := return (← get).world.state

@[inline] def modifyState (f : State → State) : Exec Unit :=
  modify fun m => { m with world := { m.world with state := f m.world.state } }

def transient : Exec Transient := return (← get).world.transient

@[inline] def modifyTransient (f : Transient → Transient) : Exec Unit :=
  modify fun m => { m with world := { m.world with transient := f m.world.transient } }

def ofExcept {α : Type} : Except Fault α → Exec α
  | .ok a => pure a
  | .error f => fault f

def trace (event : Trace.Event) : Exec Unit := fun _ m =>
  match m.world.tracer with
  | none => .ok () m
  | some t =>
    match t.record m.frame.view event with
    | .ok t => .ok () { m with world := { m.world with tracer := some t } }
    | .error f => .error (.fault f) m

def chargeGas (amount : Nat) : Exec Unit := do
  trace (.gas amount)
  if (← frame).gasLeft < amount then halt .outOfGas
  else if Word.limit ≤ amount then fault .overflow
  else modifyFrame fun f => { f with gasLeft := f.gasLeft - amount }

def addGas (amount : Nat) : Exec Unit :=
  modifyFrame fun f => { f with gasLeft := f.gasLeft + amount }

def addRefund (amount : Int) : Exec Unit :=
  modifyFrame fun f => { f with refund := f.refund + amount }

def stackLimit : Nat := 1024

def pop : Exec Word := do
  match (← frame).stack.back? with
  | none => halt .stackUnderflow
  | some x =>
    modifyFrame fun f => { f with stack := f.stack.pop }
    return x

def push (x : Word) : Exec Unit := do
  if (← frame).stack.size = stackLimit then halt .stackOverflow
  else modifyFrame fun f => { f with stack := f.stack.push x }

def pushNat (n : Nat) : Exec Unit := do push (← ofExcept (Word.ofNat? n))

def popAddress : Exec Address := return (← pop).toAddress

def popNat : Exec Nat := return (← pop).toNat

def memoryExtension (ranges : List (Nat × Nat)) : Exec Gas.Extension := do
  return Gas.extendMemory (← frame).memory.size ranges

def expandMemory (size : Nat) : Exec Unit := do
  if size ≠ 0 then
    ofExcept (Capacity.allot size)
    modifyFrame fun f => { f with memory := f.memory ++ Bytes.zeros size }

def chargeWithMemory (amount : Nat) (ranges : List (Nat × Nat)) : Exec Unit := do
  let extension ← memoryExtension ranges
  chargeGas (amount + extension.cost)
  expandMemory extension.expandBy

def readMemory (start size : Nat) : Exec Bytes := do
  return (← frame).memory.part start (start + size)

def writeMemory (start : Nat) (value : Bytes) : Exec Unit :=
  modifyFrame fun f => { f with memory := f.memory.splice start value }

def advance (size : Nat) : Exec Unit := modifyFrame fun f => { f with pc := f.pc + size }

def next : Exec Unit := advance 1

def finish : Exec Unit := modifyFrame fun f => { f with running := false }

/-- Refuses to change anything in a static context, which exists from Byzantium on. -/
def requireMutable : Exec Unit := do
  if (← frame).message.isStatic then halt .writeInStaticContext

def accessAccount (address : Address) : Exec Bool := do
  if (← frame).accessedAddresses.contains address then return true
  modifyFrame fun f => { f with accessedAddresses := f.accessedAddresses.insert address }
  return false

def accessSlot (key : Word) : Exec Bool := do
  let f ← frame
  let slot := slotKey f.message.currentTarget key
  if f.accessedSlots.contains slot then return true
  modifyFrame fun f => { f with accessedSlots := f.accessedSlots.insert slot }
  return false

/-- The price of an access to an account: `before` is the flat price of earlier forks. -/
def accountAccessCost (before : Fork → Nat) (address : Address) : Exec Nat := do
  let fork ← fork
  if fork < Fork.berlin then return before fork
  if ← accessAccount address then return Gas.warmAccess else return Gas.coldAccount

end Exec

end ExecutionLayer.Evm
