import ExecutionLayer.Evm.Halt
import ExecutionLayer.Rlp.Decode

/-! # Rejections

Why a transaction or a block is not accepted.
-/
namespace ExecutionLayer

inductive Rejection where
  | invalidBlock
  | malformed (e : Rlp.DecodeError)
  | stopped (s : Evm.Stop)
deriving DecidableEq, Repr, Inhabited

namespace Rejection

def fault (f : Fault) : Rejection := stopped (.fault f)

def imbalance (f : Fault) : Rejection := stopped (.imbalance f)

def ofFault {α : Type} : Except Fault α → Except Rejection α
  | .ok a => .ok a
  | .error f => .error (fault f)

def ofDecode {α : Type} : Except Rlp.DecodeError α → Except Rejection α
  | .ok a => .ok a
  | .error e => .error (malformed e)

def check (condition : Bool) : Except Rejection Unit :=
  if condition then .ok () else .error invalidBlock

end Rejection

end ExecutionLayer
