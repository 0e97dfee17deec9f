import ExecutionLayer.Crypto.Keccak
import ExecutionLayer.Fork
import ExecutionLayer.Log

/-! # Receipts -/
namespace ExecutionLayer

/-- How a receipt records the result: first by the root of the state, since Byzantium by success. -/
inductive Receipt.Result where
  | root (h : Hash)
  | succeeded (b : Bool)
deriving DecidableEq, Repr, Inhabited

/-- The result as the receipts of a fork record it. Success has no root to write down before
Byzantium; a root is not success afterwards. -/
def Receipt.Result.recorded? (fork : Fork) : Receipt.Result → Option Receipt.Result
  | .root h => some (if Fork.byzantium ≤ fork then .succeeded false else .root h)
  | .succeeded b => if Fork.byzantium ≤ fork then some (.succeeded b) else none

structure Receipt where
  result : Receipt.Result
  cumulativeGasUsed : Nat
  bloom : Bloom
  logs : List Log
deriving DecidableEq, Inhabited

namespace Receipt

def make (result : Result) (cumulativeGasUsed : Nat) (logs : List Log) : Receipt where
  result := result
  cumulativeGasUsed := cumulativeGasUsed
  bloom := Bloom.ofLogs keccak256 logs
  logs := logs

def resultItem : Result → Rlp.Item
  | .root h => .ofFixed h
  | .succeeded b => .ofBool b

def item (r : Receipt) : Rlp.Item :=
  .list [resultItem r.result, .ofNat r.cumulativeGasUsed, .ofFixed r.bloom,
    .list (r.logs.map Log.item)]

def encode (type? : Option UInt8) (r : Receipt) : Bytes :=
  match type? with
  | none => Rlp.encodeToBytes r.item
  | some type => Bytes.ofList [type] ++ Rlp.encodeToBytes r.item

def schema (fork : Fork) : Rlp.Schema :=
  .record "Receipt" [
    if Fork.byzantium ≤ fork then ("succeeded", .truth) else ("post_state", .fixedBytes 32),
    ("cumulative_gas_used", .natural),
    ("bloom", .fixedBytes 256),
    ("logs", .many Log.schema)]

end Receipt

end ExecutionLayer
