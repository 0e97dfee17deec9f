import ExecutionLayer.Rlp.Schema

/-! # Accounts -/
namespace ExecutionLayer

/-- The greatest nonce that an account reaches by sending. -/
def maxNonce : Nat := Nat.pow 2 64 - 1

structure Account where
  nonce : Nat := 0
  balance : Word := 0
  code : Bytes := ByteArray.empty
deriving DecidableEq, Inhabited

namespace Account

def empty : Account := {}

def isEmpty (a : Account) : Bool := a.nonce = 0 && a.code.size = 0 && a.balance = 0

def hasCodeOrNonce (a : Account) : Bool := a.nonce ≠ 0 || a.code.size ≠ 0

def item (hash : Bytes → Hash) (storageRoot : Hash) (a : Account) : Rlp.Item :=
  .list [.ofNat a.nonce, .ofWord a.balance, .ofFixed storageRoot, .ofFixed (hash a.code)]

def encode (hash : Bytes → Hash) (storageRoot : Hash) (a : Account) : Bytes :=
  Rlp.encodeToBytes (a.item hash storageRoot)

def fields (a : Account) : List (String × Rlp.Value) := [
  ("nonce", .number a.nonce),
  ("balance", .word a.balance),
  ("code", .bytes a.code)]

def value (a : Account) : Rlp.Value := .record "Account" a.fields

def schema : Rlp.Schema :=
  .record "Account" [("nonce", .natural), ("balance", .fixedWidth 256), ("code", .bytes)]

end Account

end ExecutionLayer
