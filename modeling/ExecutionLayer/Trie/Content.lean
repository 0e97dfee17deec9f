import ExecutionLayer.Account
import ExecutionLayer.Fork
import ExecutionLayer.Trie.Basic

/-! # Tries with mixed contents

Values of different sorts may stand in one trie. Some can be stored but have no place in a node:
plain naturals, the absent value, and accounts of another fork.
-/
namespace ExecutionLayer.Trie

inductive Content where
  | absent
  | bytes (b : Bytes)
  | natural (n : Nat)
  | word (n : Nat)
  | account (a : Account)
  | foreignAccount (fork : Fork) (a : Account)
deriving DecidableEq

namespace Content

def ofAccount (fork owner : Fork) (a : Account) : Content :=
  if owner = fork then account a else foreignAccount owner a

def same : Content → Content → Bool
  | natural m, word n | word m, natural n => m = n
  | a, b => a = b

instance : BEq Content := ⟨same⟩

/-- The form in which a value is stored in a node. An account needs the root of its storage and
stands under an address. -/
def encode (hash : Bytes → Hash) (storageRoot : Option Hash) (key : Bytes) :
    Content → Except Fault Bytes
  | account a =>
    match storageRoot with
    | none => .error .brokenInvariant
    | some root => do
      let _ ← ofFixedBytes 160 key
      return a.encode hash root
  | bytes b => .ok b
  | word n => .ok (Rlp.encodeToBytes (.ofNat n))
  | absent | natural _ | foreignAccount _ _ => .error .brokenInvariant

def value : Content → Rlp.Value
  | absent => .absent
  | bytes b => .bytes b
  | natural n | word n => .number n
  | account a | foreignAccount _ a => a.value

end Content

end ExecutionLayer.Trie
