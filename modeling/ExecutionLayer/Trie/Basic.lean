import ExecutionLayer.Trie.Build

/-! # Tries

A trie maps byte strings to values of some type. A key that was never set has the default value,
and setting a key to the default removes it. Entries are kept in the order in which their keys were
first set. In a secured trie the keys are hashed before they are placed.
-/
namespace ExecutionLayer

structure Trie (V : Type) where
  secured : Bool
  default : V
  entries : List (Bytes × V) := []

namespace Trie

variable {V : Type} [BEq V]

def get (t : Trie V) (key : Bytes) : V :=
  match t.entries.find? (·.1 == key) with
  | some entry => entry.2
  | none => t.default

/-- Puts a value in the place of the key, which is the last one if the key is new. -/
def replace (key : Bytes) (value : V) : List (Bytes × V) → List (Bytes × V)
  | [] => [(key, value)]
  | entry :: rest =>
    if entry.1 == key then (key, value) :: rest else entry :: replace key value rest

def set (t : Trie V) (key : Bytes) (value : V) : Trie V :=
  if value == t.default then { t with entries := t.entries.filter (·.1 != key) }
  else { t with entries := replace key value t.entries }

def size (t : Trie V) : Nat := t.entries.length

/-- Adds a path with its value to a list of distinct paths. -/
def place (path value : List UInt8) : Suffixes → Suffixes
  | [] => [(path, value)]
  | entry :: rest =>
    if entry.1 = path then (path, value) :: rest else entry :: place path value rest

def path (hash : Bytes → Hash) (secured : Bool) (key : Bytes) : List UInt8 :=
  nibbles (if secured then fixedBytes (hash key) else key).toList

/-- All paths with their encoded values, none of which may be empty. -/
def prepare (hash : Bytes → Hash) (encode : Bytes → V → Except Fault Bytes) (t : Trie V) :
    Except Fault Suffixes :=
  t.entries.foldlM
    (fun placed entry => do
      let value ← encode entry.1 entry.2
      require (value.size ≠ 0) .brokenInvariant
      return place (path hash t.secured entry.1) value.toList placed)
    []

def node (hash : Bytes → Hash) (encode : Bytes → V → Except Fault Bytes) (t : Trie V) :
    Except Fault (Option Node) := do
  return build hash (← t.prepare hash encode)

def root (hash : Bytes → Hash) (encode : Bytes → V → Except Fault Bytes) (t : Trie V) :
    Except Fault Hash := do
  return Node.root hash (← t.node hash encode)

def emptyRoot (hash : Bytes → Hash) : Hash := Node.root hash none

end Trie

end ExecutionLayer
