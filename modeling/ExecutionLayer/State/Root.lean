import ExecutionLayer.State.Basic
import ExecutionLayer.Trie.Basic

/-! # State roots

Storage and accounts are placed in secured tries. The entry of an account holds the root of its
storage. Roots are only defined while no snapshot is open.
-/
namespace ExecutionLayer.State

def slotPaths (hash : Bytes → Hash) (slots : Slots) : Trie.Suffixes :=
  slots.toList.foldl
    (fun placed entry =>
      Trie.place (Trie.path hash true (fixedBytes entry.1)) (Rlp.encode (.ofWord entry.2)) placed)
    []

def slotsRoot (hash : Bytes → Hash) (slots : Slots) : Hash :=
  Trie.Node.root hash (Trie.build hash (slotPaths hash slots))

/-- The root of an account's storage, whether or not snapshots are open. -/
def storageHash (hash : Bytes → Hash) (s : State) (address : Address) : Hash :=
  match s.storage[address]? with
  | some slots => slotsRoot hash slots
  | none => Trie.emptyRoot hash

def accountPaths (hash : Bytes → Hash) (s : State) : Trie.Suffixes :=
  s.accounts.toList.foldl
    (fun placed entry =>
      Trie.place (Trie.path hash true (fixedBytes entry.1))
        (entry.2.encode hash (s.storageHash hash entry.1)).toList placed)
    []

def hashAll (hash : Bytes → Hash) (s : State) : Hash :=
  Trie.Node.root hash (Trie.build hash (s.accountPaths hash))

def storageRoot (hash : Bytes → Hash) (s : State) (address : Address) : Except Fault Hash :=
  if s.snapshots.isEmpty then .ok (s.storageHash hash address) else .error .brokenInvariant

def root (hash : Bytes → Hash) (s : State) : Except Fault Hash :=
  if s.snapshots.isEmpty then .ok (s.hashAll hash) else .error .brokenInvariant

end ExecutionLayer.State
