import ExecutionLayer.Rlp.Value
import ExecutionLayer.Trie.Nibble

/-! # Nodes

Nodes refer to each other by item: a node whose encoding is shorter than a hash stands in its
parent itself, a longer one by its hash. The hash function is an argument.
-/
namespace ExecutionLayer.Trie

inductive Node where
  | leaf (rest : List UInt8) (value : List UInt8)
  | extension (segment : List UInt8) (subnode : Rlp.Item)
  /-- One subnode for each nibble and the value of the key that ends here, empty if none does. -/
  | branch (subnodes : List Rlp.Item) (value : List UInt8)
deriving Inhabited

namespace Node

/-- The item of a node; the empty trie has the empty string. -/
def item : Option Node → Rlp.Item
  | none => .bytes []
  | some (leaf rest value) => .list [.bytes (compact rest true), .bytes value]
  | some (extension segment subnode) => .list [.bytes (compact segment false), subnode]
  | some (branch subnodes value) => .list (subnodes ++ [.bytes value])

def reference (hash : Bytes → Hash) (node : Option Node) : Rlp.Item :=
  let encoded := Rlp.encode (item node)
  if encoded.length < 32 then item node
  else .ofFixed (hash (.ofList encoded))

def root (hash : Bytes → Hash) (node : Option Node) : Hash :=
  hash (.ofList (Rlp.encode (item node)))

def value : Option Node → Rlp.Value
  | none => .absent
  | some (leaf rest value) =>
    .record "LeafNode" [("rest_of_key", .bytes (.ofList rest)), ("value", .bytes (.ofList value))]
  | some (extension segment subnode) =>
    .record "ExtensionNode" [
      ("key_segment", .bytes (.ofList segment)),
      ("subnode", .ofItem subnode)]
  | some (branch subnodes value) =>
    .record "BranchNode" [
      ("subnodes", .seq (subnodes.map .ofItem)),
      ("value", .bytes (.ofList value))]

end Node

end ExecutionLayer.Trie
