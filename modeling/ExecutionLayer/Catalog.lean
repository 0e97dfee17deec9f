import ExecutionLayer.Block.Body
import ExecutionLayer.Integer.Method

/-! # Types by name

A name stands for a basic type, for a record of a fork, or for another type that the fork gives a
name of its own. Records of one name that belong to different forks are different types, even if
they have the same form. A fork has several parts, and each of them knows only the names that it
defines or uses. There are also types to which nothing can be decoded, since some of their
components have no encoding.
-/
namespace ExecutionLayer.Catalog

open Rlp (Schema)

def basic : List (String × Schema) :=
  [("Uint", .natural), ("U256", .fixedWidth 256), ("U64", .fixedWidth 64), ("U32", .fixedWidth 32),
    ("FixedUint", .unsized true), ("FixedBytes", .unsized false), ("Bytes", .bytes)]
    ++ [0, 4, 8, 20, 32, 48, 64, 256].map fun size => (s!"Bytes{size}", .fixedBytes size)

def constructors : List (String × Schema) :=
  [("Tuple", .tuple []), ("Optional", .refused "Optional" .notAType),
    ("Union", .refused "Union" .notAType)]
    ++ ["List", "Set"].map fun name => (name, .unsupported name)

def transactions (fork : Fork) : List (String × Schema) :=
  if fork < Fork.berlin then [("Transaction", Transaction.legacySchema fork)]
  else
    [("LegacyTransaction", Transaction.legacySchema fork),
      ("AccessListTransaction", Transaction.accessListTxSchema)]
      ++ (if Fork.london ≤ fork then [("FeeMarketTransaction", Transaction.feeMarketSchema)]
        else [])
      ++ if Fork.cancun ≤ fork then [("BlobTransaction", Transaction.blobSchema)] else []

def encodable (fork : Fork) : List (String × Schema) :=
  transactions fork ++
    [("Account", Account.schema), ("Header", Header.schema fork), ("Block", Block.schema fork),
      ("Log", Log.schema), ("Receipt", Receipt.schema fork),
      ("ApplyBodyOutput", Body.Summary.schema fork), ("ExtendMemory", Evm.Gas.Extension.schema),
      ("MessageCallGas", Evm.Gas.CallGas.schema)]
    ++ if Fork.shanghai ≤ fork then [("Withdrawal", Withdrawal.schema)] else []

/-! ## Records without encodings

Their fields are still counted and decoded in order, up to the first that refuses. No value of such
a record ever appears, so the fields need no names.
-/

def withoutNames (name : String) (fields : List Schema) : String × Schema :=
  (name, .record name (fields.map ("", ·)))

def address : Schema := .fixedBytes 20

def collection : Schema := .unsupported "collection"

/-- A message. Since Berlin it holds sets of what has been accessed; before, all its fields have
encodings but the last one, the frame that sent it. -/
def message (fork : Fork) : String × Schema :=
  withoutNames "Message" <|
    [address, .unionOf [.fixedBytes 0, address], address, .natural, .fixedWidth 256, .bytes,
      .union [address], .bytes, .natural]
    ++ (if Fork.homestead ≤ fork then [.truth] else [])
    ++ (if Fork.byzantium ≤ fork then [.truth] else [])
    ++ (if Fork.berlin ≤ fork then [collection, collection] else [])
    ++ [.union []]

/-- How often a record has been extended, given the forks that did so. -/
def extensions (fork : Fork) (extending : List Fork) : Nat := extending.countP (· ≤ fork)

def logs (fork : Fork) : Schema :=
  let present := Schema.many (.tagged fork.rank Log.schema)
  if fork = Fork.daoFork || Fork.paris ≤ fork then .union [.tuple [], present] else present

def internal (fork : Fork) : List (String × Schema) :=
  let rest (n : Nat) : List Schema := List.replicate n collection
  [message fork,
    withoutNames "State" (rest (3 + extensions fork [.istanbul])),
    withoutNames "BlockChain" [collection, collection, .fixedWidth 64],
    withoutNames "Trie" [.truth, .refused "parameter" .notAType, collection],
    withoutNames "Environment" (address ::
      rest (10 + extensions fork [.istanbul, .london, .cancun, .cancun, .cancun])),
    withoutNames "Evm" (.natural ::
      rest (13 + extensions fork [.spuriousDragon, .byzantium, .berlin, .berlin])),
    withoutNames "MessageCallOutput" ([.natural, .fixedWidth 256, logs fork] ++
      rest (2 + extensions fork [.spuriousDragon])),
    withoutNames "GasAndRefund" [.unsupported "int"]]
    ++ if Fork.cancun ≤ fork then [withoutNames "TransientStorage" (rest 2)] else []

def records (fork : Fork) : List (String × Schema) := encodable fork ++ internal fork

def anyTransaction (fork : Fork) : Schema :=
  .unionOf ((transactions fork).map fun (_, s) => .tagged fork.rank s)

def content (fork : Fork) : Schema :=
  let own (s : Schema) : Schema := .tagged fork.rank s
  .union ([own Account.schema, .bytes, own (Transaction.legacySchema fork),
      own (Receipt.schema fork), .natural, .fixedWidth 256]
    ++ if Fork.shanghai ≤ fork then [own Withdrawal.schema] else [])

/-- The nodes of a trie refer to any encoding, under a name that they do not know. -/
def nodes : List (String × Schema) :=
  ["LeafNode", "ExtensionNode", "BranchNode"].map fun name => (name, .refused name .unresolvedType)

def synonyms (fork : Fork) : List (String × Schema) :=
  [("Address", address), ("Root", .fixedBytes 32), ("Hash32", .fixedBytes 32),
    ("Bloom", .fixedBytes 256), ("VersionedHash", .fixedBytes 32),
    ("Transaction", anyTransaction fork), ("Node", content fork), ("InternalNode", .union [])]
    ++ nodes ++ ["InvalidBlock", "OutOfGasError"].map fun name => (name, .unsupported name)

inductive Part where
  | types | blocks | transactions | trie | state | bloom | chain | machine | gas | interpreter
deriving DecidableEq, Repr

def Part.names (fork : Fork) (part : Part) : List String :=
  let since (first : Fork) (l : List String) : List String := if first ≤ fork then l else []
  let upTo (last : Fork) (l : List String) : List String := if fork ≤ last then l else []
  match part with
  | types => ["U256", "Bytes", "Bytes20", "Bytes256", "Uint", "Hash32", "Address", "Root", "Bloom",
      "Account"] ++ since .cancun ["VersionedHash"]
  | blocks => ["Tuple", "U256", "Bytes", "Bytes8", "Bytes32", "Uint", "Hash32", "Address", "Bloom",
      "Root", "Header", "Block", "Log", "Receipt"]
      ++ upTo .muirGlacier ["Transaction"] ++ since .berlin ["Union", "LegacyTransaction"]
      ++ since .shanghai ["U64", "Withdrawal"]
  | transactions => ["Union", "U256", "Bytes", "Bytes0", "Uint", "Address", "Transaction"]
      ++ since .berlin ["Tuple", "U64", "Bytes32", "InvalidBlock", "LegacyTransaction",
        "AccessListTransaction"]
      ++ since .london ["FeeMarketTransaction"]
      ++ since .cancun ["VersionedHash", "BlobTransaction"]
  | trie => ["List", "Optional", "Union", "U256", "Bytes", "Uint", "Receipt", "Account", "Address",
      "Root", "Node", "LeafNode", "ExtensionNode", "BranchNode", "InternalNode", "Trie"]
      ++ upTo .muirGlacier ["Transaction"] ++ since .berlin ["LegacyTransaction"]
      ++ since .shanghai ["Withdrawal"]
  | state => ["List", "Optional", "Tuple", "U256", "Bytes", "Uint", "Account", "Address", "Root",
      "Trie", "State"]
      ++ since .istanbul ["Set"] ++ since .shanghai ["Withdrawal"]
      ++ since .cancun ["TransientStorage"]
  | bloom => ["Tuple", "Uint", "Log", "Bloom"]
  | chain => ["List", "Optional", "Tuple", "Hash32", "InvalidBlock", "U64", "U256", "Bytes", "Uint",
      "Block", "Header", "Log", "Receipt", "Address", "Bloom", "Root", "State", "Transaction",
      "Trie", "BlockChain", "ApplyBodyOutput"]
      ++ upTo .grayGlacier ["Set"] ++ upTo .spuriousDragon ["Bytes32"] ++ since .paris ["Bytes32"]
      ++ since .homestead ["Bytes0"]
      ++ since .berlin ["Union", "AccessListTransaction", "LegacyTransaction"]
      ++ since .london ["FeeMarketTransaction"] ++ since .shanghai ["Withdrawal"]
      ++ since .cancun ["VersionedHash", "TransientStorage", "BlobTransaction", "Message"]
  | machine => ["List", "Optional", "Set", "Tuple", "Union", "U256", "Bytes", "Bytes0", "Uint",
      "Hash32", "Log", "Address", "State", "Environment", "Message", "Evm"]
      ++ since .istanbul ["U64"] ++ since .berlin ["Bytes32"]
      ++ since .cancun ["VersionedHash", "TransientStorage"]
  | gas => ["List", "Tuple", "U256", "Uint", "GasAndRefund", "Evm", "OutOfGasError", "ExtendMemory",
      "MessageCallGas"]
      ++ upTo .daoFork ["Address", "State"]
      ++ since .cancun ["U64", "Header", "BlobTransaction", "Transaction"]
  | interpreter => ["Optional", "Set", "Tuple", "U256", "Bytes0", "Uint", "Log", "Address",
      "Message", "Environment", "Evm", "MessageCallOutput"]
      ++ since .spuriousDragon ["OutOfGasError"]
      ++ if fork = Fork.daoFork || Fork.paris ≤ fork then ["Union"] else []

def schema? (fork : Fork) (part : Part) (name : String) : Option Schema :=
  if name ∈ part.names fork then
    match (records fork).lookup name with
    | some s => some (.tagged fork.rank s)
    | none => (basic ++ constructors ++ synonyms fork).lookup name
  else none

def basic? (name : String) : Option Schema :=
  (basic ++ constructors.filter (·.1 ∈ ["Tuple", "Optional"])).lookup name

/-- Makes a string of the basic type that a name stands for. Numbers are not made from strings, but
refuse them each for its own reason. -/
def makeBytes (name : String) (b : Bytes) : Except Fault Bytes := do
  match basic? name with
  | some .bytes => return b
  | some (.fixedBytes size) =>
    require (b.size = size) (.wrongSize size b.size)
    return b
  | none | some (.unsized false) => throw .missingComponent
  | some (.tuple _) | some (.refused _ _) => throw .wrongType
  | some _ =>
    discard (Integer.construct .natural (.bytes b))
    throw .wrongType

end ExecutionLayer.Catalog
