import ExecutionLayer.Block.Basic
import ExecutionLayer.Header.Fee
import ExecutionLayer.Hex
import ExecutionLayer.State.Root
import ExecutionLayer.Trie.Content

/-! # The first block

A genesis configuration lists accounts with their fields as text. Slots may be listed, but their
values are numbers of no fixed width, which have no place in the node of a trie.
-/
namespace ExecutionLayer

structure Genesis.Entry where
  address : String
  nonce? : Option String
  balance? : Option String
  code? : Option String
  storage : List (String × String)

structure Genesis where
  chainId : Nat
  difficulty : Nat
  extraData : Bytes
  gasLimit : Nat
  nonce : BitVec 64
  timestamp : Word
  accounts : List Genesis.Entry

namespace Genesis

/-- The accounts so far and what their slots hold. -/
structure Placed where
  state : State := {}
  storage : Std.ExtTreeMap Address (Trie Trie.Content) := ∅

def Placed.slots (p : Placed) (address : Address) : Trie Trie.Content :=
  p.storage[address]?.getD ⟨true, .word 0, []⟩

/-- The root of the state, which takes the root of the storage of each account. -/
def Placed.root (hash : Bytes → Hash) (p : Placed) : Except Fault Hash := do
  let paths ← p.state.accounts.toList.foldlM
    (fun placed entry => do
      let root ← (p.slots entry.1).root hash (Trie.Content.encode hash none)
      return Trie.place (Trie.path hash true (fixedBytes entry.1))
        (entry.2.encode hash root).toList placed)
    []
  return Trie.Node.root hash (Trie.build hash paths)

def nonceOf (text : String) : Except Fault Nat :=
  match Text.integer? 10 text with
  | none => .error .invalidValue
  | some i => Integer.Kind.natural.make i

def Entry.account (e : Entry) : Except Fault Account := do
  let nonce ← nonceOf (e.nonce?.getD "0")
  let balance ← match e.balance? with
    | some text => Hex.toWordAnyBase text
    | none => throw .missingComponent
  return { nonce := nonce, balance := balance, code := ← Hex.toBytes (e.code?.getD "0x") }

def placeSlot (slots : Trie Trie.Content) (slot : String × String) :
    Except Fault (Trie Trie.Content) := do
  let key ← Hex.toBytes32 slot.1
  return slots.set key (.natural (← Hex.toInteger .natural slot.2))

def place (p : Placed) (e : Entry) : Except Fault Placed := do
  let address ← Hex.toAddress e.address
  let account ← e.account
  return {
    state := p.state.setAccount address (some account)
    storage := p.storage.insert address (← e.storage.foldlM placeSlot (p.slots address)) }

def header (fork : Fork) (g : Genesis) (p : Placed) : Except Fault Header := do
  let root ← p.root keccak256
  let empty := Trie.emptyRoot keccak256
  require (fork < Fork.shanghai) .wrongType
  return {
    parentHash := 0
    ommersHash := emptyOmmersHash
    coinbase := 0
    stateRoot := root
    transactionsRoot := empty
    receiptRoot := empty
    bloom := 0
    difficulty := g.difficulty
    number := 0
    gasLimit := g.gasLimit
    gasUsed := 0
    timestamp := g.timestamp
    extraData := g.extraData
    mixDigest := 0
    nonce := g.nonce
    baseFee? := if Fork.london ≤ fork then some Fee.initial else none }

def block (fork : Fork) (g : Genesis) : Except Fault (Block × State) := do
  let p ← g.accounts.foldlM place {}
  return ({ header := ← g.header fork p, transactions := [], ommers := [] }, p.state)

end Genesis

end ExecutionLayer
