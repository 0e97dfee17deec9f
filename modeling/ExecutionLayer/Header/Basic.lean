import ExecutionLayer.Crypto.Keccak
import ExecutionLayer.Fork
import ExecutionLayer.Rejection
import ExecutionLayer.Rlp.Schema

/-! # Headers of blocks

Later forks append fields to the header. A header lacks those that its fork does not have.
-/
namespace ExecutionLayer

structure Header.Blob where
  gasUsed : BitVec 64
  excess : BitVec 64
  parentBeaconRoot : Hash
deriving DecidableEq, Inhabited

structure Header where
  parentHash : Hash
  ommersHash : Hash
  coinbase : Address
  stateRoot : Hash
  transactionsRoot : Hash
  receiptRoot : Hash
  bloom : Bloom
  difficulty : Nat
  number : Nat
  gasLimit : Nat
  gasUsed : Nat
  timestamp : Word
  extraData : Bytes
  /-- The digest of the proof of work, and later a random value. -/
  mixDigest : Hash
  nonce : BitVec 64
  baseFee? : Option Nat := none
  withdrawalsRoot? : Option Hash := none
  blob? : Option Header.Blob := none
deriving DecidableEq, Inhabited

namespace Header
open Rlp (Item Schema Value)

/-- Takes a field that a header may lack. -/
def component {α : Type} : Option α → Except Fault α
  | some a => .ok a
  | none => .error .missingComponent

def baseFee (h : Header) : Except Fault Nat := component h.baseFee?

def withdrawalsRoot (h : Header) : Except Fault Hash := component h.withdrawalsRoot?

def blob (h : Header) : Except Fault Blob := component h.blob?

def commonItems (h : Header) : List Item :=
  [.ofFixed h.parentHash, .ofFixed h.ommersHash, .ofFixed h.coinbase, .ofFixed h.stateRoot,
    .ofFixed h.transactionsRoot, .ofFixed h.receiptRoot, .ofFixed h.bloom, .ofNat h.difficulty,
    .ofNat h.number, .ofNat h.gasLimit, .ofNat h.gasUsed, .ofWord h.timestamp,
    .ofBytes h.extraData]

def baseFeeItems (h : Header) : List Item := (h.baseFee?.map Item.ofNat).toList

def blobItems (b : Blob) : List Item :=
  [.ofNat b.gasUsed.toNat, .ofNat b.excess.toNat, .ofFixed b.parentBeaconRoot]

def item (h : Header) : Item :=
  .list (h.commonItems ++ [.ofFixed h.mixDigest, .ofFixed h.nonce] ++ h.baseFeeItems
    ++ (h.withdrawalsRoot?.map Item.ofFixed).toList ++ (h.blob?.map blobItems).getD [])

def hash (h : Header) : Hash := keccak256 (Rlp.encodeToBytes h.item)

/-- The hash over which work is proved. -/
def workHash (h : Header) : Hash :=
  keccak256 (Rlp.encodeToBytes (.list (h.commonItems ++ h.baseFeeItems)))

def mixName (fork : Fork) : String := if Fork.paris ≤ fork then "prev_randao" else "mix_digest"

def commonSchemaFields (fork : Fork) : List (String × Schema) :=
  [("parent_hash", .fixedBytes 32), ("ommers_hash", .fixedBytes 32), ("coinbase", .fixedBytes 20),
    ("state_root", .fixedBytes 32), ("transactions_root", .fixedBytes 32),
    ("receipt_root", .fixedBytes 32), ("bloom", .fixedBytes 256), ("difficulty", .natural),
    ("number", .natural), ("gas_limit", .natural), ("gas_used", .natural),
    ("timestamp", .fixedWidth 256), ("extra_data", .bytes), (mixName fork, .fixedBytes 32),
    ("nonce", .fixedBytes 8)]

def blobSchemaFields : List (String × Schema) :=
  [("blob_gas_used", .fixedWidth 64), ("excess_blob_gas", .fixedWidth 64),
    ("parent_beacon_block_root", .fixedBytes 32)]

def schemaFields (fork : Fork) : List (String × Schema) :=
  commonSchemaFields fork
    ++ (if Fork.london ≤ fork then [("base_fee_per_gas", .natural)] else [])
    ++ (if Fork.shanghai ≤ fork then [("withdrawals_root", .fixedBytes 32)] else [])
    ++ if Fork.cancun ≤ fork then blobSchemaFields else []

def schema (fork : Fork) : Schema := .record "Header" (schemaFields fork)

def blobFields (b : Blob) : List (String × Value) :=
  [("blob_gas_used", .word b.gasUsed), ("excess_blob_gas", .word b.excess),
    ("parent_beacon_block_root", .fixed b.parentBeaconRoot)]

def commonFields (fork : Fork) (h : Header) : List (String × Value) :=
  [("parent_hash", .fixed h.parentHash), ("ommers_hash", .fixed h.ommersHash),
    ("coinbase", .fixed h.coinbase), ("state_root", .fixed h.stateRoot),
    ("transactions_root", .fixed h.transactionsRoot), ("receipt_root", .fixed h.receiptRoot),
    ("bloom", .fixed h.bloom), ("difficulty", .number h.difficulty),
    ("number", .number h.number), ("gas_limit", .number h.gasLimit),
    ("gas_used", .number h.gasUsed), ("timestamp", .word h.timestamp),
    ("extra_data", .bytes h.extraData), (mixName fork, .fixed h.mixDigest),
    ("nonce", .fixed h.nonce)]

def record (fork : Fork) (h : Header) : Value :=
  .record "Header" <| commonFields fork h
    ++ (h.baseFee?.map fun fee => ("base_fee_per_gas", .number fee)).toList
    ++ (h.withdrawalsRoot?.map fun root => ("withdrawals_root", .fixed root)).toList
    ++ (h.blob?.map blobFields).getD []

def appended? (h : Header) : List (String × Value) → Option Header
  | [] => some h
  | [(_, .number fee)] => some { h with baseFee? := some fee }
  | [(_, .number fee), (_, .bytes root)] =>
    some { h with baseFee? := some fee, withdrawalsRoot? := some (.ofNat 256 root.toNat) }
  | [(_, .number fee), (_, .bytes root), (_, .number used), (_, .number excess),
      (_, .bytes beacon)] =>
    some { h with
      baseFee? := some fee
      withdrawalsRoot? := some (.ofNat 256 root.toNat)
      blob? := some ⟨.ofNat 64 used, .ofNat 64 excess, .ofNat 256 beacon.toNat⟩ }
  | _ => none

def ofRecord? : Value → Option Header
  | .record _ ((_, .bytes parent) :: (_, .bytes ommers) :: (_, .bytes coinbase) ::
      (_, .bytes state) :: (_, .bytes transactions) :: (_, .bytes receipts) :: (_, .bytes bloom) ::
      (_, .number difficulty) :: (_, .number number) :: (_, .number gasLimit) ::
      (_, .number gasUsed) :: (_, .number timestamp) :: (_, .bytes extra) :: (_, .bytes mix) ::
      (_, .bytes nonce) :: rest) =>
    appended?
      { parentHash := .ofNat 256 parent.toNat
        ommersHash := .ofNat 256 ommers.toNat
        coinbase := .ofNat 160 coinbase.toNat
        stateRoot := .ofNat 256 state.toNat
        transactionsRoot := .ofNat 256 transactions.toNat
        receiptRoot := .ofNat 256 receipts.toNat
        bloom := .ofNat 2048 bloom.toNat
        difficulty := difficulty
        number := number
        gasLimit := gasLimit
        gasUsed := gasUsed
        timestamp := .ofNat 256 timestamp
        extraData := extra
        mixDigest := .ofNat 256 mix.toNat
        nonce := .ofNat 64 nonce.toNat }
      rest
  | _ => none

def decode (fork : Fork) (b : Bytes) : Except Rejection Header := do
  match ofRecord? (← Rejection.ofDecode ((schema fork).decodeBytes b)) with
  | some h => return h
  | none => throw (.malformed .malformed)

end Header

def emptyOmmersHash : Hash := keccak256 (Rlp.encodeToBytes (.list []))

end ExecutionLayer
