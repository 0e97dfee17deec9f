import ExecutionLayer.Fork
import ExecutionLayer.Rejection
import ExecutionLayer.Rlp.Schema
import ExecutionLayer.Transaction.Basic

/-! # Encoding of transactions

A legacy transaction is a list. The others are a byte that tells the kind, followed by a list.
-/
namespace ExecutionLayer.Transaction
open Rlp (Item Schema Value)

def recipientSchema : Schema := .unionOf [.fixedBytes 0, .fixedBytes 20]

def accessListSchema : Schema := .many (.tuple [.fixedBytes 20, .many (.fixedBytes 32)])

def signatureSchema (first : String) : List (String × Schema) :=
  [(first, .fixedWidth 256), ("r", .fixedWidth 256), ("s", .fixedWidth 256)]

def payloadSchema (recipient : Schema) : List (String × Schema) :=
  [("to", recipient), ("value", .fixedWidth 256), ("data", .bytes)]

def feeSchema : List (String × Schema) :=
  [("max_priority_fee_per_gas", .natural), ("max_fee_per_gas", .natural)]

/-- The name of the legacy type, which it has only since there are others. -/
def legacyName (fork : Fork) : String :=
  if Fork.berlin ≤ fork then "LegacyTransaction" else "Transaction"

def legacySchema (fork : Fork) : Schema :=
  .record (legacyName fork) <|
    [("nonce", .fixedWidth 256), ("gas_price", .natural), ("gas", .natural)]
      ++ payloadSchema recipientSchema ++ signatureSchema "v"

def accessListTxSchema : Schema :=
  .record "AccessListTransaction" <|
    [("chain_id", .fixedWidth 64), ("nonce", .fixedWidth 256), ("gas_price", .natural),
      ("gas", .natural)]
      ++ payloadSchema recipientSchema ++ [("access_list", accessListSchema)]
      ++ signatureSchema "y_parity"

def feeMarketSchema : Schema :=
  .record "FeeMarketTransaction" <|
    [("chain_id", .fixedWidth 64), ("nonce", .fixedWidth 256)] ++ feeSchema ++ [("gas", .natural)]
      ++ payloadSchema recipientSchema ++ [("access_list", accessListSchema)]
      ++ signatureSchema "y_parity"

def blobSchema : Schema :=
  .record "BlobTransaction" <|
    [("chain_id", .fixedWidth 64), ("nonce", .fixedWidth 256)] ++ feeSchema ++ [("gas", .natural)]
      ++ payloadSchema (.fixedBytes 20) ++ [("access_list", accessListSchema),
        ("max_fee_per_blob_gas", .fixedWidth 256),
        ("blob_versioned_hashes", .many (.fixedBytes 32))]
      ++ signatureSchema "y_parity"

def recipientItem : Option Address → Item
  | some address => .ofFixed address
  | none => .bytes []

def accessItem : AccessEntry → Item
  | .complete address keys => .list [.ofFixed address, .list (keys.map .ofFixed)]
  | .addressOnly address => .list [.ofFixed address]
  | .nothing => .list []

def accessListItem (l : AccessList) : Item := .list (l.map accessItem)

def payloadItems (tx : Transaction) : List Item :=
  [recipientItem tx.recipient, .ofWord tx.value, .ofBytes tx.data]

def unsignedItems (tx : Transaction) : List Item :=
  match tx.kind with
  | .legacy price _ => [.ofWord tx.nonce, .ofNat price, .ofNat tx.gas] ++ tx.payloadItems
  | .accessList chain price l _ =>
    [.ofNat chain.toNat, .ofWord tx.nonce, .ofNat price, .ofNat tx.gas] ++ tx.payloadItems
      ++ [accessListItem l]
  | .feeMarket chain priority fee l _ =>
    [.ofNat chain.toNat, .ofWord tx.nonce, .ofNat priority, .ofNat fee, .ofNat tx.gas]
      ++ tx.payloadItems ++ [accessListItem l]
  | .blob chain priority fee l blobFee hashes _ =>
    [.ofNat chain.toNat, .ofWord tx.nonce, .ofNat priority, .ofNat fee, .ofNat tx.gas]
      ++ tx.payloadItems
      ++ [accessListItem l, .ofWord blobFee, .list (hashes.map .ofFixed)]

def recoveryWord (tx : Transaction) : Word :=
  match tx.kind with
  | .legacy _ v => v
  | .accessList _ _ _ y | .feeMarket _ _ _ _ y | .blob _ _ _ _ _ _ y => y

def item (tx : Transaction) : Item :=
  .list (tx.unsignedItems ++ [.ofWord tx.recoveryWord, .ofWord tx.r, .ofWord tx.s])

def encode (tx : Transaction) : Bytes :=
  match tx.type? with
  | none => Rlp.encodeToBytes tx.item
  | some type => Bytes.ofList [type] ++ Rlp.encodeToBytes tx.item

def recipientValue : Option Address → Value
  | some address => .fixed address
  | none => .bytes ByteArray.empty

def accessValue : AccessEntry → Value
  | .complete address keys => .seq [.fixed address, .seq (keys.map .fixed)]
  | .addressOnly address => .seq [.fixed address]
  | .nothing => .seq []

def payloadFields (tx : Transaction) : List (String × Value) :=
  [("to", recipientValue tx.recipient), ("value", .word tx.value), ("data", .bytes tx.data)]

def signatureFields (tx : Transaction) (first : String) : List (String × Value) :=
  [(first, .word tx.recoveryWord), ("r", .word tx.r), ("s", .word tx.s)]

def accessField (l : AccessList) : String × Value := ("access_list", .seq (l.map accessValue))

def feeFields (chain : BitVec 64) (tx : Transaction) (priority fee : Nat) :
    List (String × Value) :=
  [("chain_id", .word chain), ("nonce", .word tx.nonce),
    ("max_priority_fee_per_gas", .number priority), ("max_fee_per_gas", .number fee),
    ("gas", .number tx.gas)]

def record (fork : Fork) (tx : Transaction) : Value :=
  match tx.kind with
  | .legacy price _ =>
    .record (legacyName fork) <|
      [("nonce", .word tx.nonce), ("gas_price", .number price), ("gas", .number tx.gas)]
        ++ tx.payloadFields ++ tx.signatureFields "v"
  | .accessList chain price l _ =>
    .record "AccessListTransaction" <|
      [("chain_id", .word chain), ("nonce", .word tx.nonce), ("gas_price", .number price),
        ("gas", .number tx.gas)]
        ++ tx.payloadFields ++ [accessField l] ++ tx.signatureFields "y_parity"
  | .feeMarket chain priority fee l _ =>
    .record "FeeMarketTransaction" <|
      feeFields chain tx priority fee ++ tx.payloadFields ++ [accessField l]
        ++ tx.signatureFields "y_parity"
  | .blob chain priority fee l blobFee hashes _ =>
    .record "BlobTransaction" <|
      feeFields chain tx priority fee ++ tx.payloadFields
        ++ [accessField l, ("max_fee_per_blob_gas", .word blobFee),
          ("blob_versioned_hashes", .seq (hashes.map .fixed))]
        ++ tx.signatureFields "y_parity"

def hash? : Value → Option Hash
  | .bytes b => some (.ofNat 256 b.toNat)
  | _ => none

def access? : Value → Option AccessEntry
  | .seq [.bytes address, .seq keys] => do
    return .complete (.ofNat 160 address.toNat) (← keys.mapM hash?)
  | .seq [.bytes address] => some (.addressOnly (.ofNat 160 address.toNat))
  | .seq [] => some .nothing
  | _ => none

def recipientOf (b : Bytes) : Option Address :=
  if b.size = 0 then none else some (.ofNat 160 b.toNat)

def ofRecord? : Value → Option Transaction
  | .record _ [(_, .number nonce), (_, .number price), (_, .number gas), (_, .bytes target),
      (_, .number value), (_, .bytes data), (_, .number v), (_, .number r), (_, .number s)] =>
    some {
      nonce := .ofNat 256 nonce, gas := gas
      recipient := recipientOf target, value := .ofNat 256 value
      data := data, kind := .legacy price (.ofNat 256 v), r := .ofNat 256 r, s := .ofNat 256 s }
  | .record _ [(_, .number chain), (_, .number nonce), (_, .number price), (_, .number gas),
      (_, .bytes target), (_, .number value), (_, .bytes data), (_, .seq l), (_, .number y),
      (_, .number r), (_, .number s)] => do
    return {
      nonce := .ofNat 256 nonce, gas := gas
      recipient := recipientOf target, value := .ofNat 256 value
      data := data
      kind := .accessList (.ofNat 64 chain) price (← l.mapM access?) (.ofNat 256 y)
      r := .ofNat 256 r, s := .ofNat 256 s }
  | .record _ [(_, .number chain), (_, .number nonce), (_, .number priority), (_, .number fee),
      (_, .number gas), (_, .bytes target), (_, .number value), (_, .bytes data), (_, .seq l),
      (_, .number y), (_, .number r), (_, .number s)] => do
    return {
      nonce := .ofNat 256 nonce, gas := gas
      recipient := recipientOf target, value := .ofNat 256 value
      data := data
      kind := .feeMarket (.ofNat 64 chain) priority fee (← l.mapM access?) (.ofNat 256 y)
      r := .ofNat 256 r, s := .ofNat 256 s }
  | .record _ [(_, .number chain), (_, .number nonce), (_, .number priority), (_, .number fee),
      (_, .number gas), (_, .bytes target), (_, .number value), (_, .bytes data), (_, .seq l),
      (_, .number blobFee), (_, .seq hashes), (_, .number y), (_, .number r), (_, .number s)] => do
    return {
      nonce := .ofNat 256 nonce, gas := gas
      recipient := recipientOf target, value := .ofNat 256 value
      data := data
      kind := .blob (.ofNat 64 chain) priority fee (← l.mapM access?) (.ofNat 256 blobFee)
        (← hashes.mapM hash?) (.ofNat 256 y)
      r := .ofNat 256 r, s := .ofNat 256 s }
  | _ => none

def decodeAs (s : Schema) (b : Bytes) : Except Rejection Transaction := do
  match ofRecord? (← Rejection.ofDecode (s.decodeBytes b)) with
  | some tx => return tx
  | none => throw (.malformed .malformed)

def typedSchema? (fork : Fork) (type : UInt8) : Option Schema :=
  if type = 1 && Fork.berlin ≤ fork then some accessListTxSchema
  else if type = 2 && Fork.london ≤ fork then some feeMarketSchema
  else if type = 3 && Fork.cancun ≤ fork then some blobSchema
  else none

def decodeTyped (fork : Fork) (b : Bytes) : Except Rejection Transaction := do
  if b.size = 0 then throw (.fault .indexOutOfRange)
  match typedSchema? fork (b.get 0) with
  | some s => decodeAs s (b.part 1 b.size)
  | none => throw .invalidBlock

/-- Decodes a transaction from outside a block, where a list is told by its first byte. -/
def decode (fork : Fork) (b : Bytes) : Except Rejection Transaction :=
  if fork < Fork.berlin || (b.size ≠ 0 && 0xc0 ≤ (b.get 0).toNat) then
    decodeAs (legacySchema fork) b
  else decodeTyped fork b

end ExecutionLayer.Transaction
