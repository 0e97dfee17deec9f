import ExecutionLayer.Header.Basic
import ExecutionLayer.Transaction.Codec

/-! # Blocks

Since Berlin a block may hold transactions as byte strings, which are only decoded when their turn
comes.
-/
namespace ExecutionLayer
open Rlp (Item Schema Value)

structure Withdrawal where
  index : BitVec 64
  validatorIndex : BitVec 64
  address : Address
  /-- The amount in units of 10⁹. -/
  amount : Word
deriving DecidableEq, Inhabited

namespace Withdrawal

def schema : Rlp.Schema :=
  .record "Withdrawal" [
    ("index", .fixedWidth 64),
    ("validator_index", .fixedWidth 64),
    ("address", .fixedBytes 20),
    ("amount", .fixedWidth 256)]

def value (w : Withdrawal) : Rlp.Value :=
  .record "Withdrawal" [
    ("index", .word w.index),
    ("validator_index", .word w.validatorIndex),
    ("address", .fixed w.address),
    ("amount", .word w.amount)]

def item (w : Withdrawal) : Rlp.Item :=
  .list [.ofNat w.index.toNat, .ofNat w.validatorIndex.toNat, .ofFixed w.address, .ofWord w.amount]

def ofValue? : Rlp.Value → Option Withdrawal
  | .record _ [(_, .number index), (_, .number validator), (_, .bytes address),
      (_, .number amount)] =>
    some ⟨.ofNat 64 index, .ofNat 64 validator, .ofNat 160 address.toNat, .ofNat 256 amount⟩
  | _ => none

end Withdrawal

inductive Envelope where
  | plain (tx : Transaction)
  | typed (raw : Bytes)
deriving DecidableEq

structure Block where
  header : Header
  transactions : List Envelope
  ommers : List Header
  withdrawals : List Withdrawal := []
deriving DecidableEq

namespace Envelope

def ofRaw (fork : Fork) (b : Bytes) : Except Rejection Envelope :=
  if fork < Fork.berlin || (b.size ≠ 0 && 0xc0 ≤ (b.get 0).toNat) then
    (Transaction.decodeAs (Transaction.legacySchema fork) b).map plain
  else .ok (typed b)

def transaction (fork : Fork) : Envelope → Except Rejection Transaction
  | plain tx => .ok tx
  | typed b => Transaction.decodeTyped fork b

def item : Envelope → Item
  | plain tx => tx.item
  | typed b => .ofBytes b

def schema (fork : Fork) : Schema :=
  if Fork.berlin ≤ fork then .unionOf [.bytes, Transaction.legacySchema fork]
  else Transaction.legacySchema fork

def ofValue? : Value → Option Envelope
  | .bytes b => some (typed b)
  | v => (Transaction.ofRecord? v).map plain

end Envelope

namespace Block

def schema (fork : Fork) : Schema :=
  .record "Block" <|
    [("header", Header.schema fork), ("transactions", .many (Envelope.schema fork)),
      ("ommers", .many (Header.schema fork))]
      ++ if Fork.shanghai ≤ fork then [("withdrawals", .many Withdrawal.schema)] else []

def item (fork : Fork) (b : Block) : Item :=
  .list <| [b.header.item, .list (b.transactions.map Envelope.item),
      .list (b.ommers.map Header.item)]
    ++ if Fork.shanghai ≤ fork then [.list (b.withdrawals.map Withdrawal.item)] else []

def ofRecord? : Value → Option Block
  | .record _ ((_, header) :: (_, .seq transactions) :: (_, .seq ommers) :: rest) => do
    let withdrawals ← match rest with
      | [] => some []
      | [(_, .seq withdrawals)] => withdrawals.mapM Withdrawal.ofValue?
      | _ => none
    return {
      header := ← Header.ofRecord? header
      transactions := ← transactions.mapM Envelope.ofValue?
      ommers := ← ommers.mapM Header.ofRecord?
      withdrawals := withdrawals }
  | _ => none

def decode (fork : Fork) (b : Bytes) : Except Rejection Block := do
  match ofRecord? (← Rejection.ofDecode ((schema fork).decodeBytes b)) with
  | some block => return block
  | none => throw (.malformed .malformed)

end Block

end ExecutionLayer
