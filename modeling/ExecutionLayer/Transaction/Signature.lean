import ExecutionLayer.Crypto.Keccak
import ExecutionLayer.Crypto.Secp256k1
import ExecutionLayer.Transaction.Codec

/-! # Signatures of transactions

Each kind of transaction signs a hash of its fields. The kinds with a number put it in front of the
encoding, and since Spurious Dragon a legacy transaction may sign a chain id along.
-/
namespace ExecutionLayer.Transaction
open Rlp (Item)

/-- The bytes that are signed: an optional number and a list of fields. -/
def preimage (type? : Option UInt8) (fields : List Item) : Bytes :=
  match type? with
  | none => Rlp.encodeToBytes (.list fields)
  | some type => Bytes.ofList [type] ++ Rlp.encodeToBytes (.list fields)

def legacyFields (tx : Transaction) : Except Fault (List Item) := do
  return [.ofWord tx.nonce, .ofNat (← tx.gasPrice), .ofNat tx.gas] ++ tx.payloadItems

def accessListFields (tx : Transaction) : Except Fault (List Item) :=
  match tx.kind with
  | .accessList _ _ _ _ => .ok tx.unsignedItems
  | _ => .error .missingComponent

def feeMarketFields (tx : Transaction) : Except Fault (List Item) :=
  match tx.kind with
  | .feeMarket chain priority fee l _ | .blob chain priority fee l _ _ _ =>
    .ok ([.ofNat chain.toNat, .ofWord tx.nonce, .ofNat priority, .ofNat fee, .ofNat tx.gas]
      ++ tx.payloadItems ++ [accessListItem l])
  | _ => .error .missingComponent

def blobFields (tx : Transaction) : Except Fault (List Item) :=
  match tx.kind with
  | .blob _ _ _ _ _ _ _ => .ok tx.unsignedItems
  | _ => .error .missingComponent

def legacyPreimage (tx : Transaction) : Except Fault Bytes := do
  return preimage none (← tx.legacyFields)

def protectedPreimage (chainId : Nat) (tx : Transaction) : Except Fault Bytes := do
  return preimage none ((← tx.legacyFields) ++ [.ofNat chainId, .ofNat 0, .ofNat 0])

def accessListPreimage (tx : Transaction) : Except Fault Bytes := do
  return preimage (some 1) (← tx.accessListFields)

def feeMarketPreimage (tx : Transaction) : Except Fault Bytes := do
  return preimage (some 2) (← tx.feeMarketFields)

def blobPreimage (tx : Transaction) : Except Fault Bytes := do
  return preimage (some 3) (← tx.blobFields)

def signingHash (signed : Except Fault Bytes) : Except Fault Hash := signed.map keccak256

structure Signed where
  recovery : Nat
  preimage : Bytes

def readLegacy (tx : Transaction) (v : Word) : Except Fault Signed := do
  return ⟨v.toNat - 27, ← tx.legacyPreimage⟩

/-- A number that is computed from a chain id within 64 bits. -/
def chainWord (n : Nat) : Except Fault Nat := if n < Nat.pow 2 64 then .ok n else .error .overflow

def readProtected (chainId : Nat) (tx : Transaction) (v : Word) : Except Rejection Signed := do
  let twice ← Rejection.ofFault (chainWord (chainId * 2))
  let low ← Rejection.ofFault (chainWord (35 + twice))
  if v.toNat = low then
    return ⟨0, ← Rejection.ofFault (tx.protectedPreimage chainId)⟩
  let high ← Rejection.ofFault (chainWord (36 + twice))
  Rejection.check (v.toNat = high)
  return ⟨1, ← Rejection.ofFault (tx.protectedPreimage chainId)⟩

def readSignature (fork : Fork) (chainId : Nat) (tx : Transaction) : Except Rejection Signed :=
  match tx.kind with
  | .legacy _ v =>
    if v.toNat = 27 || v.toNat = 28 then Rejection.ofFault (tx.readLegacy v)
    else if fork < Fork.spuriousDragon then throw .invalidBlock
    else tx.readProtected chainId v
  | .accessList _ _ _ y => Rejection.ofFault do return ⟨y.toNat, ← tx.accessListPreimage⟩
  | .feeMarket _ _ _ _ y => Rejection.ofFault do return ⟨y.toNat, ← tx.feeMarketPreimage⟩
  | .blob _ _ _ _ _ _ y => Rejection.ofFault do return ⟨y.toNat, ← tx.blobPreimage⟩

/-- The bounds of both numbers of a signature. Since Homestead the second one has to be low. -/
def signatureInRange (fork : Fork) (tx : Transaction) : Bool :=
  let r := tx.r.toNat
  let s := tx.s.toNat
  0 < r && r < Secp256k1.order && 0 < s &&
    if Fork.homestead ≤ fork then s ≤ Secp256k1.order / 2 else s < Secp256k1.order

/-- A way to find the key of a signature from its two numbers, the recovery number and the hash of
what was signed. -/
abbrev Recovery := Nat → Nat → Nat → Hash → Except Fault Bytes

def senderBy (recover : Recovery) (fork : Fork) (chainId : Nat) (tx : Transaction) :
    Except Rejection Address := do
  Rejection.check (tx.signatureInRange fork)
  let signed ← tx.readSignature fork chainId
  let key ← Rejection.ofFault
    (recover tx.r.toNat tx.s.toNat signed.recovery (keccak256 signed.preimage))
  return (keccak256 key).setWidth 160

def sender (fork : Fork) (chainId : Nat) (tx : Transaction) : Except Rejection Address :=
  tx.senderBy Secp256k1.recover fork chainId

end ExecutionLayer.Transaction
