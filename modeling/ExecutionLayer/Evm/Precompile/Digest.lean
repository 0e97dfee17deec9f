import ExecutionLayer.Crypto.Blake2b
import ExecutionLayer.Crypto.Keccak
import ExecutionLayer.Crypto.Ripemd160
import ExecutionLayer.Crypto.Secp256k1
import ExecutionLayer.Crypto.Sha256
import ExecutionLayer.Evm.Exec

/-! # Contracts for hashes and signatures -/
namespace ExecutionLayer.Evm.Digest
open Exec

def chargeByWords (base perWord : Nat) (data : Bytes) : Exec Unit :=
  chargeGas (base + perWord * (ceil32 data.size / 32))

def sha256 (data : Bytes) : Exec Bytes := do
  chargeByWords Gas.sha256 Gas.sha256Word data
  return ExecutionLayer.sha256 data

def ripemd160 (data : Bytes) : Exec Bytes := do
  chargeByWords Gas.ripemd160 Gas.ripemd160Word data
  return (ExecutionLayer.ripemd160 data).padLeft 32

def identity (data : Bytes) : Exec Bytes := do
  chargeByWords Gas.identity Gas.identityWord data
  return data

def addressOf (publicKey : Bytes) : Address := Word.toAddress (keccak256 publicKey)

def signer? (data : Bytes) : Option Address :=
  let v := Bytes.toNat (data.read 32 32)
  let r := Bytes.toNat (data.read 64 32)
  let s := Bytes.toNat (data.read 96 32)
  if (v = 27 ∨ v = 28) ∧ 0 < r ∧ r < Secp256k1.order ∧ 0 < s ∧ s < Secp256k1.order then
    match Secp256k1.recover r s (v - 27) (Word.ofBytes (data.read 0 32)) with
    | .ok key => some (addressOf key)
    | .error _ => none
  else none

def ecrecover (data : Bytes) : Exec Bytes := do
  chargeGas Gas.ecrecover
  match signer? data with
  | some address => return fixedBytes address.toWord
  | none => return ByteArray.empty

def blake2f (data : Bytes) : Exec Bytes := do
  if data.size ≠ 213 then halt .invalidParameter
  let p := Blake2b.Parameters.ofBytes data
  chargeGas p.rounds
  if 1 < p.final then halt .invalidParameter
  ofExcept (Blake2b.compress p)

/-- The hash under which a commitment is known: a version byte and all but the first byte of a
digest. -/
def versionedHash (commitment : Bytes) : Bytes :=
  Bytes.ofList [1] ++ (ExecutionLayer.sha256 commitment).part 1 32

/-- The number of field elements of a blob and the size of the field. -/
def evaluationResult : Bytes :=
  Bytes.ofNat 32 4096 ++ Bytes.ofNat 32
    52435875175126190479447740508185965837690552500527637822603658699938581184513

def pointEvaluation (data : Bytes) : Exec Bytes := do
  if data.size ≠ 192 then halt .kzgProof
  chargeGas Gas.pointEvaluation
  let commitment := data.part 96 144
  if versionedHash commitment ≠ data.part 0 32 then halt .kzgProof
  let verified := (← read).verifyOpening commitment (data.part 32 64) (data.part 64 96)
    (data.part 144 192)
  if verified then return evaluationResult else halt .kzgProof

end ExecutionLayer.Evm.Digest
