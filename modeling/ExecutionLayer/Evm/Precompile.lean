import ExecutionLayer.Evm.Precompile.Digest
import ExecutionLayer.Evm.Precompile.ModExp
import ExecutionLayer.Evm.Precompile.Pairing

/-! # Precompiled contracts

At some addresses calls run a function instead of code. The function takes the call's data and
answers its output.
-/
namespace ExecutionLayer.Evm

inductive Precompile where
  | ecrecover | sha256 | ripemd160 | identity | modexp | curveAdd | curveMul | pairingCheck
  | blake2f
  | pointEvaluation
deriving DecidableEq, Repr

namespace Precompile

def all : List Precompile := [
  ecrecover, sha256, ripemd160, identity, modexp, curveAdd, curveMul, pairingCheck, blake2f,
  pointEvaluation]

def address : Precompile → Address
  | ecrecover => 1
  | sha256 => 2
  | ripemd160 => 3
  | identity => 4
  | modexp => 5
  | curveAdd => 6
  | curveMul => 7
  | pairingCheck => 8
  | blake2f => 9
  | pointEvaluation => 10

def since : Precompile → Fork
  | ecrecover | sha256 | ripemd160 | identity => .frontier
  | modexp | curveAdd | curveMul | pairingCheck => .byzantium
  | blake2f => .istanbul
  | pointEvaluation => .cancun

def available (fork : Fork) : List Precompile := all.filter (·.since ≤ fork)

def at? (fork : Fork) (address : Address) : Option Precompile :=
  (available fork).find? (·.address = address)

def answer : Precompile → Bytes → Exec Bytes
  | ecrecover => Digest.ecrecover
  | sha256 => Digest.sha256
  | ripemd160 => Digest.ripemd160
  | identity => Digest.identity
  | modexp => ModExp.run
  | curveAdd => Pairing.add
  | curveMul => Pairing.mul
  | pairingCheck => Pairing.check
  | blake2f => Digest.blake2f
  | pointEvaluation => Digest.pointEvaluation

def run (p : Precompile) : Exec Unit := do
  let output ← p.answer (← Exec.message).data
  Exec.modifyFrame fun f => { f with output := output }

end Precompile

end ExecutionLayer.Evm
