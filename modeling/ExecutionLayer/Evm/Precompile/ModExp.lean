import ExecutionLayer.Evm.Exec

/-! # Modular exponentiation

The input begins with three words: the lengths of base, exponent and modulus. The numbers follow in
this order, and what the input lacks counts as zero bytes.
-/
namespace ExecutionLayer.Evm.ModExp

def complexity (fork : Fork) (baseLength modulusLength : Nat) : Nat :=
  let length := max baseLength modulusLength
  if Fork.berlin ≤ fork then (length + 7) / 8 * ((length + 7) / 8)
  else if length ≤ 64 then length * length
  else if length ≤ 1024 then length * length / 4 + 96 * length - 3072
  else length * length / 16 + 480 * length - 199680

/-- The number of multiplications that count, judged by the first 32 bytes of the exponent. -/
def iterations (exponentLength head : Nat) : Nat :=
  max (8 * (exponentLength - 32) + (bitLength head - 1)) 1

def cost (fork : Fork) (baseLength modulusLength exponentLength head : Nat) : Nat :=
  let total := complexity fork baseLength modulusLength * iterations exponentLength head
  if Fork.berlin ≤ fork then max 200 (total / 3) else total / 20

def number (data : Bytes) (start size : Nat) : Nat := (data.read start size).toNat

def number? (data : Bytes) (start size : Nat) : Except Fault Nat := do
  return (← data.read? start size).toNat

/-- The start of a part behind one of the given length, which has to be a word itself. -/
def startAfter (start length : Nat) : Except Fault Nat :=
  if start + length < Word.limit then .ok (start + length) else .error .overflow

def power (data : Bytes) (baseLength exponentStart exponentLength modulusLength : Nat) :
    Except Fault Bytes := do
  let base ← number? data 96 baseLength
  let exponent ← number? data exponentStart exponentLength
  let modulusStart ← startAfter exponentStart exponentLength
  let modulus ← number? data modulusStart modulusLength
  return if modulus = 0 then .zeros modulusLength
    else .ofNat modulusLength (powMod base exponent modulus)

def run (data : Bytes) : Exec Bytes := do
  let baseLength := number data 0 32
  let exponentLength := number data 32 32
  let modulusLength := number data 64 32
  let exponentStart ← Exec.ofExcept (startAfter 96 baseLength)
  let head := number data exponentStart (min 32 exponentLength)
  Exec.chargeGas (cost (← Exec.fork) baseLength modulusLength exponentLength head)
  if baseLength = 0 ∧ modulusLength = 0 then return ByteArray.empty
  Exec.ofExcept (power data baseLength exponentStart exponentLength modulusLength)

end ExecutionLayer.Evm.ModExp
