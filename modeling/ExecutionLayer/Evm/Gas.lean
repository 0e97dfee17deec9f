import ExecutionLayer.Fork
import ExecutionLayer.Numeric
import ExecutionLayer.Rlp.Schema

/-! # Gas

Prices that never changed are constants; the others are functions of the fork. From Berlin on the
first access to an account or a slot in a transaction is dearer than later ones.
-/
namespace ExecutionLayer.Evm.Gas

def jumpdest : Nat := 1
def base : Nat := 2
def veryLow : Nat := 3
def low : Nat := 5
def mid : Nat := 8
def high : Nat := 10
def memoryWord : Nat := 3
def exponentiation : Nat := 10
def keccak : Nat := 30
def keccakWord : Nat := 6
def copyWord : Nat := 3
def blockHash : Nat := 20
def log : Nat := 375
def logByte : Nat := 8
def logTopic : Nat := 375
def create : Nat := 32000
def codeDepositByte : Nat := 200
def newAccount : Nat := 25000
def callValue : Nat := 9000
def callStipend : Nat := 2300
def storageSet : Nat := 20000
def storageUpdate : Nat := 5000
def coldSlot : Nat := 2100
def coldAccount : Nat := 2600
def warmAccess : Nat := 100
def selfBalance : Nat := 5
def blobHash : Nat := 3
def refundSelfDestruct : Nat := 24000
def ecrecover : Nat := 3000
def sha256 : Nat := 60
def sha256Word : Nat := 12
def ripemd160 : Nat := 600
def ripemd160Word : Nat := 120
def identity : Nat := 15
def identityWord : Nat := 3
def pointEvaluation : Nat := 50000

def exponentByte (fork : Fork) : Nat := if Fork.spuriousDragon ≤ fork then 50 else 10

/-- Reading a slot, before Berlin. -/
def sload (fork : Fork) : Nat :=
  if Fork.istanbul ≤ fork then 800 else if Fork.tangerineWhistle ≤ fork then 200 else 50

/-- Looking at the code of another account, before Berlin. -/
def external (fork : Fork) : Nat := if Fork.tangerineWhistle ≤ fork then 700 else 20

/-- Looking at a balance, before Berlin. -/
def balance (fork : Fork) : Nat :=
  if Fork.istanbul ≤ fork then 700 else if Fork.tangerineWhistle ≤ fork then 400 else 20

/-- Looking at the hash of code, before Berlin. -/
def codeHash (fork : Fork) : Nat := if Fork.istanbul ≤ fork then 700 else 400

/-- Calling, before Berlin. -/
def call (fork : Fork) : Nat := if Fork.tangerineWhistle ≤ fork then 700 else 40

def selfDestruct (fork : Fork) : Nat := if Fork.tangerineWhistle ≤ fork then 5000 else 0

def storageClearRefund (fork : Fork) : Nat := if Fork.london ≤ fork then 4800 else 15000

def memoryCost (size : Nat) : Nat :=
  let words := ceil32 size / 32
  words * memoryWord + words * words / 512

structure Extension where
  cost : Nat
  expandBy : Nat
deriving DecidableEq, Repr

def Extension.value (e : Extension) : Rlp.Value :=
  .record "ExtendMemory" [("cost", .number e.cost), ("expand_by", .number e.expandBy)]

def Extension.schema : Rlp.Schema :=
  .record "ExtendMemory" [("cost", .natural), ("expand_by", .natural)]

/-- Goes through ranges of memory that are about to be used, in their order; `size` is the size
of the memory at that point. -/
def extendFrom (size : Nat) (done : Extension) : List (Nat × Nat) → Extension
  | [] => done
  | (start, length) :: ranges =>
    let before := ceil32 size
    let after := ceil32 (start + length)
    if length = 0 || after ≤ before then extendFrom size done ranges
    else
      extendFrom after
        ⟨done.cost + (memoryCost after - memoryCost before), done.expandBy + (after - before)⟩
        ranges

def extendMemory (size : Nat) (ranges : List (Nat × Nat)) : Extension :=
  extendFrom size ⟨0, 0⟩ ranges

def extendMemory? (size : Int) (ranges : List (Word × Word)) : Except Fault Extension := do
  let n ← Capacity.size size
  require (0 ≤ size) .invalidValue
  return extendMemory n (ranges.map fun (start, length) => (start.toNat, length.toNat))

structure CallGas where
  cost : Nat
  stipend : Nat
deriving DecidableEq, Repr

def CallGas.value (g : CallGas) : Rlp.Value :=
  .record "MessageCallGas" [("cost", .number g.cost), ("stipend", .number g.stipend)]

def CallGas.schema : Rlp.Schema :=
  .record "MessageCallGas" [("cost", .natural), ("stipend", .natural)]

def maxCallGas (gas : Nat) : Nat := gas - gas / 64

def stipend (value : Nat) : Nat := if value = 0 then 0 else callStipend

def callGasUnlimited (value gas extraGas : Nat) : CallGas := ⟨gas + extraGas, gas + stipend value⟩

/-- The gas of a call that asks for `gas`. If the rest can be paid, the callee gets at most what
`maxCallGas` leaves. -/
def callGas (value gas gasLeft memoryCost extraGas : Nat) : CallGas :=
  if gasLeft < extraGas + memoryCost then callGasUnlimited value gas extraGas
  else callGasUnlimited value (min gas (maxCallGas (gasLeft - memoryCost - extraGas))) extraGas

def initCode (length : Nat) : Nat := 2 * ceil32 length / 32

def perBlob : Nat := Nat.pow 2 17

def targetBlobGas : Nat := 393216

def blobPrice (excess : Nat) : Nat := (Numeric.expTaylor 1 excess 3338477).toOption.getD 0

def nextExcess (excess used : Nat) : Except Fault Nat :=
  let total := excess + used
  if Nat.pow 2 64 ≤ total then .error .overflow
  else .ok (if total < targetBlobGas then 0 else total - targetBlobGas)

end ExecutionLayer.Evm.Gas
