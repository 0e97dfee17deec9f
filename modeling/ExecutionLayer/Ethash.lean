import ExecutionLayer.Numeric
import ExecutionLayer.Crypto.Keccak

/-! # Ethash

A seed that changes with the epoch determines a cache, and the cache a much larger dataset. A nonce
is tested by mixing items of the dataset at places that depend on the mix so far. Whoever holds no
dataset computes each item from the cache when it is needed.

The two hash functions are arguments, so that nothing depends on what they are.
-/
namespace ExecutionLayer.Ethash

/-- The constants of the algorithm. They may be any integers; where a count is negative, nothing is
counted. -/
structure Parameters where
  epochSize : Int := 30000
  initialCacheSize : Int := Nat.pow 2 24
  cacheEpochGrowth : Int := Nat.pow 2 17
  initialDatasetSize : Int := Nat.pow 2 30
  datasetEpochGrowth : Int := Nat.pow 2 23
  hashBytes : Int := 64
  mixBytes : Int := 128
  cacheRounds : Int := 3
  datasetParents : Int := 256
  accesses : Int := 64
deriving DecidableEq, Repr

def Parameters.toList (p : Parameters) : List Int :=
  [p.epochSize, p.initialCacheSize, p.cacheEpochGrowth, p.initialDatasetSize, p.datasetEpochGrowth,
    p.hashBytes, p.mixBytes, p.cacheRounds, p.datasetParents, p.accesses]

structure Hashing where
  short : Bytes → Bytes
  long : Bytes → Bytes

def keccak : Hashing := ⟨keccak256Bytes, keccak512⟩

abbrev Row := List Nat

variable (params : Parameters) (hashing : Hashing)

/-- The quotient of a natural number, which no negative number divides. -/
def checkedDiv (a : Nat) (b : Int) : Except Fault Nat :=
  if b < 0 then .error .overflow
  else if b = 0 then .error .divisionByZero
  else .ok (a / b.toNat)

def checkedMod (a b : Nat) : Except Fault Nat :=
  if b = 0 then .error .divisionByZero else .ok (a % b)

/-- The remainder of a number of 32 bits, which the divisor has to be too. -/
def checkedMod32 (a b : Nat) : Except Fault Nat := do
  require (b < Nat.pow 2 32) .overflow
  checkedMod a b

def epoch (number : Nat) : Except Fault Nat := checkedDiv number params.epochSize

/-- The greatest `size - k * step` that is a prime number of `unit`s. -/
def primeSize (unit step : Nat) (size : Nat) : Except Fault Nat :=
  if unit = 0 then .error .divisionByZero
  else if Numeric.isPrime (size / unit) then .ok size
  else if _h : 0 < step ∧ step ≤ size then primeSize unit step (size - step)
  else .error .overflow
termination_by size
decreasing_by omega

def storeSize (initial growth unit : Int) (number : Nat) : Except Fault Nat := do
  let epoch ← epoch params number
  require (0 ≤ growth && 0 ≤ initial && 0 ≤ unit) .overflow
  let size := initial.toNat + growth.toNat * epoch
  require (unit.toNat ≤ size) .overflow
  primeSize unit.toNat (2 * unit.toNat) (size - unit.toNat)

def cacheSize (number : Nat) : Except Fault Nat :=
  storeSize params params.initialCacheSize params.cacheEpochGrowth params.hashBytes number

def datasetSize (number : Nat) : Except Fault Nat :=
  storeSize params params.initialDatasetSize params.datasetEpochGrowth params.mixBytes number

/-- Zeros, hashed once for every epoch. -/
def seed (number : Nat) : Except Fault Bytes := do
  return (← epoch params number).repeat hashing.short (Bytes.zeros 32)

def xorBytes (a b : Bytes) : Bytes := ⟨Array.zipWith (· ^^^ ·) a.data b.data⟩

def chain (seed : Bytes) (length : Nat) : Array Bytes :=
  let first := hashing.long seed
  ((List.range (length - 1)).foldl
    (fun (state : Array Bytes × Bytes) _ =>
      let next := hashing.long state.2
      (state.1.push next, next))
    (Array.singleton first, first)).1

/-- Replaces the entry at `i` by the hash of two others combined. -/
def mixEntry (length : Nat) (cache : Array Bytes) (i : Nat) : Except Fault (Array Bytes) := do
  let here := cache.getD i ByteArray.empty
  let first := cache.getD ((i + length - 1) % length) ByteArray.empty
  let place ← checkedMod32 (Bytes.toNatLittle (here.extract 0 4)) length
  let second := cache.getD place ByteArray.empty
  return cache.setIfInBounds i (hashing.long (xorBytes first second))

def cache (number : Nat) : Except Fault (Array Row) := do
  let seed ← seed params hashing number
  let length ← checkedDiv (← cacheSize params number) params.hashBytes
  let entries ← (List.range params.cacheRounds.toNat).foldlM
    (fun entries _ => (List.range length).foldlM (mixEntry hashing length) entries)
    (chain hashing seed length)
  return entries.map Numeric.ofBytesLittle

def fnv (a b : Nat) : Nat := (a * 16777619 ^^^ b) % Nat.pow 2 32

def fnvHash (mix data : Row) : Except Fault Row :=
  if data.length < mix.length then .error .indexOutOfRange
  else .ok (List.zipWith fnv mix data)

def mixParent (cache : Array Row) (index : Nat) (mix : Row) (j : Nat) : Except Fault Row := do
  match mix[j % 16]? with
  | none => throw .indexOutOfRange
  | some word =>
    fnvHash mix (cache.getD (← checkedMod32 (fnv (index ^^^ j) word) cache.size) [])

def datasetItem (cache : Array Row) (index : Nat) : Except Fault Bytes := do
  let row := cache.getD (← checkedMod index cache.size) []
  let start ← Integer.toBytesLittle params.hashBytes (Numeric.ofDigits32 row ^^^ index)
  let mix := Numeric.ofBytesLittle (hashing.long start)
  let mix ← (List.range params.datasetParents.toNat).foldlM (mixParent cache index) mix
  let bytes := Numeric.toBytesLittle mix
  require (bytes.size = 64) (.wrongSize 64 bytes.size)
  return hashing.long bytes

def dataset (number : Nat) : Except Fault (List Bytes) := do
  let size ← datasetSize params number
  let cache ← cache params hashing number
  (List.range (← checkedDiv size params.hashBytes)).mapM (datasetItem params hashing cache)

/-- One access to the dataset: `width` items, which make up the mix, are fetched and mixed in. -/
def access (fetch : Nat → Except Fault Row) (width rows seedHead : Nat) (mix : Row) (i : Nat) :
    Except Fault Row := do
  let word ← match mix[i % mix.length]? with
    | some word => pure word
    | none => throw .divisionByZero
  let parent ← checkedMod32 (fnv (i ^^^ seedHead) word) rows
  let items ← (List.range width).mapM fun j => fetch (2 * parent + j)
  fnvHash mix items.flatten

def compressMix : Row → Row
  | a :: b :: c :: d :: rest => fnv (fnv (fnv a b) c) d :: compressMix rest
  | _ => []

def hashimoto (headerHash : Hash) (nonce : BitVec 64) (datasetSize : Nat)
    (fetch : Nat → Except Fault Row) : Except Fault (Bytes × Bytes) := do
  let seedHash := hashing.long (fixedBytes headerHash ++ Bytes.ofNatLittle 8 nonce.toNat)
  let seedHead := Bytes.toNatLittle (seedHash.extract 0 4)
  let words := Numeric.ofBytesLittle seedHash
  require (params.hashBytes ≠ 0) .divisionByZero
  let width := (params.mixBytes.fdiv params.hashBytes).toNat
  let mix := (List.replicate width words).flatten
  let mix ← (List.range params.accesses.toNat).foldlM
    (access fetch width (datasetSize / 128) seedHead) mix
  let digest := Numeric.toBytesLittle (compressMix mix)
  return (digest, hashing.short (seedHash ++ digest))

def hashimotoLight (headerHash : Hash) (nonce : BitVec 64) (cache : Array Row)
    (datasetSize : Nat) : Except Fault (Bytes × Bytes) :=
  hashimoto params hashing headerHash nonce datasetSize fun index => do
    return Numeric.ofBytesLittle (← datasetItem params hashing cache index)

/-- Evaluation with a table of items that is repeated for ever. -/
def hashimotoTable (headerHash : Hash) (nonce : BitVec 64) (datasetSize : Nat)
    (rows : Array Row) : Except Fault (Bytes × Bytes) :=
  hashimoto params hashing headerHash nonce datasetSize fun index => do
    return rows.getD (← checkedMod index rows.size) []

end ExecutionLayer.Ethash
