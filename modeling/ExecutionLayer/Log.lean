import ExecutionLayer.Rlp.Schema

/-! # Logs and bloom filters

Every address and topic of a log sets three bits out of 2048, which are taken from a hash of it.
-/
namespace ExecutionLayer

structure Log where
  address : Address
  topics : List Hash
  data : Bytes
deriving DecidableEq

namespace Log

def item (l : Log) : Rlp.Item :=
  .list [.ofFixed l.address, .list (l.topics.map .ofFixed), .ofBytes l.data]

def value (l : Log) : Rlp.Value :=
  .record "Log" [
    ("address", .fixed l.address),
    ("topics", .seq (l.topics.map .fixed)),
    ("data", .bytes l.data)]

def schema : Rlp.Schema :=
  .record "Log" [
    ("address", .fixedBytes 20),
    ("topics", .many (.fixedBytes 32)),
    ("data", .bytes)]

end Log

namespace Bloom

variable (hash : Bytes → Hash)

/-- The bits of an entry: the low eleven bits of the first three pairs of bytes of its hash. -/
def bits (entry : Bytes) : List Nat :=
  let h := hash entry
  [(h.extractLsb' 240 11).toNat, (h.extractLsb' 224 11).toNat, (h.extractLsb' 208 11).toNat]

def setBit (bloom : Bloom) (i : Nat) : Bloom := bloom ||| (1#2048 <<< i)

def insert (bloom : Bloom) (entry : Bytes) : Bloom := (bits hash entry).foldl setBit bloom

def entries (l : Log) : List Bytes := fixedBytes l.address :: l.topics.map fixedBytes

def ofLogs (logs : List Log) : Bloom := (logs.flatMap entries).foldl (insert hash) 0

/-- Sets a bit in a filter given as bytes, which need not have 256 of them. -/
def setBitInBytes (bloom : Bytes) (i : Nat) : Except Fault Bytes :=
  let place := (2047 - i) / 8
  if place < bloom.size then
    .ok (bloom.set! place (bloom.get place ||| (1 <<< (i % 8)).toUInt8))
  else .error .indexOutOfRange

def insertInBytes (bloom entry : Bytes) : Except Fault Bytes :=
  (bits hash entry).foldlM setBitInBytes bloom

end Bloom

end ExecutionLayer
