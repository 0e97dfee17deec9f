import ExecutionLayer.Catalog
import ExecutionLayer.Proofs.Chain.Refusal
import ExecutionLayer.Proofs.Transaction.Records

/-! # Records of blocks

Blocks and what they are made of have records, which are values of the types that the fork has for
them. Every value of these types is read back from its encoding, and so is every header, block and
transaction.
-/
namespace ExecutionLayer
open Rlp (Item Schema Value)
open Rlp.Schema (admitsFields admitsFields_append)
open Rlp.Value (fieldItems? fieldItems?_append)
variable {fork : Fork}

namespace Withdrawal

theorem toItem?_value (w : Withdrawal) : w.value.toItem? = some w.item := rfl

theorem admits_value (w : Withdrawal) : schema.admits w.value = true := by
  simp [schema, value]

theorem ofValue?_value (w : Withdrawal) : ofValue? w.value = some w := by
  simp [value, ofValue?, Value.word, Value.fixed, ofNat_fixedBytes (w := 160) rfl]

end Withdrawal

namespace Log

theorem toItem?_value (l : Log) : l.value.toItem? = some l.item := by
  simp only [value, Value.toItem?, fieldItems?, Transaction.toItems?_hashes]
  rfl

theorem admits_value (l : Log) : schema.admits l.value = true := by
  have htopics : (Schema.many (.fixedBytes 32)).admits (.seq (l.topics.map .fixed)) = true :=
    Schema.admits_many_map fun x _ => Schema.admits_fixed rfl x
  simp [schema, value, htopics]

end Log

namespace Receipt

def resultField : Result → String × Value
  | .root h => ("post_state", .fixed h)
  | .succeeded b => ("succeeded", .truth b)

def value (r : Receipt) : Value :=
  .record "Receipt" [resultField r.result, ("cumulative_gas_used", .number r.cumulativeGasUsed),
    ("bloom", .fixed r.bloom), ("logs", .seq (r.logs.map Log.value))]

def isOf (fork : Fork) (r : Receipt) : Bool :=
  match r.result with
  | .root _ => fork < Fork.byzantium
  | .succeeded _ => Fork.byzantium ≤ fork

theorem toItem?_value (r : Receipt) : r.value.toItem? = some r.item := by
  have hlogs := Value.toItems?_map Log.toItem?_value r.logs
  unfold value item resultField resultItem
  cases r.result <;> simp only [Value.toItem?, fieldItems?, hlogs] <;> rfl

theorem admits_value {r : Receipt} (h : r.isOf fork = true) :
    (schema fork).admits r.value = true := by
  have hlogs : (Schema.many Log.schema).admits (.seq (r.logs.map Log.value)) = true :=
    Schema.admits_many_map fun l _ => Log.admits_value l
  unfold isOf at h
  unfold value schema resultField
  cases hr : r.result with
  | root root =>
    have hlt : fork < Fork.byzantium := by simpa [hr] using h
    have hf : ¬ Fork.byzantium ≤ fork := Nat.not_le_of_lt hlt
    simp [hf, hlogs]
  | succeeded b =>
    have hf : Fork.byzantium ≤ fork := by simpa [hr] using h
    simp [hf, hlogs, Schema.admits]

end Receipt

namespace Header
variable {h : Header}

theorem toItem?_record (fork : Fork) (h : Header) : (h.record fork).toItem? = some h.item := by
  have hfee : fieldItems? (h.baseFee?.map fun fee => ("base_fee_per_gas", .number fee)).toList =
      some h.baseFeeItems := by
    unfold baseFeeItems
    cases h.baseFee? <;> rfl
  have hroot : fieldItems? (h.withdrawalsRoot?.map fun root =>
      ("withdrawals_root", .fixed root)).toList =
        some (h.withdrawalsRoot?.map Item.ofFixed).toList := by
    cases h.withdrawalsRoot? <;> rfl
  have hblob : fieldItems? ((h.blob?.map blobFields).getD []) =
      some ((h.blob?.map blobItems).getD []) := by
    cases h.blob? <;> rfl
  have hcommon : fieldItems? (commonFields fork h) =
      some (h.commonItems ++ [.ofFixed h.mixDigest, .ofFixed h.nonce]) := rfl
  rw [record, Value.toItem?, fieldItems?_append (fieldItems?_append
    (fieldItems?_append hcommon hfee) hroot) hblob]
  rfl

theorem admits_record (hh : h.IsOf fork) : (schema fork).admits (h.record fork) = true := by
  rw [schema, record, Schema.admits_record, schemaFields]
  refine admitsFields_append (admitsFields_append (admitsFields_append ?_ ?_) ?_) ?_
  · simp [commonSchemaFields, commonFields]
  · have hfee := hh.baseFee
    by_cases hf : Fork.london ≤ fork <;> cases hb : h.baseFee? <;> simp_all
  · have hroot := hh.withdrawalsRoot
    by_cases hf : Fork.shanghai ≤ fork <;> cases hb : h.withdrawalsRoot? <;> simp_all
  · have hblob := hh.blob
    by_cases hf : Fork.cancun ≤ fork <;> cases hb : h.blob? <;>
      simp_all [blobSchemaFields, blobFields]

theorem IsOf.appended (hh : h.IsOf fork) :
    (h.withdrawalsRoot?.isSome = true → h.baseFee?.isSome = true) ∧
      (h.blob?.isSome = true → h.withdrawalsRoot?.isSome = true) := by
  rw [hh.baseFee, hh.withdrawalsRoot, hh.blob]
  simp only [decide_eq_true_eq]
  exact ⟨Nat.le_trans (by decide), Nat.le_trans (by decide)⟩

theorem ofRecord?_record (hh : h.IsOf fork) : ofRecord? (h.record fork) = some h := by
  obtain ⟨hroot, hblob⟩ := hh.appended
  obtain ⟨parent, ommers, coinbase, state, transactions, receipts, bloom, difficulty, number,
    gasLimit, gasUsed, timestamp, extra, mix, nonce, fee?, root?, blob?⟩ := h
  have hhash (x : Hash) : BitVec.ofNat 256 (fixedBytes x).toNat = x := ofNat_fixedBytes rfl x
  cases fee? <;> cases root? <;> cases blob? <;>
    simp_all [record, commonFields, ofRecord?, appended?, blobFields, Value.fixed, Value.word,
      ofNat_fixedBytes (w := 160) rfl, ofNat_fixedBytes (w := 2048) rfl,
      ofNat_fixedBytes (w := 64) rfl]

theorem decode_item (hh : h.IsOf fork) (hl : (Rlp.encode h.item).length < 2 ^ 64) :
    decode fork (Rlp.encodeToBytes h.item) = .ok h := by
  have hread := Schema.decodeBytes_encodeToBytes (s := schema fork) (by cases fork <;> rfl)
    (admits_record hh) (toItem?_record fork h) hl
  rw [decode, hread, Rejection.ofDecode, except_of_ok rfl, ofRecord?_record hh]
  rfl

end Header

namespace Envelope

def value (fork : Fork) : Envelope → Value
  | plain tx => tx.record fork
  | typed b => .bytes b

/-- Strings stand for transactions since Berlin, and other transactions than legacy ones are not in
a block in any other form. -/
def isOf (fork : Fork) : Envelope → Bool
  | plain tx => tx.type?.isNone
  | typed _ => Fork.berlin ≤ fork

theorem schema_eq (hf : Fork.berlin ≤ fork) :
    schema fork = .union [.bytes, Transaction.legacySchema fork] := by
  rw [schema, if_pos hf]
  rfl

theorem toItem?_value (fork : Fork) (e : Envelope) : (e.value fork).toItem? = some e.item := by
  cases e with
  | plain tx => exact tx.toItem?_record fork
  | typed b => rfl

theorem admits_value {e : Envelope} (h : e.isOf fork = true) :
    (schema fork).admits (e.value fork) = true := by
  cases e with
  | plain tx =>
    have hrecord : (Transaction.legacySchema fork).admits (tx.record fork) = true := by
      obtain ⟨price, v, hk⟩ : ∃ price v, tx.kind = .legacy price v := by
        rw [isOf, Transaction.type?] at h
        cases hk : tx.kind <;> simp_all
      have hadmits : (tx.schemaOf fork).admits (tx.record fork) = true :=
        Transaction.admits_record (by rw [Transaction.isOf, hk])
      rwa [Transaction.schemaOf, hk] at hadmits
    by_cases hf : Fork.berlin ≤ fork
    · rw [schema_eq hf, Schema.admits, value]
      simp [Schema.admitsVariant, hrecord]
    · rw [schema, if_neg hf]
      exact hrecord
  | typed b =>
    rw [schema_eq (of_decide_eq_true h)]
    rfl

theorem ofValue?_value (fork : Fork) (e : Envelope) : ofValue? (e.value fork) = some e := by
  cases e with
  | plain tx =>
    have hrecord : ∃ name fields, tx.record fork = .record name fields := by
      unfold Transaction.record
      cases tx.kind <;> exact ⟨_, _, rfl⟩
    obtain ⟨name, fields, hfields⟩ := hrecord
    have hread := Transaction.ofRecord?_record fork tx
    rw [hfields] at hread
    rw [value, hfields]
    simp [ofValue?, hread]
  | typed b => rfl

end Envelope

namespace Block
variable {b : Block}

/-- All parts of the block are of the fork. Withdrawals came with Shanghai. -/
structure IsTyped (fork : Fork) (b : Block) : Prop extends b.IsOf fork where
  transactions : ∀ e ∈ b.transactions, e.isOf fork = true
  withdrawals : fork < Fork.shanghai → b.withdrawals = []

def record (fork : Fork) (b : Block) : Value :=
  .record "Block" <|
    [("header", b.header.record fork),
      ("transactions", .seq (b.transactions.map (Envelope.value fork))),
      ("ommers", .seq (b.ommers.map (Header.record fork)))]
      ++ if Fork.shanghai ≤ fork then
        [("withdrawals", .seq (b.withdrawals.map Withdrawal.value))]
      else []

theorem toItem?_record (fork : Fork) (b : Block) :
    (b.record fork).toItem? = some (b.item fork) := by
  have hheader := Header.toItem?_record fork b.header
  have htransactions := Value.toItems?_map (Envelope.toItem?_value fork) b.transactions
  have hommers := Value.toItems?_map (Header.toItem?_record fork) b.ommers
  have hwithdrawals := Value.toItems?_map Withdrawal.toItem?_value b.withdrawals
  unfold record item
  by_cases hf : Fork.shanghai ≤ fork
  · simp [hf, Value.toItem?, fieldItems?, hheader, htransactions, hommers, hwithdrawals]
  · simp [hf, Value.toItem?, fieldItems?, hheader, htransactions, hommers]

theorem admits_record (hb : b.IsTyped fork) : (schema fork).admits (b.record fork) = true := by
  have hheader := Header.admits_record hb.header
  have htransactions := Schema.admits_many_map
    fun e he => Envelope.admits_value (hb.transactions e he)
  have hommers := Schema.admits_many_map fun o ho => Header.admits_record (hb.ommers o ho)
  have hwithdrawals := Schema.admits_many_map fun w (_ : w ∈ b.withdrawals) => w.admits_value
  rw [schema, record, Schema.admits_record]
  refine admitsFields_append ?_ ?_
  · simp [hheader, htransactions, hommers]
  · by_cases hf : Fork.shanghai ≤ fork <;> simp [hf, hwithdrawals]

theorem ofRecord?_record (hb : b.IsTyped fork) : ofRecord? (b.record fork) = some b := by
  have hheader := Header.ofRecord?_record hb.header
  have htransactions := mapM_map_eq_some fun e (_ : e ∈ b.transactions) => e.ofValue?_value fork
  have hommers := mapM_map_eq_some fun o ho => Header.ofRecord?_record (hb.ommers o ho)
  have hwithdrawals := mapM_map_eq_some fun w (_ : w ∈ b.withdrawals) => w.ofValue?_value
  by_cases hf : Fork.shanghai ≤ fork
  · simp [record, ofRecord?, hf, hheader, htransactions, hommers, hwithdrawals]
  · obtain ⟨header, transactions, ommers, withdrawals⟩ := b
    obtain rfl : withdrawals = [] := hb.withdrawals (Nat.lt_of_not_le hf)
    simp_all [record, ofRecord?]

end Block

theorem Catalog.isUnambiguous_of_mem {name : String} {s : Schema}
    (h : (name, s) ∈ Catalog.encodable fork) : s.isUnambiguous = true := by
  have hall : (Catalog.encodable fork).all (·.2.isUnambiguous) = true := by
    cases fork <;> decide +kernel
  exact List.all_eq_true.mp hall (name, s) h

theorem Transaction.isUnambiguous_schemaOf (fork : Fork) (tx : Transaction) :
    (tx.schemaOf fork).isUnambiguous = true := by
  unfold Transaction.schemaOf
  cases tx.kind <;> rfl

theorem Transaction.decodeAs_item {tx : Transaction} (h : tx.isOf fork = true)
    (hl : (Rlp.encode tx.item).length < 2 ^ 64) :
    Transaction.decodeAs (tx.schemaOf fork) (Rlp.encodeToBytes tx.item) = .ok tx := by
  have hread := Schema.decodeBytes_encodeToBytes (tx.isUnambiguous_schemaOf fork)
    (Transaction.admits_record h) (tx.toItem?_record fork) hl
  rw [Transaction.decodeAs, hread, Rejection.ofDecode, except_of_ok rfl, ofRecord?_record]
  rfl

theorem Block.decode_item {b : Block} (hb : b.IsTyped fork)
    (hl : (Rlp.encode (b.item fork)).length < 2 ^ 64) :
    Block.decode fork (Rlp.encodeToBytes (b.item fork)) = .ok b := by
  have hread := Schema.decodeBytes_encodeToBytes (s := Block.schema fork) (by cases fork <;> rfl)
    (Block.admits_record hb) (b.toItem?_record fork) hl
  rw [Block.decode, hread, Rejection.ofDecode, except_of_ok rfl, ofRecord?_record hb]
  rfl

/-- The values of every type of a fork have encodings and are read back from them. Headers, blocks
and transactions are read back too, and withdrawals, logs and receipts as their records. -/
theorem typed_values_read_back (fork : Fork) :
    (∀ name s v, (name, s) ∈ Catalog.encodable fork → s.admits v = true →
      ∃ item, v.toItem? = some item ∧ ((Rlp.encode item).length < 2 ^ 64 →
        s.decodeBytes (Rlp.encodeToBytes item) = .ok v)) ∧
    (∀ h : Header, h.IsOf fork → (Rlp.encode h.item).length < 2 ^ 64 →
      Header.decode fork (Rlp.encodeToBytes h.item) = .ok h) ∧
    (∀ b : Block, b.IsTyped fork → (Rlp.encode (b.item fork)).length < 2 ^ 64 →
      Block.decode fork (Rlp.encodeToBytes (b.item fork)) = .ok b) ∧
    (∀ tx : Transaction, tx.isOf fork = true → (Rlp.encode tx.item).length < 2 ^ 64 →
      Transaction.decodeAs (tx.schemaOf fork) (Rlp.encodeToBytes tx.item) = .ok tx) ∧
    (∀ w : Withdrawal, (Rlp.encode w.item).length < 2 ^ 64 →
      Withdrawal.schema.decodeBytes (Rlp.encodeToBytes w.item) = .ok w.value) ∧
    (∀ l : Log, (Rlp.encode l.item).length < 2 ^ 64 →
      Log.schema.decodeBytes (Rlp.encodeToBytes l.item) = .ok l.value) ∧
    ∀ r : Receipt, r.isOf fork = true → (Rlp.encode r.item).length < 2 ^ 64 →
      (Receipt.schema fork).decodeBytes (Rlp.encodeToBytes r.item) = .ok r.value := by
  refine ⟨fun name s v hs hv => ?_, fun h => Header.decode_item, fun b => Block.decode_item,
    fun tx => Transaction.decodeAs_item, fun w hl => ?_, fun l hl => ?_, fun r hr hl => ?_⟩
  · have hclear := Catalog.isUnambiguous_of_mem hs
    obtain ⟨item, hitem⟩ := Schema.exists_toItem_of_admits hclear hv
    exact ⟨item, hitem, Schema.decodeBytes_encodeToBytes hclear hv hitem⟩
  · exact Schema.decodeBytes_encodeToBytes rfl w.admits_value w.toItem?_value hl
  · exact Schema.decodeBytes_encodeToBytes rfl l.admits_value l.toItem?_value hl
  · exact Schema.decodeBytes_encodeToBytes (by cases fork <;> rfl) (Receipt.admits_value hr)
      r.toItem?_value hl

def Header.numbered (number : Nat) : Header :=
  { (default : Header) with
    number := number
    timestamp := 12
    extraData := .ofList [0]
    baseFee? := some 7
    withdrawalsRoot? := some 5
    blob? := some ⟨131072, 0, 1⟩ }

/-- A block of Cancun with a transaction that creates a contract, one in the form of a string, an
ommer and a withdrawal. -/
def Block.mixed : Block where
  header := .numbered 300
  transactions := [.plain { (default : Transaction) with
    gas := 53000, data := .ofList [0x60, 0], kind := .legacy 10 27 }, .typed (.ofList [1, 2])]
  ommers := [.numbered 299]
  withdrawals := [⟨1, 2, 3, 0⟩]

/-- A block of Cancun and the record of a log. -/
theorem typed_values_read_back_block :
    (Block.mixed.IsTyped .cancun ∧
      Block.decode .cancun (Rlp.encodeToBytes (Block.mixed.item .cancun)) = .ok Block.mixed) ∧
    ∃ item, (Log.value ⟨1, [2, 3], .ofList [4]⟩).toItem? = some item ∧
      Log.schema.decodeBytes (Rlp.encodeToBytes item) =
        .ok (Log.value ⟨1, [2, 3], .ofList [4]⟩) := by
  obtain ⟨hvalues, -, hblocks, -⟩ := typed_values_read_back .cancun
  have htyped : Block.mixed.IsTyped .cancun := by
    refine ⟨⟨⟨rfl, rfl, rfl⟩, fun o ho => ?_⟩, by decide, fun hf => absurd hf (by decide)⟩
    obtain rfl := List.mem_singleton.mp ho
    exact ⟨rfl, rfl, rfl⟩
  obtain ⟨item, hitem, hread⟩ := hvalues "Log" Log.schema (Log.value ⟨1, [2, 3], .ofList [4]⟩)
    (by simp [Catalog.encodable]) (Log.admits_value _)
  refine ⟨⟨htyped, hblocks _ htyped (by decide +kernel)⟩, item, hitem, hread ?_⟩
  rw [Log.toItem?_value] at hitem
  obtain rfl := Option.some.inj hitem
  decide +kernel

end ExecutionLayer
