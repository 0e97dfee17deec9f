import ExecutionLayer.Proofs.Rlp.Canonical
import ExecutionLayer.Proofs.Rlp.Trimmed
import ExecutionLayer.Proofs.Transaction.Records

/-! # Strings that stand for the same transaction

Bytes behind the item, leading zeros of its numbers and surplus parts of access list entries are
passed over in a string, so that many strings stand for one transaction. One of them has none of
these, and it is the encoding of the transaction.
-/
namespace ExecutionLayer

theorem Bytes.toList_eq_cons {b : Bytes} (hb : b.size ≠ 0) :
    b.toList = b.get 0 :: (b.part 1 b.size).toList := by
  have hlength : b.data.toList.length = b.size := rfl
  have hpart : (b.part 1 b.size).toList = b.data.toList.drop 1 := by
    rw [toList, part, Nat.min_eq_left (by omega), Nat.min_self, ByteArray.data_extract,
      Array.toList_extract, List.extract_eq_take_drop, List.take_of_length_le (by simp)]
  rw [hpart, get, dif_pos (Nat.pos_of_ne_zero hb)]
  exact (List.getElem_cons_drop (i := 0) (by omega)).symm

theorem Rlp.decode_eq_list_iff {bs : List UInt8} {items : List Item} :
    decode bs = .ok (.list items) ↔
      (encodeAll items).length < 2 ^ 64 ∧ ∃ tail, bs = encode (.list items) ++ tail := by
  constructor
  · intro h
    cases hl : lowLead bs with
    | false => exact decode_sound hl h
    | true =>
      match bs, hl with
      | first :: second :: rest, hl =>
        rw [decode_of_low (of_decide_eq_true hl) (by simp)] at h
        cases h
  · rintro ⟨hp, tail, rfl⟩
    rw [encode, decode_wrap_append hp, decodeAll_encodeAll items hp]
    rfl

theorem Rejection.of_ofDecode_ok {α : Type} {x : Except Rlp.DecodeError α} {a : α}
    (h : Rejection.ofDecode x = .ok a) : x = .ok a := by
  cases x with
  | ok c =>
    cases h
    rfl
  | error e => cases h

namespace Transaction
open Rlp (Item Schema Value)
variable {fork : Fork} {b : Bytes} {tx : Transaction} {s : Schema} {type : UInt8}
  {items : List Item} {tail : List UInt8}

/-- The string is the number of a kind of the fork, the encoding of a list, and a tail. -/
structure Splits (fork : Fork) (b : Bytes) (type : UInt8) (s : Schema) (items : List Item)
    (tail : List UInt8) : Prop where
  schema : typedSchema? fork type = some s
  length : (Rlp.encodeAll items).length < 2 ^ 64
  bytes : b.toList = type :: (Rlp.encode (.list items) ++ tail)

/-- Nothing in the string is passed over. -/
def IsExact (fork : Fork) (b : Bytes) : Prop :=
  ∃ type s items, Splits fork b type s items [] ∧ s.trim (.list items) = .list items

theorem exists_record_of_typedSchema (h : typedSchema? fork type = some s) :
    s.isUnambiguous = true ∧ ∃ name fields, s = .record name fields := by
  unfold typedSchema? at h
  split at h
  · cases h
    exact ⟨rfl, _, _, rfl⟩
  · split at h
    · cases h
      exact ⟨rfl, _, _, rfl⟩
    · split at h
      · cases h
        exact ⟨rfl, _, _, rfl⟩
      · cases h

namespace Splits

theorem eq_of_splits (h : Splits fork b type s items tail) {type' : UInt8} {s' : Schema}
    {items' : List Item} {tail' : List UInt8} (h' : Splits fork b type' s' items' tail') :
    type = type' ∧ s = s' ∧ items = items' ∧ tail = tail' := by
  have hbytes := h.bytes
  rw [h'.bytes] at hbytes
  obtain ⟨rfl, hrest⟩ := List.cons.inj hbytes
  have hs := h.schema
  rw [h'.schema] at hs
  have hread := Rlp.decode_eq_list_iff.mpr ⟨h.length, tail, rfl⟩
  have hread' := Rlp.decode_eq_list_iff.mpr ⟨h'.length, tail', rfl⟩
  rw [hrest, hread] at hread'
  obtain rfl := Item.list.inj (Except.ok.inj hread')
  exact ⟨rfl, (Option.some.inj hs).symm, rfl, (List.append_cancel_left hrest).symm⟩

end Splits

theorem decodeAs_eq_ok_iff : decodeAs s b = .ok tx ↔
    ∃ v, s.decodeBytes b = .ok v ∧ ofRecord? v = some tx := by
  unfold decodeAs
  constructor
  · intro h
    obtain ⟨v, hv, h⟩ := of_except_ok h
    refine ⟨v, Rejection.of_ofDecode_ok hv, ?_⟩
    cases hrecord : ofRecord? v with
    | none =>
      rw [hrecord] at h
      cases h
    | some tx' =>
      rw [hrecord] at h
      cases h
      rfl
  · rintro ⟨v, hv, hrecord⟩
    rw [hv, Rejection.ofDecode, except_of_ok rfl, hrecord]
    rfl

theorem typed_of_decodeTyped_ok (h : decodeTyped fork b = .ok tx) : b.size ≠ 0 ∧
    ∃ s, typedSchema? fork (b.get 0) = some s ∧ decodeAs s (b.part 1 b.size) = .ok tx := by
  unfold decodeTyped at h
  by_cases hb : b.size = 0
  · rw [if_pos hb] at h
    cases h
  · rw [if_neg hb] at h
    refine ⟨hb, ?_⟩
    cases hs : typedSchema? fork (b.get 0) with
    | none =>
      rw [hs] at h
      cases h
    | some s =>
      rw [hs] at h
      exact ⟨s, rfl, h⟩

theorem decodeTyped_eq_ok_iff : decodeTyped fork b = .ok tx ↔
    ∃ type s items tail, Splits fork b type s items tail ∧
      s.decode (.list items) = .ok (tx.record fork) := by
  constructor
  · intro h
    obtain ⟨hb, s, hs, hread⟩ := typed_of_decodeTyped_ok h
    obtain ⟨v, hv, hrecord⟩ := decodeAs_eq_ok_iff.mp hread
    obtain ⟨item, hitem, hv⟩ := of_except_ok hv
    obtain ⟨-, name, fields, rfl⟩ := exists_record_of_typedSchema hs
    obtain ⟨tx', -, rfl⟩ := exists_record_of_admits hs (Schema.admits_of_decode hv).1
    obtain rfl := Option.some.inj ((ofRecord?_record fork tx').symm.trans hrecord)
    -- No record is read from a string, so bytes behind a low one, which are read as a string, do
    -- not stand for a transaction.
    cases item with
    | bytes u =>
      rw [Schema.decode] at hv
      cases hv
    | list items =>
      obtain ⟨hp, tail, htail⟩ := Rlp.decode_eq_list_iff.mp hitem
      exact ⟨_, _, items, tail, ⟨hs, hp, by rw [Bytes.toList_eq_cons hb, htail]⟩, hv⟩
  · rintro ⟨type, s, items, tail, ⟨hs, hp, hbytes⟩, hread⟩
    have hb : b.size ≠ 0 := by
      have hlength : b.size = b.toList.length := rfl
      rw [hlength, hbytes]
      simp
    rw [Bytes.toList_eq_cons hb] at hbytes
    obtain ⟨hget, hpart⟩ := List.cons.inj hbytes
    have hitem := Rlp.decode_eq_list_iff.mpr ⟨hp, tail, hpart⟩
    unfold decodeTyped
    rw [if_neg hb, hget, hs]
    refine decodeAs_eq_ok_iff.mpr ⟨tx.record fork, ?_, ofRecord?_record fork tx⟩
    rw [Schema.decodeBytes, except_of_ok hitem, hread]

theorem toList_encode (h : Splits fork b type s items tail)
    (hread : s.decode (.list items) = .ok (tx.record fork)) :
    tx.encode.toList = type :: Rlp.encode (s.trim (.list items)) := by
  obtain ⟨hadmits, hitem⟩ := Schema.admits_of_decode hread
  obtain ⟨tx', htype, hrecord⟩ := exists_record_of_admits h.schema hadmits
  have htx := congrArg ofRecord? hrecord
  rw [ofRecord?_record, ofRecord?_record] at htx
  obtain rfl := Option.some.inj htx
  rw [toItem?_record] at hitem
  rw [encode, htype, Option.some.inj hitem]
  rfl

theorem splits_encode (h : Splits fork b type s items tail)
    (hread : s.decode (.list items) = .ok (tx.record fork)) :
    ∃ kept, s.trim (.list items) = .list kept ∧ Splits fork tx.encode type s kept [] ∧
      s.decode (.list kept) = .ok (tx.record fork) ∧ s.trim (.list kept) = .list kept := by
  have hbytes := toList_encode h hread
  obtain ⟨hclear, name, fields, rfl⟩ := exists_record_of_typedSchema h.schema
  have hkept : (Schema.record name fields).trim (.list items) =
      .list (Schema.trimFields fields items) := by rw [Schema.trim]
  have hagain := Schema.decode_trim hclear hread
  rw [hkept] at hbytes hagain
  refine ⟨_, hkept, ⟨h.schema, ?_, by rw [hbytes, List.append_nil]⟩, hagain, ?_⟩
  · exact (Schema.length_trimFields_le fields items).trans_lt h.length
  · -- Both items are that of the same record.
    have hitem := (Schema.admits_of_decode hread).2
    rw [(Schema.admits_of_decode hagain).2, hkept] at hitem
    exact Option.some.inj hitem

theorem isExact_encode (h : decodeTyped fork b = .ok tx) : IsExact fork tx.encode := by
  obtain ⟨type, s, items, tail, hb, hread⟩ := decodeTyped_eq_ok_iff.mp h
  obtain ⟨kept, -, hkept, -, htrim⟩ := splits_encode hb hread
  exact ⟨type, s, kept, hkept, htrim⟩

theorem decodeTyped_encode (h : decodeTyped fork b = .ok tx) :
    decodeTyped fork tx.encode = .ok tx := by
  obtain ⟨type, s, items, tail, hb, hread⟩ := decodeTyped_eq_ok_iff.mp h
  obtain ⟨kept, -, hkept, hagain, -⟩ := splits_encode hb hread
  exact decodeTyped_eq_ok_iff.mpr ⟨type, s, kept, [], hkept, hagain⟩

theorem encode_eq_iff (h : Splits fork b type s items tail)
    (hread : s.decode (.list items) = .ok (tx.record fork)) :
    tx.encode = b ↔ tail = [] ∧ s.trim (.list items) = .list items := by
  have hbytes := toList_encode h hread
  constructor
  · rintro rfl
    rw [h.bytes] at hbytes
    obtain ⟨-, name, fields, rfl⟩ := exists_record_of_typedSchema h.schema
    exact Schema.trim_eq_of_encode_eq h.length (List.cons.inj hbytes).2.symm
  · rintro ⟨rfl, htrim⟩
    apply Bytes.ext_toList
    rw [hbytes, h.bytes, htrim, List.append_nil]

/-- Every string that stands for a transaction is its number, the encoding of an item and a tail.
The encoding of the transaction has the item without what was passed over, and no tail. It stands
for the transaction too, and no other exact string does. -/
theorem exact_string_of_transaction (h : decodeTyped fork b = .ok tx) :
    (∃ type s items tail, Splits fork b type s items tail ∧
      tx.encode.toList = type :: Rlp.encode (s.trim (.list items)) ∧
      (tx.encode = b ↔ tail = [] ∧ s.trim (.list items) = .list items)) ∧
    decodeTyped fork tx.encode = .ok tx ∧ IsExact fork tx.encode ∧
    ∀ b', decodeTyped fork b' = .ok tx → IsExact fork b' → b' = tx.encode := by
  refine ⟨?_, decodeTyped_encode h, isExact_encode h, ?_⟩
  · obtain ⟨type, s, items, tail, hb, hread⟩ := decodeTyped_eq_ok_iff.mp h
    exact ⟨type, s, items, tail, hb, toList_encode hb hread, encode_eq_iff hb hread⟩
  · rintro b' hb' ⟨type, s, items, hexact, htrim⟩
    obtain ⟨type', s', items', tail, hsplit, hread⟩ := decodeTyped_eq_ok_iff.mp hb'
    obtain ⟨rfl, rfl, rfl, rfl⟩ := hexact.eq_of_splits hsplit
    exact ((encode_eq_iff hsplit hread).mpr ⟨rfl, htrim⟩).symm

def listing : Transaction :=
  { (default : Transaction) with
    gas := 21000, recipient := some 0
    kind := .accessList 2 0 [.complete 0 []] 0
    r := 2, s := 1 }

/-- The parts of `listing` with the given chain, and with more in the entry of the list. -/
def listingItems (chain : List UInt8) (surplus : List Item) : List Item :=
  let address := .bytes (List.replicate 20 0)
  [.bytes chain, .bytes [], .bytes [], .bytes [0x52, 0x08], address, .bytes [], .bytes [],
    .list [.list ([address, .list []] ++ surplus)], .bytes [], .bytes [2], .bytes [1]]

def listingString (chain : List UInt8) (surplus : List Item) (tail : List UInt8) : Bytes :=
  .ofList (1 :: (Rlp.encode (.list (listingItems chain surplus)) ++ tail))

theorem decodeTyped_listingString {chain : List UInt8} {surplus : List Item} {tail : List UInt8}
    (hlength : (Rlp.encodeAll (listingItems chain surplus)).length < 2 ^ 64)
    (hread : accessListTxSchema.decode (.list (listingItems chain surplus)) =
      .ok (listing.record .berlin)) :
    decodeTyped .berlin (listingString chain surplus tail) = .ok listing :=
  decodeTyped_eq_ok_iff.mpr ⟨1, accessListTxSchema, _, tail, ⟨rfl, hlength, rfl⟩, hread⟩

/-- A string with a byte left over, and the encoding that it does not equal. -/
theorem exact_string_of_transaction_longer :
    decodeTyped .berlin (listingString [2] [] [0]) = .ok listing ∧
    decodeTyped .berlin listing.encode = .ok listing ∧ IsExact .berlin listing.encode := by
  have hread : decodeTyped .berlin (listingString [2] [] [0]) = .ok listing :=
    decodeTyped_listingString (by decide +kernel) rfl
  obtain ⟨-, hback, hexact, -⟩ := exact_string_of_transaction hread
  exact ⟨hread, hback, hexact⟩

/-- Three strings that stand for a transaction and are not its encoding: one has a byte left over,
one a leading zero in a number, and one a third part in the entry of the access list. -/
theorem strings_beside_encoding :
    (decodeTyped .berlin (listingString [2] [] [0]) = .ok listing ∧
      listing.encode ≠ listingString [2] [] [0]) ∧
    (decodeTyped .berlin (listingString [0, 2] [] []) = .ok listing ∧
      listing.encode ≠ listingString [0, 2] [] []) ∧
    decodeTyped .berlin (listingString [2] [.bytes []] []) = .ok listing ∧
      listing.encode ≠ listingString [2] [.bytes []] [] := by
  refine ⟨⟨?_, by decide +kernel⟩, ⟨?_, by decide +kernel⟩, ?_, by decide +kernel⟩
  all_goals exact decodeTyped_listingString (by decide +kernel) rfl

end Transaction

end ExecutionLayer
