import ExecutionLayer.Proofs.Rlp.Fields
import ExecutionLayer.Transaction.Codec

/-! # Records of transactions

A transaction and its record are two forms of the same thing: the record has the item of the
transaction, the transaction is read from the record, and every value of the type of a kind is the
record of some transaction of that kind.
-/
namespace ExecutionLayer.Transaction
open Rlp (Item Schema Value)
open Rlp.Schema (admitsFields admitsFields_append Spans)
open Rlp.Value (fieldItems? fieldItems?_append)
variable {fork : Fork} {v : Value}

def schemaOf (fork : Fork) (tx : Transaction) : Schema :=
  match tx.kind with
  | .legacy _ _ => legacySchema fork
  | .accessList _ _ _ _ => accessListTxSchema
  | .feeMarket _ _ _ _ _ => feeMarketSchema
  | .blob _ _ _ _ _ _ _ => blobSchema

/-- The transaction is of a kind that the fork has. Blobs are not sent to nobody. -/
def isOf (fork : Fork) (tx : Transaction) : Bool :=
  match tx.kind with
  | .legacy _ _ => true
  | .accessList _ _ _ _ => Fork.berlin ≤ fork
  | .feeMarket _ _ _ _ _ => Fork.london ≤ fork
  | .blob _ _ _ _ _ _ _ => Fork.cancun ≤ fork && tx.recipient.isSome

theorem recipientSchema_eq : recipientSchema = .union [.fixedBytes 0, .fixedBytes 20] := rfl

theorem toItem?_recipientValue (r : Option Address) :
    (recipientValue r).toItem? = some (recipientItem r) := by
  cases r <;> rfl

@[simp] theorem admits_recipientValue (r : Option Address) :
    recipientSchema.admits (recipientValue r) = true := by
  cases r with
  | none => rfl
  | some address => simp [recipientSchema_eq, recipientValue, Schema.admits, Schema.admitsVariant]

theorem of_admits_recipient (h : recipientSchema.admits v = true) : ∃ r, v = recipientValue r := by
  rw [recipientSchema_eq, Schema.admits] at h
  simp only [Schema.admitsVariant, Bool.or_false, Bool.or_eq_true] at h
  rcases h with h | h
  · obtain ⟨x, rfl⟩ := Schema.of_admits_fixedBytes (w := 0) rfl h
    exact ⟨none, rfl⟩
  · obtain ⟨x, rfl⟩ := Schema.of_admits_fixedBytes (w := 160) rfl h
    exact ⟨some x, rfl⟩

theorem size_fixedBytes_address (address : Address) : (fixedBytes address).size = 20 := by
  change (fixedBytes address).toList.length = 20
  rw [toList_fixedBytes, BigEndian.length_digits]

theorem exists_recipientValue (r : Option Address) :
    ∃ b, recipientValue r = .bytes b ∧ recipientOf b = r := by
  cases r with
  | none => exact ⟨_, rfl, rfl⟩
  | some address =>
    refine ⟨fixedBytes address, rfl, ?_⟩
    rw [recipientOf, size_fixedBytes_address, if_neg (by decide), ofNat_fixedBytes rfl]

theorem hash?_fixed (x : Hash) : hash? (.fixed x) = some x := by
  rw [Value.fixed, hash?, ofNat_fixedBytes rfl]

def accessSchema : Schema := .tuple [.fixedBytes 20, .many (.fixedBytes 32)]

theorem toItem?_accessValue (e : AccessEntry) : (accessValue e).toItem? = some (accessItem e) := by
  cases e with
  | complete address keys =>
    have hkeys := Value.toItems?_map (fun x : Word => (rfl : (Value.fixed x).toItem? = _)) keys
    rw [accessValue, Value.toItem?, Value.toItems?, Value.toItems?, Value.toItem?, hkeys]
    rfl
  | addressOnly address => rfl
  | nothing => rfl

theorem admits_accessValue (e : AccessEntry) : accessSchema.admits (accessValue e) = true := by
  cases e with
  | complete address keys =>
    have hkeys : (Schema.many (.fixedBytes 32)).admits (.seq (keys.map .fixed)) = true :=
      Schema.admits_many_map fun x _ => Schema.admits_fixed rfl x
    simp [accessSchema, accessValue, Schema.admits, Schema.admitsTuple, hkeys]
  | addressOnly address =>
    simp [accessSchema, accessValue, Schema.admits, Schema.admitsTuple]
  | nothing => rfl

theorem access?_accessValue (e : AccessEntry) : access? (accessValue e) = some e := by
  cases e with
  | complete address keys =>
    have hkeys := mapM_map_eq_some fun x (_ : x ∈ keys) => hash?_fixed x
    rw [accessValue, Value.fixed, access?, hkeys, ofNat_fixedBytes rfl]
    rfl
  | addressOnly address =>
    rw [accessValue, Value.fixed, access?, ofNat_fixedBytes rfl]
  | nothing => rfl

theorem of_admits_access (h : accessSchema.admits v = true) : ∃ e, v = accessValue e := by
  cases v with
  | seq vs =>
    rw [accessSchema, Schema.admits, Bool.and_eq_true] at h
    match vs, h.2 with
    | [], _ => exact ⟨.nothing, rfl⟩
    | [a], h =>
      rw [Schema.admitsTuple, Bool.and_eq_true] at h
      obtain ⟨address, rfl⟩ := Schema.of_admits_fixedBytes (w := 160) rfl h.1
      exact ⟨.addressOnly address, rfl⟩
    | [a, b], h =>
      simp only [Schema.admitsTuple, Bool.and_eq_true] at h
      obtain ⟨address, rfl⟩ := Schema.of_admits_fixedBytes (w := 160) rfl h.1
      obtain ⟨keys, rfl⟩ := Schema.of_admits_many
        (fun _ => Schema.of_admits_fixedBytes (w := 256) rfl) h.2.1
      exact ⟨.complete address keys, rfl⟩
    | _ :: _ :: _ :: _, h => simp [Schema.admitsTuple] at h
  | _ => cases h

theorem toItems?_hashes (l : List Hash) : Value.toItems? (l.map .fixed) = some (l.map .ofFixed) :=
  Value.toItems?_map (fun _ => rfl) l

section Groups
variable (tx : Transaction)

theorem fieldItems?_payload : fieldItems? tx.payloadFields = some tx.payloadItems := by
  rw [payloadFields, fieldItems?, toItem?_recipientValue]
  rfl

theorem fieldItems?_signature (first : String) :
    fieldItems? (tx.signatureFields first) =
      some [.ofWord tx.recoveryWord, .ofWord tx.r, .ofWord tx.s] := rfl

theorem fieldItems?_access (l : AccessList) :
    fieldItems? [accessField l] = some [accessListItem l] := by
  rw [accessField, fieldItems?, Value.toItem?, Value.toItems?_map toItem?_accessValue]
  rfl

theorem fieldItems?_blob (l : AccessList) (blobFee : Word) (hashes : List Hash) :
    fieldItems? [accessField l, ("max_fee_per_blob_gas", .word blobFee),
      ("blob_versioned_hashes", .seq (hashes.map .fixed))] =
        some [accessListItem l, .ofWord blobFee, .list (hashes.map .ofFixed)] := by
  refine fieldItems?_append (fieldItems?_access l) ?_
  simp only [fieldItems?, Value.toItem?, toItems?_hashes]
  rfl

theorem admits_payload :
    admitsFields (payloadSchema recipientSchema) tx.payloadFields = true := by
  simp [payloadSchema, payloadFields]

theorem admits_signature (first : String) :
    admitsFields (signatureSchema first) (tx.signatureFields first) = true := by
  simp [signatureSchema, signatureFields]

theorem admits_accessField (l : AccessList) :
    admitsFields [("access_list", accessListSchema)] [accessField l] = true := by
  simp only [accessField, Schema.admitsFields_cons, Schema.admitsFields_nil, Bool.and_true]
  exact Schema.admits_many_map fun e _ => admits_accessValue e

theorem admits_feeFields (chain : BitVec 64) (priority fee : Nat) :
    admitsFields ([("chain_id", .fixedWidth 64), ("nonce", .fixedWidth 256)] ++ feeSchema ++
      [("gas", .natural)]) (feeFields chain tx priority fee) = true := by
  simp [feeSchema, feeFields]

theorem admits_blobFields (l : AccessList) (blobFee : Word) (hashes : List Hash) :
    admitsFields [("access_list", accessListSchema), ("max_fee_per_blob_gas", .fixedWidth 256),
      ("blob_versioned_hashes", .many (.fixedBytes 32))] [accessField l,
        ("max_fee_per_blob_gas", .word blobFee),
        ("blob_versioned_hashes", .seq (hashes.map .fixed))] = true := by
  refine admitsFields_append (admits_accessField l) ?_
  simp [Schema.admits_many]

end Groups

theorem spans_signature (first : String) : Spans (signatureSchema first)
    fun p : Word × Word × Word × Unit =>
      [(first, .word p.1), ("r", .word p.2.1), ("s", .word p.2.2.1)] :=
  .cons (Schema.of_admits_fixedWidth rfl) <| .cons (Schema.of_admits_fixedWidth rfl) <|
    .cons (Schema.of_admits_fixedWidth rfl) .nil

section Spans
variable {α : Type} {fields : List (String × Schema)} {f : α → List (String × Value)}

theorem spans_payload {s : Schema} (hs : ∀ {v}, s.admits v = true → ∃ r, v = recipientValue r)
    (h : Spans fields f) : Spans (payloadSchema s ++ fields) fun p : _ × Word × Bytes × α =>
      [("to", recipientValue p.1), ("value", .word p.2.1), ("data", .bytes p.2.2.1)] ++ f p.2.2.2 :=
  .cons hs <| .cons (Schema.of_admits_fixedWidth rfl) <| .cons Schema.of_admits_bytes h

theorem spans_accessField (h : Spans fields f) :
    Spans (("access_list", accessListSchema) :: fields) fun p : _ × α => accessField p.1 :: f p.2 :=
  .cons (Schema.of_admits_many fun _ => of_admits_access) h

theorem spans_feeFields (h : Spans fields f) :
    Spans ([("chain_id", .fixedWidth 64), ("nonce", .fixedWidth 256)] ++ feeSchema ++
      [("gas", .natural)] ++ fields) fun p : BitVec 64 × Word × Nat × Nat × Nat × α =>
        [("chain_id", .word p.1), ("nonce", .word p.2.1),
          ("max_priority_fee_per_gas", .number p.2.2.1), ("max_fee_per_gas", .number p.2.2.2.1),
          ("gas", .number p.2.2.2.2.1)] ++ f p.2.2.2.2.2 :=
  .cons (Schema.of_admits_fixedWidth rfl) <| .cons (Schema.of_admits_fixedWidth rfl) <|
    .cons Schema.of_admits_natural <| .cons Schema.of_admits_natural <|
      .cons Schema.of_admits_natural h

end Spans

theorem toItem?_record (fork : Fork) (tx : Transaction) :
    (tx.record fork).toItem? = some tx.item := by
  have hpayload := fieldItems?_payload tx
  have hsignature := fieldItems?_signature tx
  unfold record item unsignedItems
  cases hk : tx.kind with
  | legacy price v =>
    rw [Value.toItem?, fieldItems?_append (fieldItems?_append rfl hpayload)
      (hsignature _)]
    rfl
  | accessList _ _ l | feeMarket _ _ _ l =>
    rw [Value.toItem?, fieldItems?_append (fieldItems?_append
      (fieldItems?_append rfl hpayload) (fieldItems?_access l)) (hsignature _)]
    rfl
  | blob chain priority fee l blobFee hashes y =>
    rw [Value.toItem?, fieldItems?_append (fieldItems?_append
      (fieldItems?_append rfl hpayload) (fieldItems?_blob l blobFee hashes)) (hsignature _)]
    rfl

theorem ofRecord?_record (fork : Fork) (tx : Transaction) :
    ofRecord? (tx.record fork) = some tx := by
  obtain ⟨nonce, gas, recipient, value, data, kind, r, s⟩ := tx
  obtain ⟨b, hb, hr⟩ := exists_recipientValue recipient
  have hl (l : AccessList) : (l.map accessValue).mapM access? = some l :=
    mapM_map_eq_some fun e _ => access?_accessValue e
  have hhashes (l : List Hash) : (l.map Value.fixed).mapM hash? = some l :=
    mapM_map_eq_some fun x _ => hash?_fixed x
  cases kind <;>
    simp [record, payloadFields, signatureFields, feeFields, accessField, recoveryWord, hb,
      Value.word, ofRecord?, hr, hl, hhashes]

theorem admits_record {tx : Transaction} (h : tx.isOf fork = true) :
    (tx.schemaOf fork).admits (tx.record fork) = true := by
  have hpayload := admits_payload tx
  have hsignature := admits_signature tx
  unfold schemaOf record
  cases hk : tx.kind with
  | legacy price v =>
    rw [legacySchema, Schema.admits_record]
    exact admitsFields_append (admitsFields_append (by simp) hpayload) (hsignature _)
  | accessList chain price l y =>
    rw [accessListTxSchema, Schema.admits_record]
    exact admitsFields_append (admitsFields_append (admitsFields_append (by simp) hpayload)
      (admits_accessField l)) (hsignature _)
  | feeMarket chain priority fee l y =>
    rw [feeMarketSchema, Schema.admits_record]
    exact admitsFields_append (admitsFields_append (admitsFields_append
      (admits_feeFields tx chain priority fee) hpayload) (admits_accessField l)) (hsignature _)
  | blob chain priority fee l blobFee hashes y =>
    rw [blobSchema, Schema.admits_record]
    refine admitsFields_append (admitsFields_append (admitsFields_append
      (admits_feeFields tx chain priority fee) ?_) (admits_blobFields l blobFee hashes))
      (hsignature _)
    obtain ⟨address, haddress⟩ : ∃ address, tx.recipient = some address := by
      rw [isOf, hk, Bool.and_eq_true] at h
      exact Option.isSome_iff_exists.mp h.2
    simp [payloadSchema, payloadFields, haddress, recipientValue]

theorem exists_accessList_of_admits (fork : Fork) (h : accessListTxSchema.admits v = true) :
    ∃ tx : Transaction, tx.type? = some 1 ∧ v = tx.record fork := by
  obtain ⟨_, rfl, h⟩ := Schema.of_admits_record h
  obtain ⟨⟨chain, nonce, price, gas, recipient, value, data, l, y, r, s, _⟩, rfl⟩ :=
    (Spans.cons (Schema.of_admits_fixedWidth rfl) <| .cons (Schema.of_admits_fixedWidth rfl) <|
      .cons Schema.of_admits_natural <| .cons Schema.of_admits_natural <|
        spans_payload of_admits_recipient <| spans_accessField (spans_signature "y_parity")) _ h
  exact ⟨⟨nonce, gas, recipient, value, data, .accessList chain price l y, r, s⟩, rfl, rfl⟩

theorem exists_feeMarket_of_admits (fork : Fork) (h : feeMarketSchema.admits v = true) :
    ∃ tx : Transaction, tx.type? = some 2 ∧ v = tx.record fork := by
  obtain ⟨_, rfl, h⟩ := Schema.of_admits_record h
  obtain ⟨⟨chain, nonce, priority, fee, gas, recipient, value, data, l, y, r, s, _⟩, rfl⟩ :=
    (spans_feeFields <| spans_payload of_admits_recipient <|
      spans_accessField (spans_signature "y_parity")) _ h
  exact ⟨⟨nonce, gas, recipient, value, data, .feeMarket chain priority fee l y, r, s⟩, rfl, rfl⟩

theorem exists_blob_of_admits (fork : Fork) (h : blobSchema.admits v = true) :
    ∃ tx : Transaction, tx.type? = some 3 ∧ v = tx.record fork := by
  have hto {v : Value} (h : (Schema.fixedBytes 20).admits v = true) : ∃ r, v = recipientValue r := by
    obtain ⟨x, rfl⟩ := Schema.of_admits_fixedBytes (w := 160) rfl h
    exact ⟨some x, rfl⟩
  obtain ⟨_, rfl, h⟩ := Schema.of_admits_record h
  obtain ⟨⟨chain, nonce, priority, fee, gas, recipient, value, data, l, blobFee, hashes, y, r, s, _⟩,
      rfl⟩ :=
    (spans_feeFields <| spans_payload hto <| spans_accessField <|
      .cons (Schema.of_admits_fixedWidth rfl) <| .cons
        (Schema.of_admits_many fun _ => Schema.of_admits_fixedBytes (w := 256) rfl)
          (spans_signature "y_parity")) _ h
  exact ⟨⟨nonce, gas, recipient, value, data, .blob chain priority fee l blobFee hashes y, r, s⟩,
    rfl, rfl⟩

theorem exists_record_of_admits {type : UInt8} {s : Schema} (hs : typedSchema? fork type = some s)
    (h : s.admits v = true) : ∃ tx : Transaction, tx.type? = some type ∧ v = tx.record fork := by
  unfold typedSchema? at hs
  split_ifs at hs with h₁ h₂ h₃ <;> cases hs
  · rw [of_decide_eq_true (Bool.and_eq_true_iff.mp h₁).1]
    exact exists_accessList_of_admits fork h
  · rw [of_decide_eq_true (Bool.and_eq_true_iff.mp h₂).1]
    exact exists_feeMarket_of_admits fork h
  · rw [of_decide_eq_true (Bool.and_eq_true_iff.mp h₃).1]
    exact exists_blob_of_admits fork h

end ExecutionLayer.Transaction
