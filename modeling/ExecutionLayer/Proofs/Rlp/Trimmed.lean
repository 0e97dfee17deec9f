import ExecutionLayer.Proofs.Rlp.Typed

/-! # What decoding to a type ignores

Leading zeros of numbers and surplus items of tuples make no difference to the value. An item
without them is the item of the value it is decoded to, so that decoding to a type and encoding
again takes away just these.
-/
namespace ExecutionLayer

namespace BigEndian

theorem digits_byteLength_value (l : List UInt8) :
    digits (byteLength (value l)) (value l) = l.dropWhile (· = 0) := by
  induction l with
  | nil => rfl
  | cons b l ih =>
    by_cases hb : b = 0
    · have hvalue : value (b :: l) = value l := by simp [value_cons, hb]
      rw [hvalue, ih, List.dropWhile_cons_of_pos (by simpa using hb)]
    · rw [byteLength_value hb, List.dropWhile_cons_of_neg (by simpa using hb)]
      exact digits_value (b :: l)

end BigEndian

namespace Rlp

namespace Schema

mutual

/-- The item without what decoding to the type ignores. -/
def trim : Schema → Item → Item
  | natural, .bytes b | fixedWidth _, .bytes b => .bytes (b.dropWhile (· = 0))
  | tuple parts, .list items => .list (trimTuple parts items)
  | tupleRepeating parts, .list items => .list (trimRepeating parts items)
  | union variants, item => trimVariant variants item
  | record _ fields, .list items => .list (trimFields fields items)
  | tagged _ form, item => trim form item
  | _, item => item

def trimTuple : List Schema → List Item → List Item
  | s :: ss, item :: items => trim s item :: trimTuple ss items
  | _, _ => []

def trimRepeating : List Schema → List Item → List Item
  | [s], items => items.map fun item => trim s item
  | s :: ss, item :: items => trim s item :: trimRepeating ss items
  | _, _ => []

def trimVariant : List Schema → Item → Item
  | [], item => item
  | s :: ss, item =>
    match decode s item with
    | .ok _ => trim s item
    | .error _ => trimVariant ss item

def trimFields : List (String × Schema) → List Item → List Item
  | (_, s) :: fields, item :: items => trim s item :: trimFields fields items
  | _, _ => []

end

theorem toItem?_number (b : List UInt8) :
    (Value.number (BigEndian.value b)).toItem? = some (.bytes (b.dropWhile (· = 0))) := by
  rw [Value.toItem?, Item.ofNat, BigEndian.digits_byteLength_value]

theorem of_mapM_decode {s : Schema}
    (hs : ∀ {item : Item} {v : Value}, s.decode item = .ok v →
      s.admits v = true ∧ v.toItem? = some (s.trim item)) {items : List Item} {vs : List Value}
    (h : (items.mapM fun item => s.decode item) = .ok vs) :
    (∀ v ∈ vs, s.admits v = true) ∧
      Value.toItems? vs = some (items.map fun item => s.trim item) := by
  induction items generalizing vs with
  | nil =>
    cases h
    exact ⟨by simp, rfl⟩
  | cons item items ih =>
    rw [List.mapM_cons] at h
    obtain ⟨v, hv, h⟩ := of_except_ok h
    obtain ⟨rest, hrest, h⟩ := of_except_ok h
    cases h
    obtain ⟨hadmits, hitem⟩ := hs hv
    obtain ⟨hothers, hitems⟩ := ih hrest
    refine ⟨List.forall_mem_cons.mpr ⟨hadmits, hothers⟩, ?_⟩
    rw [Value.toItems?, hitem, hitems]
    rfl

mutual

theorem admits_of_decode {s : Schema} {item : Item} {v : Value} (h : s.decode item = .ok v) :
    s.admits v = true ∧ v.toItem? = some (s.trim item) := by
  unfold decode at h
  split at h
  · cases h
    exact ⟨rfl, toItem?_number _⟩
  · next bits b =>
    split at h
    · cases h
    · next hlength =>
      cases h
      refine ⟨decide_eq_true ((BigEndian.value_lt b).trans_le ?_), toItem?_number b⟩
      exact Nat.pow_le_pow_right (by decide) (Nat.le_of_not_lt hlength)
  · cases h
    exact ⟨rfl, rfl⟩
  · next size b =>
    split at h
    · next hlength =>
      cases h
      exact ⟨decide_eq_true hlength, rfl⟩
    · cases h
  · cases h
    exact ⟨rfl, rfl⟩
  · next b =>
    split at h
    · next hb =>
      cases h
      exact ⟨rfl, by rw [hb]; rfl⟩
    · cases h
  · cases h
  · next parts items =>
    split at h
    · cases h
    · next hparts =>
      obtain ⟨vs, hvs, rfl⟩ := of_map_ok h
      obtain ⟨hadmits, hitems⟩ := admitsTuple_of_decodeTuple hvs
      rw [admits, hadmits, Value.toItem?, hitems, trim]
      exact ⟨by simpa using hparts, rfl⟩
  · next parts items =>
    split at h
    · cases h
    · next hparts =>
      obtain ⟨vs, hvs, rfl⟩ := of_map_ok h
      obtain ⟨hadmits, hitems⟩ := admitsRepeating_of_decodeRepeating hvs
      rw [admits, hadmits, Value.toItem?, hitems, trim]
      exact ⟨by simpa using hparts, rfl⟩
  · next variants item =>
    split at h
    · cases h
    · next value hvariants =>
      cases h
      rw [admits, trim]
      exact admitsVariant_of_decodeVariants hvariants
    · cases h
  · cases h
  · next name fields items =>
    split at h
    · next hlength =>
      obtain ⟨values, hvalues, rfl⟩ := of_map_ok h
      obtain ⟨hadmits, hitems⟩ := admitsFields_of_decodeFields hlength hvalues
      rw [admits, hadmits, Value.toItem?, hitems, trim]
      exact ⟨by simp, rfl⟩
    · cases h
  · rw [admits, trim]
    exact admits_of_decode h
  · cases h
  · cases h
termination_by sizeOf s

theorem admitsTuple_of_decodeTuple {ss : List Schema} {items : List Item} {vs : List Value}
    (h : decodeTuple ss items = .ok vs) :
    admitsTuple ss vs = true ∧ Value.toItems? vs = some (trimTuple ss items) := by
  unfold decodeTuple at h
  split at h
  · obtain ⟨v, hv, h⟩ := of_except_ok h
    obtain ⟨rest, hrest, h⟩ := of_except_ok h
    cases h
    obtain ⟨hadmits, hitem⟩ := admits_of_decode hv
    obtain ⟨hothers, hitems⟩ := admitsTuple_of_decodeTuple hrest
    rw [admitsTuple, hadmits, hothers, Value.toItems?, hitem, hitems, trimTuple]
    exact ⟨rfl, rfl⟩
  · next hnone =>
    cases h
    refine ⟨by rw [admitsTuple], ?_⟩
    rw [trimTuple, Value.toItems?]
    exact hnone
termination_by sizeOf ss

theorem admitsRepeating_of_decodeRepeating {ss : List Schema} {items : List Item}
    {vs : List Value} (h : decodeRepeating ss items = .ok vs) :
    admitsRepeating ss vs = true ∧ Value.toItems? vs = some (trimRepeating ss items) := by
  match ss, items, h with
  | [], items, h =>
    cases h
    exact ⟨rfl, rfl⟩
  | [s], items, h =>
    rw [decodeRepeating] at h
    rw [admitsRepeating_singleton, trimRepeating]
    exact of_mapM_decode admits_of_decode h
  | s :: t :: ss, [], h =>
    cases h
    exact ⟨rfl, rfl⟩
  | s :: t :: ss, item :: items, h =>
    simp only [decodeRepeating] at h
    obtain ⟨v, hv, h⟩ := of_except_ok h
    obtain ⟨rest, hrest, h⟩ := of_except_ok h
    cases h
    obtain ⟨hadmits, hitem⟩ := admits_of_decode hv
    obtain ⟨hothers, hitems⟩ := admitsRepeating_of_decodeRepeating hrest
    simp only [admitsRepeating, hadmits, hothers, Value.toItems?, hitem, hitems, trimRepeating]
    exact ⟨rfl, rfl⟩
termination_by sizeOf ss

theorem admitsVariant_of_decodeVariants {ss : List Schema} {item : Item} {v : Value}
    (h : decodeVariants ss item = [v]) :
    admitsVariant ss v = true ∧ v.toItem? = some (trimVariant ss item) := by
  match ss, h with
  | s :: ss, h =>
    rw [decodeVariants] at h
    rw [admitsVariant, trimVariant]
    cases hread : s.decode item with
    | ok w =>
      rw [hread] at h
      obtain ⟨rfl, -⟩ := List.cons.inj h
      obtain ⟨hadmits, hitem⟩ := admits_of_decode hread
      rw [hadmits]
      exact ⟨rfl, hitem⟩
    | error e =>
      rw [hread] at h
      obtain ⟨hadmits, hitem⟩ := admitsVariant_of_decodeVariants h
      rw [hadmits, Bool.or_true]
      exact ⟨rfl, hitem⟩
termination_by sizeOf ss

theorem admitsFields_of_decodeFields {fields : List (String × Schema)} {items : List Item}
    (hlength : fields.length = items.length) {values : List (String × Value)}
    (h : decodeFields fields items = .ok values) :
    admitsFields fields values = true ∧
      Value.fieldItems? values = some (trimFields fields items) := by
  match fields, items, hlength, h with
  | [], [], _, h =>
    cases h
    exact ⟨rfl, rfl⟩
  | (name, s) :: fields, item :: items, hlength, h =>
    rw [decodeFields] at h
    obtain ⟨v, hv, h⟩ := of_except_ok h
    obtain ⟨rest, hrest, h⟩ := of_except_ok h
    cases h
    obtain ⟨hadmits, hitem⟩ := admits_of_decode hv
    obtain ⟨hothers, hitems⟩ := admitsFields_of_decodeFields (by simpa using hlength) hrest
    rw [admitsFields, hadmits, hothers, Value.fieldItems?, hitem, hitems, trimFields]
    exact ⟨by simp, rfl⟩
termination_by sizeOf fields

end

end Schema

theorem byteLength_mono {m n : Nat} (h : m ≤ n) : byteLength m ≤ byteLength n := by
  apply byteLength_le_of_lt
  rw [← pow_eq_two_pow]
  exact h.trans_lt (lt_pow_byteLength n)

theorem length_wrap_mono (base : Nat) {p q : List UInt8} (h : p.length ≤ q.length) :
    (wrap base p).length ≤ (wrap base q).length := by
  have hbytes := byteLength_mono h
  have hheader : (lengthBytes p.length).length ≤ (lengthBytes q.length).length := by
    unfold lengthBytes
    split
    · simp
    · rw [if_neg (by omega), BigEndian.length_digits, BigEndian.length_digits]
      exact hbytes
  simp only [wrap, header_eq, List.length_append, List.length_cons]
  omega

theorem length_encodeBytes_le_cons (b : UInt8) (u : List UInt8) :
    (encodeBytes u).length ≤ (encodeBytes (b :: u)).length := by
  cases u with
  | nil => exact List.length_pos_iff.mpr (encode_ne_nil (.bytes [b]))
  | cons c u =>
    change _ ≤ (wrap 128 (b :: c :: u)).length
    have hmono := length_wrap_mono 128 (p := c :: u) (q := b :: c :: u) (by simp)
    rcases encodeBytes_cases (c :: u) with ⟨d, -, -, hself⟩ | hwrap
    · have hlonger := length_lt_length_wrap 128 (c :: u)
      rw [hself]
      simp only [List.length_cons, List.length_nil] at *
      omega
    · rwa [hwrap]

theorem length_encodeBytes_dropWhile_le (u : List UInt8) :
    (encodeBytes (u.dropWhile (· = 0))).length ≤ (encodeBytes u).length := by
  induction u with
  | nil => rfl
  | cons b u ih =>
    rw [List.dropWhile_cons]
    split
    · exact ih.trans (length_encodeBytes_le_cons b u)
    · rfl

namespace Schema

theorem length_encodeAll_map_le {s : Schema}
    (hs : ∀ item, (encode (s.trim item)).length ≤ (encode item).length) (items : List Item) :
    (encodeAll (items.map fun item => s.trim item)).length ≤ (encodeAll items).length := by
  induction items with
  | nil => rfl
  | cons item items ih =>
    have hitem := hs item
    simp only [List.map_cons, encodeAll, List.length_append]
    omega

mutual

theorem length_encode_trim_le (s : Schema) (item : Item) :
    (encode (s.trim item)).length ≤ (encode item).length := by
  unfold trim
  split
  · simpa only [encode] using length_encodeBytes_dropWhile_le _
  · simpa only [encode] using length_encodeBytes_dropWhile_le _
  · simpa only [encode] using length_wrap_mono 192 (length_trimTuple_le _ _)
  · simpa only [encode] using length_wrap_mono 192 (length_trimRepeating_le _ _)
  · exact length_trimVariant_le _ _
  · simpa only [encode] using length_wrap_mono 192 (length_trimFields_le _ _)
  · exact length_encode_trim_le _ _
  · rfl
termination_by sizeOf s

theorem length_trimTuple_le (ss : List Schema) (items : List Item) :
    (encodeAll (trimTuple ss items)).length ≤ (encodeAll items).length := by
  unfold trimTuple
  split
  · next s ss item items =>
    have hitem := length_encode_trim_le s item
    have hitems := length_trimTuple_le ss items
    simp only [encodeAll, List.length_append]
    omega
  · simp [encodeAll]
termination_by sizeOf ss

theorem length_trimRepeating_le (ss : List Schema) (items : List Item) :
    (encodeAll (trimRepeating ss items)).length ≤ (encodeAll items).length := by
  unfold trimRepeating
  split
  · next s => exact length_encodeAll_map_le (length_encode_trim_le s) items
  · next s ss item items _ =>
    have hitem := length_encode_trim_le s item
    have hitems := length_trimRepeating_le ss items
    simp only [encodeAll, List.length_append]
    omega
  · simp [encodeAll]
termination_by sizeOf ss

theorem length_trimVariant_le (ss : List Schema) (item : Item) :
    (encode (trimVariant ss item)).length ≤ (encode item).length := by
  unfold trimVariant
  split
  · rfl
  · next s ss =>
    split
    · exact length_encode_trim_le s item
    · exact length_trimVariant_le ss item
termination_by sizeOf ss

theorem length_trimFields_le (fields : List (String × Schema)) (items : List Item) :
    (encodeAll (trimFields fields items)).length ≤ (encodeAll items).length := by
  unfold trimFields
  split
  · next name s fields item items =>
    have hitem := length_encode_trim_le s item
    have hitems := length_trimFields_le fields items
    simp only [encodeAll, List.length_append]
    omega
  · simp [encodeAll]
termination_by sizeOf fields

end

/-- An encoding that starts with that of a record's item is not that of the trimmed item, unless
there was nothing to trim. -/
theorem trim_eq_of_encode_eq {name : String} {fields : List (String × Schema)} {items : List Item}
    {tail : List UInt8} (hp : (encodeAll items).length < 2 ^ 64)
    (h : encode ((record name fields).trim (.list items)) = encode (.list items) ++ tail) :
    tail = [] ∧ (record name fields).trim (.list items) = .list items := by
  have hle := length_trimFields_le fields items
  rw [trim, encode, encode, ← List.append_nil (wrap 192 _)] at h
  obtain ⟨hpayload, htail⟩ := wrap_append_inj le_rfl (hle.trans_lt hp) hp h
  exact ⟨htail.symm, by rw [trim, encodeAll_inj _ _ (hle.trans_lt hp) hp hpayload]⟩

theorem decode_trim {s : Schema} (hs : s.isUnambiguous = true) {item : Item} {v : Value}
    (h : s.decode item = .ok v) : s.decode (s.trim item) = .ok v := by
  obtain ⟨hadmits, hitem⟩ := admits_of_decode h
  obtain ⟨item', hitem', hread⟩ := decode_of_admits hs hadmits
  obtain rfl := Option.some.inj (hitem.symm.trans hitem')
  exact hread

end Schema

end Rlp

end ExecutionLayer
