import ExecutionLayer.Proofs.Rlp.RoundTrip

/-! # What is read was written so

Where the input starts with a header, it starts with the encoding of the item that is read; inside a
list nothing is left over. A byte below 128 that others follow is no header, and the decoder takes
it for a length below zero.
-/
namespace ExecutionLayer.Rlp

theorem splitItem_eq_ok_iff {bs first rest : List UInt8} :
    splitItem bs = .ok (first, rest) ↔ itemLength bs = .ok first.length ∧ bs = first ++ rest := by
  unfold splitItem
  constructor
  · intro h
    obtain ⟨n, hlength, h⟩ := of_except_ok h
    split at h
    · next parts hsplit =>
      cases h
      obtain ⟨rfl, happend⟩ := splitExactly_eq_some hsplit
      exact ⟨hlength, happend⟩
    · cases h
  · rintro ⟨hlength, happend⟩
    rw [except_of_ok hlength, splitExactly_eq_some_iff.mpr ⟨rfl, happend⟩]
    rfl

theorem lowLead_of_itemLength {bs tail : List UInt8} (h : itemLength (bs ++ tail) = .ok bs.length) :
    lowLead bs = false := by
  match bs with
  | [] => rfl
  | [b] => rfl
  | b :: c :: more =>
    by_contra hlow
    rw [List.cons_append, itemLength_of_low (by simpa [lowLead] using hlow)] at h
    simp at h

mutual

theorem decode_sound {bs : List UInt8} {v : Item} (hl : lowLead bs = false)
    (h : decode bs = .ok v) : v.payload.length < 2 ^ 64 ∧ ∃ tail, bs = encode v ++ tail := by
  match bs, hl, h with
  | [], _, h =>
    rw [decode] at h
    cases h
  | first :: rest, hl, h =>
    by_cases hfirst : first ≤ 191
    · rw [decode_of_string hfirst] at h
      obtain ⟨u, hu, rfl⟩ := of_map_ok h
      simp only [encode, Item.payload]
      by_cases hlow : first < 128
      · cases rest with
        | nil =>
          have hread := decode_singleton hlow
          rw [decode_of_string hfirst, hu] at hread
          cases hread
          exact ⟨by simp, [], by rw [encodeBytes_of_low hlow, List.append_nil]⟩
        | cons second rest => simp [lowLead, hlow] at hl
      · exact (decodeBytes_eq_ok_iff (Nat.le_of_not_lt hlow) (Nat.lt_succ_of_le hfirst)).mp hu
    · rw [decode_of_list hfirst] at h
      obtain ⟨payload, hpayload, h⟩ := of_except_ok h
      obtain ⟨items, hitems, rfl⟩ := of_map_ok h
      have hlt := length_listPayload_le hpayload
      have hall := eq_encodeAll_of_decodeAll hitems
      simp only [encode, Item.payload, ← hall]
      exact (listPayload_eq_ok_iff hfirst).mp hpayload
termination_by 2 * bs.length
decreasing_by
  simp only [List.length_cons]
  omega

theorem eq_encodeAll_of_decodeAll {bs : List UInt8} {items : List Item}
    (h : decodeAll bs = .ok items) : bs = encodeAll items := by
  by_cases hbs : bs = []
  · rw [hbs, decodeAll_nil] at h
    cases h
    exact hbs
  · rw [decodeAll_of_ne_nil hbs] at h
    obtain ⟨⟨first, rest⟩, hsplit, h⟩ := of_except_ok h
    obtain ⟨item, hitem, h⟩ := of_except_ok h
    obtain ⟨others, hothers, rfl⟩ := of_map_ok h
    have hparts := length_of_splitItem hsplit
    obtain ⟨hlength, happend⟩ := splitItem_eq_ok_iff.mp hsplit
    -- A low byte is an item of its own, so none stands in front of others in the part split off.
    have hl : lowLead first = false := by
      rw [happend] at hlength
      exact lowLead_of_itemLength hlength
    obtain ⟨hv, tail, htail⟩ := decode_sound hl hitem
    have hown := itemLength_encode_append hv (tail ++ rest)
    rw [← List.append_assoc, ← htail, ← happend, hlength] at hown
    have htail' : tail = [] := by
      have hsum := congrArg List.length htail
      rw [List.length_append] at hsum
      have heq : first.length = (encode item).length := Except.ok.inj hown
      exact List.length_eq_zero_iff.mp (by omega)
    have hrest := eq_encodeAll_of_decodeAll hothers
    rw [encodeAll, ← hrest, happend, htail, htail', List.append_nil]
termination_by 2 * bs.length + 1
decreasing_by all_goals omega

end

theorem decode_eq_ok_iff {bs : List UInt8} {v : Item} (hl : lowLead bs = false) :
    decode bs = .ok v ↔ v.payload.length < 2 ^ 64 ∧ ∃ tail, bs = encode v ++ tail := by
  constructor
  · exact decode_sound hl
  · rintro ⟨hv, tail, rfl⟩
    exact decode_encode_append v tail hv hl

theorem decode_of_low {first : UInt8} {rest : List UInt8} (hlow : first < 128) (hrest : rest ≠ []) :
    decode (first :: rest) = .ok (.bytes
      (if first = 127 then [] else rest.take (rest.length + first.toNat - 127))) := by
  have hlt : first.toNat < 128 := hlow
  have hle : first ≤ 191 := Nat.le_of_lt (hlt.trans (by decide))
  have hlast : first = 127 ↔ first.toNat = 127 := UInt8.toNat_inj.symm
  rw [decode_of_string hle]
  by_cases h : first.toNat = 127
  · simp [decodeBytes, hrest, hlast, h, pure, Except.pure, Except.map]
  · simp [decodeBytes, hlt, hrest, hlast, h, pure, Except.pure, Except.map]

/-- Where the first item of a string fills it, the string is decoded to an item if and only if it is
the encoding of that item. What follows the first item is not looked at. Bytes behind a byte below
128 are always decoded to a string; it leaves out as many of them as the byte falls short of 127,
and all of them if the byte is 127. -/
theorem reads_first_encoding (b : List UInt8) (v : Item) :
    (decode b = .ok v ∧ itemLength b = .ok b.length ↔
      v.payload.length < 2 ^ 64 ∧ encode v = b) ∧
    (lowLead b = false →
      (decode b = .ok v ↔ v.payload.length < 2 ^ 64 ∧ ∃ tail, b = encode v ++ tail)) ∧
    ∀ first rest, b = first :: rest → first < 128 → rest ≠ [] →
      decode b = .ok (.bytes
        (if first = 127 then [] else rest.take (rest.length + first.toNat - 127))) := by
  refine ⟨⟨?_, ?_⟩, decode_eq_ok_iff, ?_⟩
  · rintro ⟨hread, hlength⟩
    have hwhole : itemLength (b ++ []) = .ok b.length := by rwa [List.append_nil]
    have hl := lowLead_of_itemLength hwhole
    obtain ⟨hv, tail, rfl⟩ := decode_sound hl hread
    rw [itemLength_encode_append hv tail, List.length_append] at hlength
    have hsum := Except.ok.inj hlength
    have htail : tail = [] := List.length_eq_zero_iff.mp (by omega)
    exact ⟨hv, by rw [htail, List.append_nil]⟩
  · rintro ⟨hv, rfl⟩
    have hlength := itemLength_encode_append hv []
    rw [List.append_nil] at hlength
    exact ⟨decode_encode hv, hlength⟩
  · rintro first rest rfl hlow hrest
    exact decode_of_low hlow hrest

/-- An encoding that fills its string, one with a byte left over, and bytes behind a low one. -/
theorem reads_first_encoding_each_way :
    ((decode [0x82, 5, 6] = .ok (.bytes [5, 6]) ∧ itemLength [0x82, 5, 6] = .ok 3) ∧
      encode (.bytes [5, 6]) = [0x82, 5, 6]) ∧
    (lowLead [0x82, 5, 6, 9] = false ∧ decode [0x82, 5, 6, 9] = .ok (.bytes [5, 6])) ∧
    decode [126, 1, 2] = .ok (.bytes [1]) := by
  have hfill := reads_first_encoding [0x82, 5, 6] (.bytes [5, 6])
  have hover := reads_first_encoding [0x82, 5, 6, 9] (.bytes [5, 6])
  have hlow := reads_first_encoding [126, 1, 2] (.bytes [1])
  have henc : encode (.bytes [5, 6]) = [0x82, 5, 6] := by decide
  refine ⟨⟨hfill.1.mpr ⟨by decide, henc⟩, henc⟩, ⟨by decide, ?_⟩, ?_⟩
  · exact (hover.2.1 (by decide)).mpr ⟨by decide, [9], by rw [henc]; rfl⟩
  · exact hlow.2.2 126 [1, 2] rfl (by decide) (by decide)

/-- Strings that are decoded but are no encodings: one has a byte left over, and the other one
starts with a byte that is no header. -/
theorem decoded_without_encoding :
    (decode [0x80, 0] = .ok (.bytes []) ∧ encode (.bytes []) ≠ [0x80, 0]) ∧
      decode [1, 2] = .ok (.bytes []) ∧ encode (.bytes []) ≠ [1, 2] := by
  refine ⟨⟨?_, by decide⟩, ?_, by decide⟩
  · rw [decode_of_string (by decide)]
    rfl
  · exact decode_of_low (by decide) (by decide)

end ExecutionLayer.Rlp
