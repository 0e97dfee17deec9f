import ExecutionLayer.Proofs.Rlp.Prefix
import ExecutionLayer.Proofs.Sequence
import Mathlib.Data.List.Induction

/-! # What is written is read back

Each reader of the decoder is matched with what it accepts: a length with its shortest digits, a
payload with the header in front of it, a string with its encoding. The round trip then follows the
structure of items.
-/
namespace ExecutionLayer
variable {b first : UInt8} {n base : Nat} {v : Item}

namespace BigEndian

theorem digits_value (l : List UInt8) : digits l.length (value l) = l := by
  induction l using List.reverseRecOn with
  | nil => rfl
  | append_singleton l b ih =>
    have hb := b.toNat_lt
    have hdiv : (value l * 256 + b.toNat) / 256 = value l := by omega
    have hlow : (value l * 256 + b.toNat).toUInt8 = b := by
      apply UInt8.toNat_inj.mp
      simp only [Nat.toUInt8_eq, UInt8.toNat_ofNat']
      omega
    simp only [List.length_append, List.length_singleton, digits, value_append_singleton, hdiv,
      hlow, ih]

theorem value_lt (l : List UInt8) : value l < 256 ^ l.length := by
  have hmod := value_digits l.length (value l)
  rw [digits_value] at hmod
  rw [hmod]
  exact Nat.mod_lt _ (by positivity)

theorem value_cons (b : UInt8) (l : List UInt8) :
    value (b :: l) = b.toNat * 256 ^ l.length + value l := by
  induction l using List.reverseRecOn with
  | nil => simp [value]
  | append_singleton l c ih =>
    rw [← List.cons_append, value_append_singleton, value_append_singleton, ih,
      List.length_append, List.length_singleton]
    ring

theorem byteLength_value (hb : b ≠ 0) (l : List UInt8) :
    byteLength (value (b :: l)) = l.length + 1 := by
  apply Nat.le_antisymm
  · apply byteLength_le_of_lt
    rw [← pow_eq_two_pow]
    exact value_lt (b :: l)
  · by_contra hlt
    have hpos : 0 < b.toNat := Nat.pos_of_ne_zero fun h => hb (UInt8.toNat_inj.mp h)
    have hhigh := lt_pow_byteLength (value (b :: l))
    have hpow : 256 ^ byteLength (value (b :: l)) ≤ 256 ^ l.length :=
      Nat.pow_le_pow_right (by decide) (by omega)
    have hlead : 256 ^ l.length ≤ b.toNat * 256 ^ l.length := Nat.le_mul_of_pos_left _ hpos
    rw [value_cons] at hhigh hpow
    omega

theorem value_digits_byteLength (n : Nat) : value (digits (byteLength n) n) = n := by
  rw [value_digits, Nat.mod_eq_of_lt (lt_pow_byteLength n)]

theorem exists_cons_digits (hn : n ≠ 0) : ∃ b l, b ≠ 0 ∧ digits (byteLength n) n = b :: l := by
  cases hd : digits (byteLength n) n with
  | nil =>
    have hv := value_digits_byteLength n
    simp [hd, value] at hv
    omega
  | cons b l =>
    refine ⟨b, l, ?_, rfl⟩
    rintro rfl
    have hv := value_digits_byteLength n
    have hl := congrArg List.length hd
    have hlt := value_lt l
    rw [hd, value_cons] at hv
    rw [pow_eq_two_pow] at hlt
    have hle : byteLength n ≤ l.length := byteLength_le_of_lt (by simp at hv; omega)
    simp at hl
    omega

end BigEndian

namespace Rlp
variable {bs rest : List UInt8}

/-! ## Readers -/

theorem splitExactly_eq_some_iff {taken : List UInt8} :
    splitExactly n bs = some (taken, rest) ↔ taken.length = n ∧ bs = taken ++ rest := by
  constructor
  · exact splitExactly_eq_some
  · rintro ⟨rfl, rfl⟩
    simp [splitExactly]

theorem takeLength_eq_ok_iff {width : Nat} :
    takeLength width bs = .ok (n, rest) ↔
      n ≠ 0 ∧ width = byteLength n ∧ bs = BigEndian.digits width n ++ rest := by
  constructor
  · intro h
    unfold takeLength at h
    split at h
    · next b digits rest' hsplit =>
      split at h
      · cases h
      · next hb =>
        cases h
        obtain ⟨rfl, rfl⟩ := splitExactly_eq_some hsplit
        have hwidth := BigEndian.byteLength_value hb digits
        refine ⟨?_, hwidth.symm, ?_⟩
        · intro hzero
          rw [hzero] at hwidth
          simp [byteLength, bitLength] at hwidth
        · rw [BigEndian.digits_value]
    · cases h
  · rintro ⟨hn, rfl, rfl⟩
    obtain ⟨b, digits, hb, hd⟩ := BigEndian.exists_cons_digits hn
    have hsplit : splitExactly (byteLength n) (BigEndian.digits (byteLength n) n ++ rest) =
        some (b :: digits, rest) := by
      rw [splitExactly_eq_some_iff, ← hd]
      simp
    unfold takeLength
    rw [hsplit]
    simp [hb, ← hd, BigEndian.value_digits_byteLength]

theorem leadByte_of_lt (base : Nat) {length : Nat} (h : length < 56) :
    leadByte base length = base + length := if_pos h

theorem leadByte_of_not_lt (base : Nat) {length : Nat} (h : ¬ length < 56) :
    leadByte base length = base + 55 + byteLength length := if_neg h

theorem lt_of_byteLength_le (h : byteLength n ≤ 8) : n < 2 ^ 64 :=
  (lt_pow_byteLength n).trans_le (Nat.pow_le_pow_right (by decide) h)

section Payload
variable {first : Nat} {payload : List UInt8}

theorem takePayload_of_short (hlow : base ≤ first)
    (hshort : first ≤ base + 55) : takePayload base first rest = .ok payload ↔
      first = base + payload.length ∧ ∃ tail, rest = payload ++ tail := by
  unfold takePayload
  rw [if_pos hshort]
  constructor
  · intro h
    split at h
    · next tail hsplit =>
      cases h
      obtain ⟨hlen, rfl⟩ := splitExactly_eq_some hsplit
      exact ⟨by omega, tail, rfl⟩
    · cases h
  · rintro ⟨hfirst, tail, rfl⟩
    have hsplit : splitExactly (first - base) (payload ++ tail) = some (payload, tail) :=
      splitExactly_eq_some_iff.mpr ⟨by omega, rfl⟩
    simp [hsplit, pure, Except.pure]

theorem takePayload_of_long (hlong : ¬ first ≤ base + 55) :
    takePayload base first rest = .ok payload ↔
      ¬ payload.length < 56 ∧ first = base + 55 + byteLength payload.length ∧
        ∃ tail, rest = lengthBytes payload.length ++ (payload ++ tail) := by
  unfold takePayload
  rw [if_neg hlong]
  constructor
  · intro h
    obtain ⟨⟨length, rest'⟩, hlength, hpayload⟩ := of_except_ok h
    obtain ⟨-, hwidth, rfl⟩ := takeLength_eq_ok_iff.mp hlength
    dsimp only at hpayload
    split at hpayload
    · cases hpayload
    · next hlt =>
      split at hpayload
      · next tail hsplit =>
        cases hpayload
        obtain ⟨rfl, rfl⟩ := splitExactly_eq_some hsplit
        exact ⟨hlt, by omega, tail, by simp [lengthBytes, hlt, hwidth]⟩
      · cases hpayload
  · rintro ⟨hlt, hfirst, tail, rfl⟩
    have hlength : takeLength (first - (base + 55))
        (lengthBytes payload.length ++ (payload ++ tail)) =
          .ok (payload.length, payload ++ tail) := by
      rw [takeLength_eq_ok_iff, lengthBytes, if_neg hlt]
      have hwidth : first - (base + 55) = byteLength payload.length := by omega
      exact ⟨by omega, hwidth, by rw [hwidth]⟩
    have hsplit : splitExactly payload.length (payload ++ tail) = some (payload, tail) :=
      splitExactly_eq_some_iff.mpr ⟨rfl, rfl⟩
    rw [except_of_ok hlength]
    simp [hlt, hsplit, pure, Except.pure]

theorem takePayload_eq_ok_iff (hlow : base ≤ first) (hhigh : first < base + 64) :
    takePayload base first rest = .ok payload ↔ payload.length < 2 ^ 64 ∧
      first = leadByte base payload.length ∧
      ∃ tail, rest = lengthBytes payload.length ++ (payload ++ tail) := by
  by_cases hshort : first ≤ base + 55
  · rw [takePayload_of_short hlow hshort]
    constructor
    · rintro ⟨hfirst, tail, rfl⟩
      have hlt : payload.length < 56 := by omega
      exact ⟨by omega, hfirst.trans (leadByte_of_lt base hlt).symm, tail,
        by simp [lengthBytes, hlt]⟩
    · rintro ⟨-, hfirst, tail, rfl⟩
      have hlt : payload.length < 56 := by
        by_contra hge
        have hpos := byteLength_pos (n := payload.length) (by omega)
        rw [leadByte_of_not_lt base hge] at hfirst
        omega
      exact ⟨hfirst.trans (leadByte_of_lt base hlt), tail, by simp [lengthBytes, hlt]⟩
  · rw [takePayload_of_long hshort]
    constructor
    · rintro ⟨hlt, hfirst, hrest⟩
      exact ⟨lt_of_byteLength_le (by omega), hfirst.trans (leadByte_of_not_lt base hlt).symm, hrest⟩
    · rintro ⟨-, hfirst, hrest⟩
      have hlt : ¬ payload.length < 56 := by
        intro hlt
        rw [leadByte_of_lt base hlt] at hfirst
        omega
      exact ⟨hlt, hfirst.trans (leadByte_of_not_lt base hlt), hrest⟩

end Payload

theorem cons_eq_wrap_append_iff {payload tail : List UInt8} (hbase : base ≤ 192)
    (hp : payload.length < 2 ^ 64) : first :: rest = wrap base payload ++ tail ↔
      first.toNat = leadByte base payload.length ∧
        rest = lengthBytes payload.length ++ (payload ++ tail) := by
  rw [wrap, header_eq, List.cons_append, List.cons_append, List.cons.injEq, List.append_assoc,
    ← UInt8.toNat_inj, toNat_leadByte hbase hp]

theorem takePayload_eq_ok_iff_wrap {payload : List UInt8} (hbase : base ≤ 192)
    (hlow : base ≤ first.toNat) (hhigh : first.toNat < base + 64) :
    takePayload base first.toNat rest = .ok payload ↔
      payload.length < 2 ^ 64 ∧ ∃ tail, first :: rest = wrap base payload ++ tail := by
  rw [takePayload_eq_ok_iff hlow hhigh]
  refine and_congr_right fun hp => ?_
  simp only [cons_eq_wrap_append_iff hbase hp, exists_and_left]

/-! ## Strings -/

theorem encodeBytes_of_low (hb : b < 128) : encodeBytes [b] = [b] := if_pos hb

theorem decodeBytes_eq_ok_iff {u : List UInt8} (hlow : 128 ≤ first.toNat)
    (hhigh : first.toNat < 192) : decodeBytes first rest = .ok u ↔
      u.length < 2 ^ 64 ∧ ∃ tail, first :: rest = encodeBytes u ++ tail := by
  have htake {payload : List UInt8} : takePayload 128 first.toNat rest = .ok payload ↔
      payload.length < 2 ^ 64 ∧ ∃ tail, first :: rest = wrap 128 payload ++ tail :=
    takePayload_eq_ok_iff_wrap (by decide) hlow (by omega)
  unfold decodeBytes
  dsimp only
  rw [if_neg (by omega)]
  constructor
  · intro h
    obtain ⟨payload, hpayload, h⟩ := of_except_ok h
    obtain ⟨hlen, tail, htail⟩ := htake.mp hpayload
    rcases encodeBytes_cases payload with ⟨b, hb, rfl, -⟩ | hwrap
    · simp [hb] at h
    · have hu : payload = u := by
        split at h
        · split at h
          · cases h
          · exact Except.ok.inj h
        · exact Except.ok.inj h
      subst hu
      exact ⟨hlen, tail, by rw [htail, hwrap]⟩
  · rintro ⟨hlen, tail, htail⟩
    rcases encodeBytes_cases u with ⟨b, hb, rfl, hself⟩ | hwrap
    · rw [hself] at htail
      have hlt : b.toNat < 128 := hb
      rw [← (List.cons.inj htail).1] at hlt
      omega
    · rw [except_of_ok (htake.mpr ⟨hlen, tail, by rw [htail, hwrap]⟩)]
      split
      · next b =>
        split
        · next hb =>
          have hlonger := length_lt_length_wrap 128 [b]
          rw [← hwrap, encodeBytes_of_low hb] at hlonger
          omega
        · rfl
      · rfl

/-! ## Items -/

def Item.payload : Item → List UInt8
  | .bytes u => u
  | .list items => encodeAll items

theorem length_payload_le (v : Item) : v.payload.length ≤ (encode v).length := by
  cases v with
  | bytes u =>
    rw [encode]
    exact length_le_length_encodeBytes u
  | list items =>
    rw [encode]
    exact (length_lt_length_wrap 192 (encodeAll items)).le

theorem itemLength_wrap_append (hbase : base = 128 ∨ base = 192)
    {payload : List UInt8} (hp : payload.length < 2 ^ 64) (tail : List UInt8) :
    itemLength (wrap base payload ++ tail) = .ok (wrap base payload).length := by
  have hbounds := leadByte_bounds base hp
  have hlead : (leadByte base payload.length).toUInt8.toNat = leadByte base payload.length :=
    toNat_leadByte (by omega) hp
  rw [wrap, header_eq, List.cons_append, List.cons_append, itemLength]
  dsimp only
  rw [hlead]
  by_cases hlt : payload.length < 56
  · rw [leadByte_of_lt base hlt]
    rcases hbase with rfl | rfl
    · rw [if_neg (by omega), if_pos (by omega)]
      simp [lengthBytes, hlt, pure, Except.pure]
      omega
    · rw [if_neg (by omega), if_neg (by omega), if_neg (by omega), if_pos (by omega)]
      simp [lengthBytes, hlt, pure, Except.pure]
      omega
  · have hpos := byteLength_pos (n := payload.length) (by omega)
    have hlength {width : Nat} (hwidth : width = byteLength payload.length) :
        takeLength width (lengthBytes payload.length ++ payload ++ tail) =
          .ok (payload.length, payload ++ tail) := by
      rw [takeLength_eq_ok_iff, lengthBytes, if_neg hlt, hwidth, List.append_assoc]
      exact ⟨by omega, rfl, rfl⟩
    rw [leadByte_of_not_lt base hlt] at hbounds ⊢
    rcases hbase with rfl | rfl
    · rw [if_neg (by omega), if_neg (by omega), if_pos (by omega),
        except_of_ok (hlength (by omega))]
      simp [lengthBytes, hlt, pure, Except.pure]
      omega
    · rw [if_neg (by omega), if_neg (by omega), if_neg (by omega), if_neg (by omega),
        except_of_ok (hlength (by omega))]
      simp [lengthBytes, hlt, pure, Except.pure]
      omega

theorem itemLength_of_low (hb : b < 128) (tail : List UInt8) : itemLength (b :: tail) = .ok 1 := by
  have hlt : b.toNat < 128 := hb
  simp [itemLength, hlt, pure, Except.pure]

theorem itemLength_encode_append (hv : v.payload.length < 2 ^ 64) (tail : List UInt8) :
    itemLength (encode v ++ tail) = .ok (encode v).length := by
  cases v with
  | bytes u =>
    rw [encode]
    rcases encodeBytes_cases u with ⟨b, hb, rfl, hself⟩ | hwrap
    · rw [hself]
      exact itemLength_of_low hb tail
    · rw [hwrap]
      exact itemLength_wrap_append (Or.inl rfl) hv tail
  | list items =>
    rw [encode]
    exact itemLength_wrap_append (Or.inr rfl) hv tail

theorem splitItem_encode_append (hv : v.payload.length < 2 ^ 64) (tail : List UInt8) :
    splitItem (encode v ++ tail) = .ok (encode v, tail) := by
  unfold splitItem
  rw [except_of_ok (itemLength_encode_append hv tail),
    splitExactly_eq_some_iff.mpr ⟨rfl, rfl⟩]
  rfl

theorem length_of_splitItem {first : List UInt8} (h : splitItem bs = .ok (first, rest)) :
    0 < first.length ∧ first.length + rest.length = bs.length := by
  obtain ⟨hpos, rfl⟩ := splitItem_eq_ok h
  exact ⟨hpos, List.length_append.symm⟩

/-! ## Sequences of readers -/

theorem decode_of_string (h : first ≤ 191) (rest : List UInt8) :
    decode (first :: rest) = (decodeBytes first rest).map .bytes := by
  rw [decode, if_pos h]

theorem decode_of_list (h : ¬ first ≤ 191) (rest : List UInt8) : decode (first :: rest) =
      listPayload first rest >>= fun payload => (decodeAll payload).map .list := by
  rw [decode, if_neg h]
  split
  · next payload hpayload => rw [except_of_ok hpayload]
  · next e hpayload => rw [except_of_error hpayload]

theorem listPayload_eq_ok_iff {payload : List UInt8} (h : ¬ first ≤ 191) :
    listPayload first rest = .ok payload ↔
      payload.length < 2 ^ 64 ∧ ∃ tail, first :: rest = wrap 192 payload ++ tail := by
  have hlow : 192 ≤ first.toNat := Nat.lt_of_not_le h
  unfold listPayload
  dsimp only
  rw [if_neg (by omega)]
  exact takePayload_eq_ok_iff_wrap le_rfl hlow first.toNat_lt

@[simp] theorem decodeAll_nil : decodeAll [] = .ok [] := by
  rw [decodeAll]
  rfl

theorem decodeAll_of_ne_nil (h : bs ≠ []) :
    decodeAll bs = splitItem bs >>= fun parts =>
      decode parts.1 >>= fun item => (decodeAll parts.2).map (item :: ·) := by
  rw [decodeAll, if_neg (by simpa using h)]
  split
  · next first rest hsplit =>
    rw [except_of_ok hsplit]
    split
    · next item hitem => rw [except_of_ok hitem]
    · next e hitem => rw [except_of_error hitem]
  · next e hsplit => rw [except_of_error hsplit]

/-! ## The round trip -/

def lowLead : List UInt8 → Bool
  | first :: _ :: _ => first < 128
  | _ => false

theorem lowLead_of_high (h : 128 ≤ first.toNat) (rest : List UInt8) :
    lowLead (first :: rest) = false := by
  have hnot : ¬ first < 128 := Nat.not_lt_of_le h
  cases rest with
  | nil => rfl
  | cons second rest => simpa [lowLead] using hnot

theorem lowLead_encode (hv : v.payload.length < 2 ^ 64) : lowLead (encode v) = false := by
  cases v with
  | bytes u =>
    rw [encode]
    rcases encodeBytes_cases u with ⟨b, -, -, hself⟩ | hwrap
    · rw [hself]
      rfl
    · have hu : u.length < 2 ^ 64 := hv
      obtain ⟨first, rest, hcons, hlow, -⟩ := exists_cons_wrap (by decide : 128 ≤ 192) hu
      rw [hwrap, hcons]
      exact lowLead_of_high hlow rest
  | list items =>
    have hp : (encodeAll items).length < 2 ^ 64 := hv
    obtain ⟨first, rest, hcons, hlow, -⟩ := exists_cons_wrap (le_refl 192) hp
    rw [encode, hcons]
    exact lowLead_of_high (by omega) rest

theorem decode_singleton (hb : b < 128) : decode [b] = .ok (.bytes [b]) := by
  have hlt : b.toNat < 128 := hb
  have hle : b ≤ 191 := Nat.le_of_lt (hlt.trans (by decide))
  rw [decode_of_string hle]
  simp [decodeBytes, hlt, pure, Except.pure, Except.map]

theorem decode_encodeBytes_append {u tail : List UInt8} (hu : u.length < 2 ^ 64)
    (hl : lowLead (encodeBytes u ++ tail) = false) :
    decode (encodeBytes u ++ tail) = .ok (.bytes u) := by
  rcases encodeBytes_cases u with ⟨b, hb, rfl, hself⟩ | hwrap
  · cases tail with
    | nil =>
      rw [hself, List.append_nil]
      exact decode_singleton hb
    | cons c tail =>
      rw [hself] at hl
      simp [lowLead, hb] at hl
  · obtain ⟨first, rest, hcons, hlow, hhigh⟩ := exists_cons_wrap (by decide : 128 ≤ 192) hu
    have hle : first ≤ 191 := Nat.le_of_lt_succ hhigh
    have hread : decodeBytes first (rest ++ tail) = .ok u :=
      (decodeBytes_eq_ok_iff hlow hhigh).mpr ⟨hu, tail, by rw [hwrap, hcons, List.cons_append]⟩
    rw [hwrap, hcons, List.cons_append, decode_of_string hle, hread]
    rfl

theorem decode_wrap_append {payload : List UInt8} (hp : payload.length < 2 ^ 64) (tail : List UInt8)
    : decode (wrap 192 payload ++ tail) = (decodeAll payload).map .list := by
  obtain ⟨first, rest, hcons, hlow, -⟩ := exists_cons_wrap (le_refl 192) hp
  have hnot : ¬ first ≤ 191 := fun hle => Nat.not_succ_le_self 191 (hlow.trans hle)
  have hpayload : listPayload first (rest ++ tail) = .ok payload :=
    (listPayload_eq_ok_iff hnot).mpr ⟨hp, tail, by rw [hcons, List.cons_append]⟩
  rw [hcons, List.cons_append, decode_of_list hnot, except_of_ok hpayload]

mutual

theorem decode_encode_append : ∀ (v : Item) (tail : List UInt8), v.payload.length < 2 ^ 64 →
    lowLead (encode v ++ tail) = false → decode (encode v ++ tail) = .ok v
  | .bytes u, tail, hv, hl => by
    rw [encode] at hl ⊢
    exact decode_encodeBytes_append hv hl
  | .list items, tail, hv, _ => by
    have hp : (encodeAll items).length < 2 ^ 64 := hv
    rw [encode, decode_wrap_append hp, decodeAll_encodeAll items hp]
    rfl

theorem decodeAll_encodeAll : ∀ items : List Item, (encodeAll items).length < 2 ^ 64 →
    decodeAll (encodeAll items) = .ok items
  | [], _ => by simp [encodeAll]
  | item :: items, h => by
    rw [encodeAll] at h ⊢
    rw [List.length_append] at h
    have hitem : item.payload.length < 2 ^ 64 := (length_payload_le item).trans_lt (by omega)
    have hne : encode item ++ encodeAll items ≠ [] := by simp [encode_ne_nil]
    have hread := decode_encode_append item [] hitem
    rw [List.append_nil] at hread
    rw [decodeAll_of_ne_nil hne, except_of_ok (splitItem_encode_append hitem _)]
    dsimp only
    rw [except_of_ok (hread (lowLead_encode hitem)), decodeAll_encodeAll items (by omega)]
    rfl

end

theorem decode_encode (hv : v.payload.length < 2 ^ 64) : decode (encode v) = .ok v := by
  have hread := decode_encode_append v [] hv
  rw [List.append_nil] at hread
  exact hread (lowLead_encode hv)

/-- An item is read back from its encoding, so that no two items have the same one. -/
theorem encoding_read_back (v : Item) (h : (encode v).length < 2 ^ 64) :
    decode (encode v) = .ok v ∧
      ∀ w : Item, (encode w).length < 2 ^ 64 → encode w = encode v → w = v := by
  have hback {w : Item} (hw : (encode w).length < 2 ^ 64) : decode (encode w) = .ok w :=
    decode_encode ((length_payload_le w).trans_lt hw)
  refine ⟨hback h, fun w hw he => ?_⟩
  have hsame := hback hw
  rw [he, hback h] at hsame
  exact (Except.ok.inj hsame).symm

/-- A nested list with a string that needs its length written out. -/
theorem encoding_read_back_nested :
    let v : Item := .list [.bytes [0x7f], .bytes [0x80], .list [.list [], .bytes (.replicate 56 1)]]
    (encode v).length < 2 ^ 64 ∧ decode (encode v) = .ok v ∧
      ∀ w : Item, (encode w).length < 2 ^ 64 → encode w = encode v → w = v := by
  intro v
  have hv : (encode v).length < 2 ^ 64 := by decide
  exact ⟨hv, encoding_read_back v hv⟩

end Rlp

end ExecutionLayer
