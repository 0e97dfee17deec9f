import ExecutionLayer.Rlp.Item
import Mathlib.Tactic.Ring
import Mathlib.Tactic.Linarith

/-! # Encodings of items are a prefix code

No encoding continues another one, so that a string which starts with an encoding determines the
item and what follows it. Lengths are written in at most eight bytes; this is where encodings of
`2 ^ 64` bytes and more are excluded.
-/
namespace ExecutionLayer

namespace BigEndian

@[simp] theorem length_digits (width n : Nat) : (digits width n).length = width := by
  induction width generalizing n with
  | zero => rfl
  | succ width ih => simp [digits, ih]

theorem value_append_singleton (l : List UInt8) (b : UInt8) :
    value (l ++ [b]) = value l * 256 + b.toNat := by
  simp [value, List.foldl_append]

theorem value_digits (width n : Nat) : value (digits width n) = n % 256 ^ width := by
  induction width generalizing n with
  | zero => simp [digits, value, Nat.mod_one]
  | succ width ih =>
    rw [digits, value_append_singleton, ih]
    have hb : n.toUInt8.toNat = n % 256 := by simp
    rw [hb, pow_succ, mul_comm (256 ^ width), Nat.mod_mul]
    ring

theorem digits_inj {width m n : Nat} (hm : m < 256 ^ width) (hn : n < 256 ^ width)
    (h : digits width m = digits width n) : m = n := by
  have hv := congrArg value h
  rwa [value_digits, value_digits, Nat.mod_eq_of_lt hm, Nat.mod_eq_of_lt hn] at hv

end BigEndian

theorem lt_two_pow_bitLength (n : Nat) : n < 2 ^ bitLength n := by
  unfold bitLength
  split
  · next h => simp [h]
  · exact Nat.lt_log2_self

theorem pow_eq_two_pow (width : Nat) : 256 ^ width = 2 ^ (8 * width) := by
  rw [pow_mul]
  norm_num

theorem lt_pow_byteLength (n : Nat) : n < 256 ^ byteLength n := by
  have hb := lt_two_pow_bitLength n
  rw [pow_eq_two_pow]
  refine lt_of_lt_of_le hb (Nat.pow_le_pow_right (by decide) ?_)
  unfold byteLength
  omega

theorem byteLength_le_of_lt {n width : Nat} (h : n < 2 ^ (8 * width)) : byteLength n ≤ width := by
  have hb : bitLength n ≤ 8 * width := by
    unfold bitLength
    split
    · exact Nat.zero_le _
    · next hn => exact (Nat.log2_lt hn).mpr h
  unfold byteLength
  omega

namespace Rlp

theorem Item.ofNat_inj {m n : Nat} (h : Item.ofNat m = Item.ofNat n) : m = n := by
  have hd := Item.bytes.inj h
  have hl := congrArg List.length hd
  simp only [BigEndian.length_digits] at hl
  rw [hl] at hd
  refine BigEndian.digits_inj ?_ (lt_pow_byteLength n) hd
  rw [← hl]
  exact lt_pow_byteLength m

theorem Item.ofWord_inj {x y : Word} (h : Item.ofWord x = Item.ofWord y) : x = y :=
  BitVec.eq_of_toNat_eq (Item.ofNat_inj h)

theorem length_ofNat_le {n width : Nat} (h : n < 2 ^ (8 * width)) :
    (BigEndian.digits (byteLength n) n).length ≤ width := by
  rw [BigEndian.length_digits]
  exact byteLength_le_of_lt h

def leadByte (base length : Nat) : Nat :=
  if length < 56 then base + length else base + 55 + byteLength length

def lengthBytes (length : Nat) : List UInt8 :=
  if length < 56 then [] else BigEndian.digits (byteLength length) length

theorem header_eq (base length : Nat) :
    header base length = (leadByte base length).toUInt8 :: lengthBytes length := by
  unfold header leadByte lengthBytes
  split <;> rfl

theorem byteLength_pos {n : Nat} (h : n ≠ 0) : 0 < byteLength n := by
  have hb : bitLength n ≠ 0 := by simp [bitLength, h]
  unfold byteLength
  omega

theorem leadByte_bounds (base : Nat) {length : Nat} (h : length < 2 ^ 64) :
    base ≤ leadByte base length ∧ leadByte base length < base + 64 := by
  have hb : byteLength length ≤ 8 := byteLength_le_of_lt (by simpa using h)
  unfold leadByte
  split <;> omega

theorem toNat_leadByte {base length : Nat} (hbase : base ≤ 192) (h : length < 2 ^ 64) :
    (leadByte base length).toUInt8.toNat = leadByte base length := by
  have hb := leadByte_bounds base h
  simp only [Nat.toUInt8_eq, UInt8.toNat_ofNat']
  omega

theorem length_header_le (base : Nat) {length : Nat} (h : length < 2 ^ 64) :
    (header base length).length ≤ 9 := by
  have hb : byteLength length ≤ 8 := byteLength_le_of_lt (by simpa using h)
  rw [header_eq]
  unfold lengthBytes
  split
  · simp
  · rw [List.length_cons, BigEndian.length_digits]
    omega

/-- Headers of one family are a prefix code, and a header determines the length it announces. -/
theorem header_append_inj {base l m : Nat} {x y : List UInt8} (hbase : base ≤ 192) (hl : l < 2 ^ 64)
    (hm : m < 2 ^ 64) (h : header base l ++ x = header base m ++ y) : l = m ∧ x = y := by
  rw [header_eq, header_eq, List.cons_append, List.cons_append] at h
  obtain ⟨hlead, hrest⟩ := List.cons.inj h
  have hlead := congrArg UInt8.toNat hlead
  rw [toNat_leadByte hbase hl, toNat_leadByte hbase hm] at hlead
  unfold leadByte at hlead
  unfold lengthBytes at hrest
  by_cases hls : l < 56
  · by_cases hms : m < 56
    · simp only [hls, hms, ↓reduceIte, List.nil_append] at hlead hrest
      exact ⟨by omega, hrest⟩
    · have hpos := byteLength_pos (n := m) (by omega)
      simp only [hls, hms, ↓reduceIte] at hlead
      omega
  · by_cases hms : m < 56
    · have hpos := byteLength_pos (n := l) (by omega)
      simp only [hls, hms, ↓reduceIte] at hlead
      omega
    · simp only [hls, hms, ↓reduceIte] at hlead hrest
      have hw : byteLength l = byteLength m := by omega
      obtain ⟨hd, hx⟩ := List.append_inj hrest (by simpa using hw)
      rw [hw] at hd
      refine ⟨BigEndian.digits_inj ?_ (lt_pow_byteLength m) hd, hx⟩
      rw [← hw]
      exact lt_pow_byteLength l

theorem wrap_append_inj {base : Nat} {p q x y : List UInt8} (hbase : base ≤ 192)
    (hp : p.length < 2 ^ 64) (hq : q.length < 2 ^ 64)
    (h : wrap base p ++ x = wrap base q ++ y) : p = q ∧ x = y := by
  unfold wrap at h
  rw [List.append_assoc, List.append_assoc] at h
  obtain ⟨hlen, hrest⟩ := header_append_inj hbase hp hq h
  exact List.append_inj hrest hlen

theorem length_lt_length_wrap (base : Nat) (p : List UInt8) : p.length < (wrap base p).length := by
  unfold wrap
  rw [header_eq, List.length_append, List.length_cons]
  omega

theorem exists_cons_wrap {base : Nat} (hbase : base ≤ 192) {payload : List UInt8}
    (hp : payload.length < 2 ^ 64) :
    ∃ first rest, wrap base payload = first :: rest ∧ base ≤ first.toNat ∧
      first.toNat < base + 64 := by
  refine ⟨(leadByte base payload.length).toUInt8, lengthBytes payload.length ++ payload, ?_, ?_⟩
  · rw [wrap, header_eq, List.cons_append]
  · rw [toNat_leadByte hbase hp]
    exact leadByte_bounds base hp

theorem head_encodeBytes_lt {u : List UInt8} (hu : u.length < 2 ^ 64) :
    ∃ b tail, encodeBytes u = b :: tail ∧ b.toNat < 192 := by
  obtain ⟨first, rest, hcons, -, hhigh⟩ := exists_cons_wrap (by decide : 128 ≤ 192) hu
  unfold encodeBytes
  split
  · next b =>
    split
    · next hb =>
      refine ⟨b, [], rfl, ?_⟩
      have hlt : b.toNat < 128 := hb
      omega
    · exact ⟨first, rest, hcons, hhigh⟩
  · exact ⟨first, rest, hcons, hhigh⟩

theorem cons_ne_wrap_string {b : UInt8} {v x y : List UInt8} (hb : b < 128)
    (hv : v.length < 2 ^ 64) : b :: x ≠ wrap 128 v ++ y := by
  intro h
  obtain ⟨first, rest, hcons, hlow, -⟩ := exists_cons_wrap (by decide : 128 ≤ 192) hv
  have hlt : b.toNat < 128 := hb
  rw [hcons] at h
  rw [(List.cons.inj h).1] at hlt
  omega

theorem encodeBytes_cases (u : List UInt8) :
    (∃ b : UInt8, b < 128 ∧ u = [b] ∧ encodeBytes u = [b]) ∨ encodeBytes u = wrap 128 u := by
  unfold encodeBytes
  split
  · next b =>
    split
    · next hb => exact Or.inl ⟨b, hb, rfl, rfl⟩
    · exact Or.inr rfl
  · exact Or.inr rfl

theorem encodeBytes_append_inj {u v x y : List UInt8} (hu : u.length < 2 ^ 64)
    (hv : v.length < 2 ^ 64) (h : encodeBytes u ++ x = encodeBytes v ++ y) : u = v ∧ x = y := by
  rcases encodeBytes_cases u with ⟨b, hb, rfl, hbe⟩ | hue
  · rcases encodeBytes_cases v with ⟨c, hc, rfl, hce⟩ | hve
    · rw [hbe, hce] at h
      exact List.append_inj h rfl
    · rw [hbe, hve] at h
      exact (cons_ne_wrap_string hb hv h).elim
  · rcases encodeBytes_cases v with ⟨c, hc, rfl, hce⟩ | hve
    · rw [hue, hce] at h
      exact (cons_ne_wrap_string hc hu h.symm).elim
    · rw [hue, hve] at h
      exact wrap_append_inj (by decide) hu hv h

theorem length_le_length_encodeBytes (u : List UInt8) : u.length ≤ (encodeBytes u).length := by
  rcases encodeBytes_cases u with ⟨b, _, rfl, hbe⟩ | hue
  · rw [hbe]
  · rw [hue]
    exact (length_lt_length_wrap 128 u).le

theorem length_encodeBytes_le {u : List UInt8} (hu : u.length < 2 ^ 64) :
    (encodeBytes u).length ≤ u.length + 9 := by
  rcases encodeBytes_cases u with ⟨b, _, rfl, hbe⟩ | hue
  · rw [hbe]
    simp
  · have hh := length_header_le 128 hu
    rw [hue, wrap, List.length_append]
    omega

theorem encode_ne_nil (a : Item) : encode a ≠ [] := by
  have hwrap (base : Nat) (p : List UInt8) : wrap base p ≠ [] := by
    rw [wrap, header_eq]
    simp
  cases a with
  | bytes u =>
    rw [encode]
    rcases encodeBytes_cases u with ⟨b, _, _, hbe⟩ | hue
    · simp [hbe]
    · rw [hue]
      exact hwrap 128 u
  | list items =>
    rw [encode]
    exact hwrap 192 _

mutual

theorem encode_append_inj : ∀ (a b : Item) (x y : List UInt8), (encode a).length < 2 ^ 64 →
    (encode b).length < 2 ^ 64 → encode a ++ x = encode b ++ y → a = b ∧ x = y
  | .bytes u, .bytes v, x, y, ha, hb, h => by
    simp only [encode] at ha hb h
    have hu := (length_le_length_encodeBytes u).trans_lt ha
    have hv := (length_le_length_encodeBytes v).trans_lt hb
    obtain ⟨rfl, hx⟩ := encodeBytes_append_inj hu hv h
    exact ⟨rfl, hx⟩
  | .bytes u, .list items, x, y, ha, hb, h => by
    simp only [encode] at ha hb h
    obtain ⟨c, s, hc, hlt⟩ := head_encodeBytes_lt ((length_le_length_encodeBytes u).trans_lt ha)
    obtain ⟨d, t, hd, hge, -⟩ :=
      exists_cons_wrap (le_refl 192) ((length_lt_length_wrap 192 _).trans hb)
    rw [hc, hd] at h
    rw [(List.cons.inj h).1] at hlt
    omega
  | .list items, .bytes v, x, y, ha, hb, h => by
    simp only [encode] at ha hb h
    obtain ⟨c, s, hc, hge, -⟩ :=
      exists_cons_wrap (le_refl 192) ((length_lt_length_wrap 192 _).trans ha)
    obtain ⟨d, t, hd, hlt⟩ := head_encodeBytes_lt ((length_le_length_encodeBytes v).trans_lt hb)
    rw [hc, hd] at h
    rw [← (List.cons.inj h).1] at hlt
    omega
  | .list as, .list bs, x, y, ha, hb, h => by
    simp only [encode] at ha hb h
    have has := (length_lt_length_wrap 192 _).trans ha
    have hbs := (length_lt_length_wrap 192 _).trans hb
    obtain ⟨hp, hx⟩ := wrap_append_inj le_rfl has hbs h
    exact ⟨congrArg Item.list (encodeAll_inj as bs has hbs hp), hx⟩

theorem encodeAll_inj : ∀ (as bs : List Item), (encodeAll as).length < 2 ^ 64 →
    (encodeAll bs).length < 2 ^ 64 → encodeAll as = encodeAll bs → as = bs
  | [], [], _, _, _ => rfl
  | [], b :: bs, _, _, h => by
    rw [encodeAll, encodeAll] at h
    exact (encode_ne_nil b (List.append_eq_nil_iff.mp h.symm).1).elim
  | a :: as, [], _, _, h => by
    rw [encodeAll, encodeAll] at h
    exact (encode_ne_nil a (List.append_eq_nil_iff.mp h).1).elim
  | a :: as, b :: bs, ha, hb, h => by
    rw [encodeAll, List.length_append] at ha hb
    rw [encodeAll, encodeAll] at h
    obtain ⟨rfl, hr⟩ := encode_append_inj a b _ _ (by omega) (by omega) h
    rw [encodeAll_inj as bs (by omega) (by omega) hr]

end

theorem encode_inj {a b : Item} (ha : (encode a).length < 2 ^ 64) (hb : (encode b).length < 2 ^ 64)
    (h : encode a = encode b) : a = b :=
  (encode_append_inj a b [] [] ha hb (by simpa using h)).1

end Rlp

end ExecutionLayer
