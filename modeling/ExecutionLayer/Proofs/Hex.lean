import ExecutionLayer.Proofs.Sequence
import Mathlib.Data.List.Forall2
import Mathlib.Data.List.TakeWhile
import Mathlib.Data.Nat.Digits.Defs
import Mathlib.Tactic.IntervalCases
import Mathlib.Tactic.Ring

/-! # Text that writes numbers

Digits write a number, the highest one first. What reads text gives back the number that is written,
or the bytes that make it up: zeros in front change nothing, and none of the other characters that may
stand in a text is a digit.
-/
namespace ExecutionLayer

namespace Text

/-- The characters are digits of a base and write the number. -/
def Writes (base : Nat) (cs : List Char) (n : Nat) : Prop :=
  ∃ ds, cs.Forall₂ (fun c d => hexValue? c = some d ∧ d < base) ds ∧ Nat.ofDigits base ds.reverse = n

section Digits
variable {base n : Nat} {cs : List Char}

theorem ofDigits_reverse_cons (base d : Nat) (ds : List Nat) :
    Nat.ofDigits base (d :: ds).reverse = d * base ^ ds.length + Nat.ofDigits base ds.reverse := by
  rw [List.reverse_cons, Nat.ofDigits_append, Nat.ofDigits_singleton, List.length_reverse]
  ring

structure IsPlainDigit (c : Char) : Prop where
  plain : plain c = c
  blank : isAsciiBlank c = false
  sign : c ≠ '-' ∧ c ≠ '+'
  gap : c ≠ '_'
  mark : c ≠ 'x' ∧ c ≠ 'X'

theorem isPlainDigit_of_hexValue? {c : Char} {d : Nat} (h : hexValue? c = some d) :
    IsPlainDigit c := by
  have hrange : 48 ≤ c.toNat ∧ c.toNat ≤ 57 ∨ 97 ≤ c.toNat ∧ c.toNat ≤ 102 ∨
      65 ≤ c.toNat ∧ c.toNat ≤ 70 := by
    unfold hexValue? at h
    simp only [Bool.and_eq_true, decide_eq_true_eq, Char.le_def, UInt32.le_iff_toNat_le] at h
    split_ifs at h with h₁ h₂ h₃
    · exact Or.inl h₁
    · exact Or.inr (Or.inl h₂)
    · exact Or.inr (Or.inr h₃)
  have hc : c = Char.ofNat c.toNat := (Char.ofNat_toNat c).symm
  rw [hc]
  generalize c.toNat = k at hrange
  rcases hrange with ⟨h₁, h₂⟩ | ⟨h₁, h₂⟩ | ⟨h₁, h₂⟩ <;> interval_cases k <;>
    exact ⟨by decide, by decide, by decide, by decide, by decide⟩

theorem Writes.isPlainDigit (h : Writes base cs n) : ∀ c ∈ cs, IsPlainDigit c := by
  obtain ⟨ds, hds, -⟩ := h
  intro c hc
  obtain ⟨i, hi, rfl⟩ := List.getElem_of_mem hc
  exact isPlainDigit_of_hexValue? (hds.get hi (hds.length_eq ▸ hi)).1

theorem Writes.padZeros (h : Writes base cs n) (hbase : 0 < base) (width : Nat) :
    Writes base (padZeros cs width) n := by
  unfold Text.padZeros
  induction width - cs.length with
  | zero => exact h
  | succ k ih =>
    obtain ⟨ds, hds, hn⟩ := ih
    refine ⟨0 :: ds, .cons ⟨by decide, hbase⟩ hds, ?_⟩
    rw [ofDigits_reverse_cons, Nat.zero_mul, Nat.zero_add, hn]

theorem digits?_eq {ds : List Nat}
    (hds : cs.Forall₂ (fun c d => hexValue? c = some d ∧ d < base) ds) (acc : Nat) :
    digits? base false acc cs =
      some (acc * base ^ ds.length + Nat.ofDigits base ds.reverse) := by
  induction hds generalizing acc with
  | nil => simp [digits?]
  | @cons c d cs ds hc hds ih =>
    rw [digits?, if_neg (isPlainDigit_of_hexValue? hc.1).gap, digitValue?, hc.1,
      Option.filter_some_pos (by simpa using hc.2)]
    change digits? base false (acc * base + d) cs = _
    rw [ih, ofDigits_reverse_cons, List.length_cons]
    congr 1
    ring

theorem trim_eq (h : ∀ c ∈ cs, isAsciiBlank c = false) : trim cs = cs := by
  have hdrop {l : List Char} (hl : ∀ c ∈ l, isAsciiBlank c = false) : l.dropWhile isAsciiBlank = l :=
    List.dropWhile_eq_self_iff.mpr fun hpos => by simp [hl _ (List.getElem_mem hpos)]
  rw [trim, hdrop h, hdrop fun c hc => h c (List.mem_reverse.mp hc), List.reverse_reverse]

theorem dropBaseMark_eq (h : ∀ c ∈ cs, IsPlainDigit c) : dropBaseMark base cs = cs := by
  unfold dropBaseMark
  split
  · next x rest =>
    have hx := (h x (by simp)).mark
    rw [if_neg (by simp [hx.1, hx.2])]
  · rfl

theorem Writes.integer? {s : String} (h : Writes base s.toList n) (hne : s.toList ≠ [])
    (hmax : base = 10 → s.toList.length ≤ maxDecimals) : integer? base s = some (n : Int) := by
  have hplain := h.isPlainDigit
  obtain ⟨ds, hds, rfl⟩ := h
  have hmap : s.toList.map plain = s.toList :=
    (List.map_congr_left fun c hc => (hplain c hc).plain).trans (List.map_id _)
  rw [Text.integer?, hmap, trim_eq fun c hc => (hplain c hc).blank]
  split
  · next heq => exact absurd rfl (hplain '-' (by simp [heq])).sign.1
  · next heq => exact absurd rfl (hplain '+' (by simp [heq])).sign.2
  rw [unsigned?, dropBaseMark_eq hplain]
  split
  · contradiction
  · next heq => exact absurd rfl (hplain '_' (by simp [heq])).gap
  · have hfew : ¬(base = 10 && maxDecimals < s.toList.countP (· ≠ '_')) = true := by
      simp only [Bool.and_eq_true, decide_eq_true_eq, not_and, Nat.not_lt]
      exact fun hbase => List.countP_le_length.trans (hmax hbase)
    rw [if_neg hfew, digits?_eq hds, Nat.zero_mul, Nat.zero_add]
    rfl

end Digits

end Text

namespace Hex
open Text (Writes)

/-- The text is of hexadecimal digits, with or without the mark, and writes the number. -/
def Spells (s : String) (cs : List Char) (n : Nat) : Prop :=
  (s.toList = cs ∨ s.toList = '0' :: 'x' :: cs) ∧ Writes 16 cs n

section Spelled
variable {s : String} {cs : List Char} {n : Nat}

theorem hasMark_iff : hasMark s = true ↔ ['0', 'x'] <+: s.toList := String.startsWith_string_iff

theorem Spells.dropMark_eq (h : Spells s cs n) : dropMark s = cs := by
  unfold dropMark
  rcases h.1 with hs | hs
  · rw [if_neg, hs]
    intro hmark
    obtain ⟨rest, hrest⟩ := hasMark_iff.mp hmark
    exact (h.2.isPlainDigit 'x' (by simp [← hs, ← hrest])).mark.1 rfl
  · rw [if_pos (hasMark_iff.mpr ⟨cs, hs.symm⟩), hs]
    rfl

theorem toNat_push (b : Bytes) (x : UInt8) : Bytes.toNat (b.push x) = b.toNat * 256 + x.toNat := by
  rw [Bytes.toNat, ByteArray.data_push, Array.foldl_push]
  rfl

theorem pairs?_eq {ds : List Nat}
    (hds : cs.Forall₂ (fun c d => Text.hexValue? c = some d ∧ d < 16) ds) (k : Nat)
    (hk : cs.length = 2 * k) (acc : Bytes) : ∃ b, pairs? acc cs = some b ∧ b.size = acc.size + k ∧
      b.toNat = acc.toNat * 256 ^ k + Nat.ofDigits 16 ds.reverse := by
  induction k generalizing acc cs ds with
  | zero =>
    obtain rfl := List.eq_nil_of_length_eq_zero hk
    cases hds
    exact ⟨acc, rfl, rfl, by simp⟩
  | succ k ih =>
    obtain _ | @⟨c, d, cs, ds, hc, hds⟩ := hds
    · cases hk
    obtain _ | @⟨c', d', cs, ds, hc', hds⟩ := hds
    · simp at hk; omega
    obtain ⟨b, hb, hsize, hvalue⟩ := ih hds (by simp at hk; omega) (acc.push (d * 16 + d').toUInt8)
    refine ⟨b, ?_, ?_, ?_⟩
    · rw [pairs?, if_neg (by simp [(Text.isPlainDigit_of_hexValue? hc.1).blank])]
      simp only [hc.1, hc'.1]
      exact hb
    · rw [hsize, ByteArray.size_push]
      omega
    · have hbyte : (d * 16 + d').toUInt8.toNat = d * 16 + d' :=
        Nat.mod_eq_of_lt (by have := hc.2; have := hc'.2; omega)
      have hpow : (16 : Nat) ^ ds.length = 256 ^ k := by
        have hlength : ds.length = 2 * k := by
          have := hds.length_eq
          simp at hk
          omega
        rw [hlength, Nat.pow_mul]
      rw [hvalue, toNat_push, hbyte, Text.ofDigits_reverse_cons, Text.ofDigits_reverse_cons,
        List.length_cons, Nat.pow_succ, Nat.pow_succ, hpow]
      ring

theorem decode_eq (h : Writes 16 cs n) {k : Nat} (hk : cs.length = 2 * k) :
    ∃ b, decode cs = .ok b ∧ b.size = k ∧ b.toNat = n := by
  obtain ⟨ds, hds, rfl⟩ := h
  obtain ⟨b, hb, hsize, hvalue⟩ := pairs?_eq hds k hk ByteArray.empty
  refine ⟨b, by rw [decode, hb], hsize.trans (Nat.zero_add k), ?_⟩
  rw [hvalue]
  exact (congrArg (· + _) (Nat.zero_mul _)).trans (Nat.zero_add _)

theorem pairs?_of_odd {ds : List Nat}
    (hds : cs.Forall₂ (fun c d => Text.hexValue? c = some d ∧ d < 16) ds) (k : Nat)
    (hk : cs.length = 2 * k + 1) (acc : Bytes) : pairs? acc cs = none := by
  induction k generalizing acc cs ds with
  | zero =>
    obtain ⟨c, rfl⟩ := List.length_eq_one_iff.mp hk
    obtain _ | @⟨_, d, _, ds, hc, -⟩ := hds
    rw [pairs?, if_neg (by simp [(Text.isPlainDigit_of_hexValue? hc.1).blank])]
  | succ k ih =>
    obtain _ | @⟨c, d, cs, ds, hc, hds⟩ := hds
    · cases hk
    obtain _ | @⟨c', d', cs, ds, hc', hds⟩ := hds
    · simp at hk
    rw [pairs?, if_neg (by simp [(Text.isPlainDigit_of_hexValue? hc.1).blank])]
    simp only [hc.1, hc'.1]
    exact ih hds (by simp at hk; omega) _

variable {digits k : Nat}

theorem length_padZeros (cs : List Char) (width : Nat) :
    (Text.padZeros cs width).length = max width cs.length := by
  rw [Text.padZeros, List.length_append, List.length_replicate]
  omega

theorem Spells.decode_padZeros (h : Spells s cs n) (hk : max digits cs.length = 2 * k) :
    ∃ b, decode (Text.padZeros (dropMark s) digits) = .ok b ∧ b.size = k ∧ b.toNat = n := by
  rw [h.dropMark_eq]
  exact decode_eq (h.2.padZeros (by decide) _) ((length_padZeros cs digits).trans hk)

theorem Spells.toSized (h : Spells s cs n) (size digits : Nat) (hk : max digits cs.length = 2 * k) :
    ∃ b, b.size = k ∧ b.toNat = n ∧
      toSized size digits s = if k = size then .ok b else .error (.wrongSize size k) := by
  obtain ⟨b, hb, hsize, hvalue⟩ := h.decode_padZeros hk
  refine ⟨b, hsize, hvalue, ?_⟩
  rw [Hex.toSized, except_of_ok hb, hsize]
  rfl

theorem Spells.toSized_of_odd (h : Spells s cs n) (size : Nat)
    (hk : max digits cs.length = 2 * k + 1) : Hex.toSized size digits s = .error .invalidValue := by
  obtain ⟨ds, hds, -⟩ := h.2.padZeros (by decide) digits
  have hodd := pairs?_of_odd hds k ((length_padZeros cs digits).trans hk) ByteArray.empty
  have hb : decode (Text.padZeros (dropMark s) digits) = .error .invalidValue := by
    rw [h.dropMark_eq, decode, hodd]
  rw [Hex.toSized, except_of_error hb]

theorem Spells.toSized_filled (h : Spells s cs n) (hk : cs.length ≤ 2 * k) :
    ∃ b, Hex.toSized k (2 * k) s = .ok b ∧ b.size = k ∧ b.toNat = n := by
  obtain ⟨b, hsize, hvalue, hb⟩ := h.toSized k (2 * k) (Nat.max_eq_left hk)
  exact ⟨b, hb.trans (if_pos rfl), hsize, hvalue⟩

/-- Digits that are too few for 8, 32 or 256 bytes give the bytes of the number that they write. For
20 bytes zeros are put in front up to 20 digits only, half of what is needed, so that all 40 digits
must be there. Fewer are refused, as they do not pair up or give too few bytes. -/
theorem text_fills_widths (h : Spells s cs n) :
    (cs.length ≤ 16 → ∃ b, toBytes8 s = .ok b ∧ b.size = 8 ∧ b.toNat = n) ∧
    (cs.length ≤ 64 → ∃ b, toBytes32 s = .ok b ∧ b.size = 32 ∧ b.toNat = n) ∧
    (cs.length ≤ 512 → ∃ b, toBytes256 s = .ok b ∧ b.size = 256 ∧ b.toNat = n) ∧
    (cs.length = 40 → ∃ b, toBytes20 s = .ok b ∧ b.size = 20 ∧ b.toNat = n) ∧
    (cs.length < 40 → toBytes20 s = .error (
      if 20 < cs.length ∧ cs.length % 2 = 1 then .invalidValue
      else .wrongSize 20 (max 20 cs.length / 2))) := by
  refine ⟨h.toSized_filled (k := 8), h.toSized_filled (k := 32), h.toSized_filled (k := 256),
    fun hk => ?_, fun hk => ?_⟩
  · obtain ⟨b, hsize, hvalue, hb⟩ := h.toSized (k := 20) 20 20 (by omega)
    exact ⟨b, hb.trans (if_pos rfl), hsize, hvalue⟩
  · split
    · exact h.toSized_of_odd (k := cs.length / 2) 20 (by omega)
    · obtain ⟨b, -, -, hb⟩ := h.toSized (k := max 20 cs.length / 2) 20 20 (by omega)
      exact hb.trans (if_neg (by omega))

/-- An odd number of digits behind the mark. -/
theorem text_fills_widths_odd : Spells "0xabc" ['a', 'b', 'c'] 2748 ∧
    (∃ b, toBytes8 "0xabc" = .ok b ∧ b.size = 8 ∧ b.toNat = 2748) ∧
    toBytes20 "0xabc" = .error (.wrongSize 20 10) := by
  have hspells : Spells "0xabc" ['a', 'b', 'c'] 2748 := by
    refine ⟨Or.inr rfl, [10, 11, 12], ?_, by decide⟩
    exact .cons (by decide) (.cons (by decide) (.cons (by decide) .nil))
  obtain ⟨h8, -, -, -, h20⟩ := text_fills_widths hspells
  exact ⟨hspells, h8 (by decide), h20 (by decide)⟩

/-- One digit does not give twenty bytes. -/
theorem digit_refused_for_twenty :
    Spells "1" ['1'] 1 ∧ toBytes20 "1" = .error (.wrongSize 20 10) := by
  have hspells : Spells "1" ['1'] 1 := ⟨Or.inl rfl, [1], .cons (by decide) .nil, by decide⟩
  obtain ⟨b, -, -, hb⟩ := hspells.toSized (k := 10) 20 20 (by decide)
  exact ⟨hspells, hb.trans (if_neg (by decide))⟩

theorem Spells.toAddress {a : Address} (h : Spells s cs a.toNat) (hlength : cs.length ≤ 40) :
    toAddress s = .ok a := by
  obtain ⟨b, hb, hsize, hvalue⟩ := h.decode_padZeros (k := 20) (Nat.max_eq_left hlength)
  rw [Hex.toAddress, except_of_ok hb, ofFixedBytes, if_pos hsize, hvalue, BitVec.ofNat_toNat,
    BitVec.setWidth_eq]

theorem Spells.toInteger (h : Spells s cs n) (hne : cs ≠ []) {kind : Integer.Kind}
    (hkind : kind.admits n = true) : toInteger kind s = .ok n := by
  have hread : Text.integer? 16 (String.ofList (dropMark s)) = some (n : Int) := by
    rw [h.dropMark_eq]
    refine Text.Writes.integer? ?_ ?_ nofun
    · rw [String.toList_ofList]
      exact h.2
    · rwa [String.toList_ofList]
  rw [Hex.toInteger, hread]
  exact if_pos hkind

end Spelled

end Hex

end ExecutionLayer
