import ExecutionLayer.Proofs.Rlp.Typed
import ExecutionLayer.Proofs.Trie.Node
import Mathlib.Data.Set.List

/-! # Fields of records

The fields of records are numbers of any size, words, strings of a fixed length, and sequences of
these. A value is of one of these types if and only if it comes from a number, a word or a bit
vector.
-/
namespace ExecutionLayer
variable {w : Nat} {α : Type} {s : Schema} {name : String} {fields : List (String × Schema)}
  {values : List (String × Value)} {v : Value}

theorem Bytes.toNat_eq_value (b : Bytes) : b.toNat = BigEndian.value b.toList := by
  rw [Bytes.toNat, Bytes.toList, BigEndian.value, Array.foldl_toList]

theorem Bytes.ext_toNat {a b : Bytes} (hsize : a.size = b.size) (h : a.toNat = b.toNat) : a = b := by
  have hlength : a.toList.length = b.toList.length := hsize
  rw [toNat_eq_value, toNat_eq_value] at h
  apply Bytes.ext_toList
  rw [← BigEndian.digits_value a.toList, ← BigEndian.digits_value b.toList, hlength, h]

theorem ofNat_fixedBytes (hw : w = 8 * (w / 8)) (x : BitVec w) :
    BitVec.ofNat w (fixedBytes x).toNat = x := by
  have hlt : x.toNat < 256 ^ (w / 8) := by
    rw [pow_eq_two_pow, ← hw]
    exact x.isLt
  rw [Bytes.toNat_eq_value, toList_fixedBytes, BigEndian.value_digits, Nat.mod_eq_of_lt hlt,
    BitVec.ofNat_toNat, BitVec.setWidth_eq]

theorem fixedBytes_ofNat (hw : w = 8 * (w / 8)) {b : Bytes} (hb : b.size = w / 8) :
    fixedBytes (BitVec.ofNat w b.toNat) = b := by
  have hsize : b.toList.length = w / 8 := hb
  have hlt : b.toNat < 2 ^ w := by
    have hvalue := BigEndian.value_lt b.toList
    rwa [← Bytes.toNat_eq_value, hsize, pow_eq_two_pow, ← hw] at hvalue
  apply Bytes.ext_toList
  rw [toList_fixedBytes, BitVec.toNat_ofNat, Nat.mod_eq_of_lt hlt, Bytes.toNat_eq_value, ← hsize,
    BigEndian.digits_value]

theorem mapM_map_eq_some {α β : Type} {f : β → Option α} {g : α → β} {l : List α}
    (h : ∀ a ∈ l, f (g a) = some a) : (l.map g).mapM f = some l := by
  induction l with
  | nil => rfl
  | cons a l ih =>
    rw [List.map_cons, List.mapM_cons, h a List.mem_cons_self,
      ih fun b hb => h b (List.mem_cons_of_mem a hb)]
    rfl

namespace Rlp

namespace Value

theorem toItems?_map {value : α → Value} {item : α → Item}
    (h : ∀ a, (value a).toItem? = some (item a)) (l : List α) :
    toItems? (l.map value) = some (l.map item) := by
  induction l with
  | nil => rfl
  | cons a l ih =>
    rw [List.map_cons, toItems?, h, ih]
    rfl

theorem fieldItems?_append {as bs : List (String × Value)} {items more : List Item}
    (ha : fieldItems? as = some items) (hb : fieldItems? bs = some more) :
    fieldItems? (as ++ bs) = some (items ++ more) := by
  induction as generalizing items with
  | nil =>
    rw [fieldItems?] at ha
    obtain rfl := Option.some.inj ha
    exact hb
  | cons a as ih =>
    rw [fieldItems?] at ha
    obtain ⟨item, hitem, ha⟩ := Option.bind_eq_some_iff.mp ha
    obtain ⟨rest, hrest, ha⟩ := Option.bind_eq_some_iff.mp ha
    obtain rfl := Option.some.inj ha
    rw [List.cons_append, fieldItems?, hitem, ih hrest]
    rfl

end Value

namespace Schema

@[simp] theorem admits_number (n : Nat) : natural.admits (.number n) = true := rfl

@[simp] theorem admits_bytes (b : Bytes) : Schema.bytes.admits (.bytes b) = true := rfl

@[simp] theorem admits_word (x : BitVec w) : (fixedWidth w).admits (.word x) = true := by
  refine decide_eq_true (x.isLt.trans_le ?_)
  rw [pow_eq_two_pow]
  exact Nat.pow_le_pow_right (by decide) (by omega)

@[simp] theorem admits_fixed {w size : Nat} (h : w / 8 = size) (x : BitVec w) :
    (Schema.fixedBytes size).admits (.fixed x) = true := by
  refine decide_eq_true ?_
  change (ExecutionLayer.fixedBytes x).toList.length = size
  rw [toList_fixedBytes, BigEndian.length_digits, h]

@[simp] theorem admits_many {vs : List Value} :
    (many s).admits (.seq vs) = true ↔ ∀ v ∈ vs, s.admits v = true := by
  rw [many, admits, ← admitsRepeating_singleton]
  rfl

theorem admits_many_map {value : α → Value} {l : List α}
    (h : ∀ a ∈ l, s.admits (value a) = true) : (many s).admits (.seq (l.map value)) = true :=
  admits_many.mpr (List.forall_mem_map.mpr h)

@[simp] theorem admits_record :
    (record name fields).admits (.record name values) = admitsFields fields values := by
  simp [admits]

@[simp] theorem admitsFields_nil : admitsFields [] [] = true := rfl

@[simp] theorem admitsFields_cons : admitsFields ((name, s) :: fields) ((name, v) :: values) =
      (s.admits v && admitsFields fields values) := by
  simp [admitsFields]

theorem admitsFields_append {fields more : List (String × Schema)}
    {values others : List (String × Value)} (h : admitsFields fields values = true)
    (hmore : admitsFields more others = true) :
    admitsFields (fields ++ more) (values ++ others) = true := by
  induction fields generalizing values with
  | nil =>
    cases values with
    | nil => exact hmore
    | cons => cases h
  | cons field fields ih =>
    cases values with
    | nil => cases h
    | cons value values =>
      rw [admitsFields, Bool.and_eq_true] at h
      rw [List.cons_append, List.cons_append, admitsFields, h.1, ih h.2, Bool.and_true]

theorem of_admits_natural (h : natural.admits v = true) : ∃ n, v = .number n := by
  cases v with
  | number n => exact ⟨n, rfl⟩
  | _ => cases h

theorem of_admits_bytes (h : Schema.bytes.admits v = true) : ∃ b, v = .bytes b := by
  cases v with
  | bytes b => exact ⟨b, rfl⟩
  | _ => cases h

theorem of_admits_fixedWidth (hw : w = 8 * (w / 8))
    (h : (fixedWidth w).admits v = true) : ∃ x : BitVec w, v = .word x := by
  cases v with
  | number n =>
    have hlt : n < 2 ^ w := by
      have hadmits : n < 256 ^ ((w + 7) / 8) := of_decide_eq_true h
      rwa [pow_eq_two_pow, show 8 * ((w + 7) / 8) = w by omega] at hadmits
    refine ⟨BitVec.ofNat w n, ?_⟩
    rw [Value.word, BitVec.toNat_ofNat, Nat.mod_eq_of_lt hlt]
  | _ => cases h

theorem of_admits_fixedBytes (hw : w = 8 * (w / 8))
    (h : (Schema.fixedBytes (w / 8)).admits v = true) : ∃ x : BitVec w, v = .fixed x := by
  cases v with
  | bytes b =>
    refine ⟨BitVec.ofNat w b.toNat, ?_⟩
    rw [Value.fixed, fixedBytes_ofNat hw (of_decide_eq_true h)]
  | _ => cases h

theorem of_admits_many {value : α → Value} (hs : ∀ v, s.admits v = true → ∃ a, v = value a)
    (h : (many s).admits v = true) : ∃ l : List α, v = .seq (l.map value) := by
  cases v with
  | seq vs =>
    rw [admits_many] at h
    have hrange : vs ∈ Set.range (List.map value) := by
      rw [Set.range_list_map]
      intro u hu
      obtain ⟨a, rfl⟩ := hs u (h u hu)
      exact ⟨a, rfl⟩
    obtain ⟨l, rfl⟩ := hrange
    exact ⟨l, rfl⟩
  | _ => cases h

theorem of_admits_record (h : (record name fields).admits v = true) :
    ∃ values, v = .record name values ∧ admitsFields fields values = true := by
  cases v with
  | record name' values =>
    rw [admits, Bool.and_eq_true] at h
    obtain rfl := of_decide_eq_true h.1
    exact ⟨values, rfl, h.2⟩
  | _ => cases h

/-- The values that these fields admit are the fields of some `x`. -/
def Spans (fields : List (String × Schema)) (f : α → List (String × Value)) : Prop :=
  ∀ values, admitsFields fields values = true → ∃ x, values = f x

theorem Spans.nil : Spans [] fun _ : Unit => [] := by
  intro values h
  cases values with
  | nil => exact ⟨(), rfl⟩
  | cons => cases h

theorem Spans.cons {β : Type} {value : α → Value} {f : β → List (String × Value)}
    (hs : ∀ {v}, s.admits v = true → ∃ a, v = value a) (hf : Spans fields f) :
    Spans ((name, s) :: fields) fun p : α × β => (name, value p.1) :: f p.2 := by
  intro values h
  cases values with
  | nil => cases h
  | cons field rest =>
    rw [admitsFields, Bool.and_eq_true, Bool.and_eq_true] at h
    obtain rfl := of_decide_eq_true h.1.1
    obtain ⟨a, ha⟩ := hs h.1.2
    obtain ⟨b, rfl⟩ := hf rest h.2
    exact ⟨(a, b), congrArg (fun v => (field.1, v) :: f b) ha⟩

end Schema

end Rlp

end ExecutionLayer
