import ExecutionLayer.Proofs.Rlp.Prefix
import ExecutionLayer.Proofs.Trie.Path
import ExecutionLayer.Trie.Build

/-! # References determine nodes

Leaves, extensions and branches have different items, and a node that stands in its parent is never
taken for a hash. So a reference determines the node that it refers to, unless two strings that are
hashed for references have the same hash.
-/
namespace ExecutionLayer

theorem toList_fixedBytes {w : Nat} (x : BitVec w) :
    (fixedBytes x).toList = BigEndian.digits (w / 8) x.toNat := by
  simp [fixedBytes, Bytes.ofNat, BigEndian.digitsOnto_eq]

theorem Bytes.ext_toList {a b : Bytes} (h : a.toList = b.toList) : a = b := by
  rw [← Bytes.ofList_toList a, h, Bytes.ofList_toList]

theorem fixedBytes_inj {w : Nat} (hw : w = 8 * (w / 8)) {x y : BitVec w}
    (h : (fixedBytes x).toList = (fixedBytes y).toList) : x = y := by
  rw [toList_fixedBytes, toList_fixedBytes] at h
  have hp : (256 : Nat) ^ (w / 8) = 2 ^ w := by
    rw [show (256 : Nat) = 2 ^ 8 by norm_num, ← pow_mul, ← hw]
  refine BitVec.eq_of_toNat_eq (BigEndian.digits_inj ?_ ?_ h)
  · rw [hp]; exact x.isLt
  · rw [hp]; exact y.isLt

theorem Rlp.Item.ofFixed_inj {x y : Hash} (h : Rlp.Item.ofFixed x = Rlp.Item.ofFixed y) : x = y :=
  fixedBytes_inj rfl (Rlp.Item.bytes.inj h)

def Collides (hash : Bytes → Hash) (strings : List Bytes) : Prop :=
  ∃ x ∈ strings, ∃ y ∈ strings, x ≠ y ∧ hash x = hash y

theorem eq_of_not_collides {hash : Bytes → Hash} {strings : List Bytes}
    (h : ¬ Collides hash strings) {x y : Bytes} (hx : x ∈ strings) (hy : y ∈ strings)
    (he : hash x = hash y) : x = y := by
  by_contra hne
  exact h ⟨x, hx, y, hy, hne, he⟩

theorem Collides.mono {hash : Bytes → Hash} {s t : List Bytes} (hst : s ⊆ t)
    (h : Collides hash s) : Collides hash t := by
  obtain ⟨x, hx, y, hy, hne, he⟩ := h
  exact ⟨x, hst hx, y, hst hy, hne, he⟩

namespace Trie.Node

/-- The parts of a node are such that its encoding is not too long and can be taken apart. -/
def Readable : Option Node → Prop
  | none => True
  | some (leaf rest value) => IsPath rest ∧ rest.length < 2 ^ 61 ∧ value.length < 2 ^ 60
  | some (extension segment subnode) =>
    IsPath segment ∧ segment.length < 2 ^ 61 ∧ (Rlp.encode subnode).length ≤ 41
  | some (branch subnodes value) =>
    subnodes.length = 16 ∧ (∀ s ∈ subnodes, (Rlp.encode s).length ≤ 41) ∧ value.length < 2 ^ 60

theorem length_encodeAll_append (as bs : List Rlp.Item) :
    (Rlp.encodeAll (as ++ bs)).length = (Rlp.encodeAll as).length + (Rlp.encodeAll bs).length := by
  induction as with
  | nil => simp [Rlp.encodeAll]
  | cons a as ih =>
    simp only [List.cons_append, Rlp.encodeAll, List.length_append, ih]
    omega

theorem length_encodeAll_le {items : List Rlp.Item} {bound : Nat}
    (h : ∀ i ∈ items, (Rlp.encode i).length ≤ bound) :
    (Rlp.encodeAll items).length ≤ items.length * bound := by
  induction items with
  | nil => simp [Rlp.encodeAll]
  | cons a as ih =>
    have ha := h a (List.mem_cons_self ..)
    have has := ih fun i hi => h i (List.mem_cons_of_mem a hi)
    simp only [Rlp.encodeAll, List.length_append, List.length_cons, Nat.succ_mul]
    omega

theorem length_encode_list_lt {items : List Rlp.Item} (h : (Rlp.encodeAll items).length < 2 ^ 63) :
    (Rlp.encode (.list items)).length < 2 ^ 64 := by
  have hh := Rlp.length_header_le 192 (show (Rlp.encodeAll items).length < 2 ^ 64 by omega)
  rw [Rlp.encode, Rlp.wrap, List.length_append]
  omega

theorem length_encode_bytes_le {u : List UInt8} (h : u.length ≤ 2 ^ 60) :
    (Rlp.encode (.bytes u)).length ≤ u.length + 9 := by
  rw [Rlp.encode]
  exact Rlp.length_encodeBytes_le (by omega)

theorem length_encode_item_lt {node : Option Node} (h : Readable node) :
    (Rlp.encode (item node)).length < 2 ^ 64 := by
  match node with
  | none => decide
  | some (leaf rest value) =>
    obtain ⟨_, hr, hv⟩ := h
    have hc := length_compact_le rest true
    have hk := length_encode_bytes_le (u := compact rest true) (by omega)
    have hw := length_encode_bytes_le hv.le
    refine length_encode_list_lt ?_
    simp only [Rlp.encodeAll, List.length_append, List.length_nil]
    omega
  | some (extension segment subnode) =>
    obtain ⟨_, hr, hs⟩ := h
    have hc := length_compact_le segment false
    have hk := length_encode_bytes_le (u := compact segment false) (by omega)
    refine length_encode_list_lt ?_
    simp only [Rlp.encodeAll, List.length_append, List.length_nil]
    omega
  | some (branch subnodes value) =>
    obtain ⟨hl, hs, hv⟩ := h
    have hb := length_encodeAll_le hs
    have hw := length_encode_bytes_le hv.le
    refine length_encode_list_lt ?_
    rw [length_encodeAll_append, Rlp.encodeAll, Rlp.encodeAll, List.length_append, List.length_nil]
    omega

/-- The item of a node determines it: a branch has seventeen parts and the others two, of which the
first tells leaves from extensions. -/
theorem item_inj {m n : Option Node} (hm : Readable m) (hn : Readable n)
    (h : item m = item n) : m = n := by
  match m, n with
  | none, none => rfl
  | none, some (leaf _ _) | none, some (extension _ _) | none, some (branch _ _)
  | some (leaf _ _), none | some (extension _ _), none | some (branch _ _), none => cases h
  | some (leaf p u), some (leaf q v) =>
    simp only [item, Rlp.Item.list.injEq, List.cons.injEq, Rlp.Item.bytes.injEq, and_true] at h
    obtain ⟨rfl, _⟩ := compact_inj hm.1 hn.1 h.1
    rw [h.2]
  | some (leaf _ _), some (extension _ _) | some (extension _ _), some (leaf _ _) =>
    simp only [item, Rlp.Item.list.injEq, List.cons.injEq, Rlp.Item.bytes.injEq] at h
    exact absurd (compact_inj hm.1 hn.1 h.1).2 (by decide)
  | some (extension p r), some (extension q s) =>
    simp only [item, Rlp.Item.list.injEq, List.cons.injEq, Rlp.Item.bytes.injEq, and_true] at h
    obtain ⟨rfl, _⟩ := compact_inj hm.1 hn.1 h.1
    rw [h.2]
  | some (branch as u), some (branch bs v) =>
    have h := Rlp.Item.list.inj h
    obtain ⟨rfl, hv⟩ := List.append_inj h (hm.1.trans hn.1.symm)
    simp only [List.cons.injEq, Rlp.Item.bytes.injEq, and_true] at hv
    rw [hv]
  | some (leaf _ _), some (branch bs _) | some (extension _ _), some (branch bs _) =>
    have hl := congrArg List.length (Rlp.Item.list.inj h)
    simp [hn.1] at hl
  | some (branch as _), some (leaf _ _) | some (branch as _), some (extension _ _) =>
    have hl := congrArg List.length (Rlp.Item.list.inj h)
    simp [hm.1] at hl

def referenced (node : Option Node) : List Bytes :=
  let encoded := Rlp.encode (item node)
  if encoded.length < 32 then [] else [.ofList encoded]

theorem item_ne_ofFixed (node : Option Node) (h : Hash) : item node ≠ .ofFixed h := by
  intro he
  match node with
  | none =>
    have hl := congrArg List.length (Rlp.Item.bytes.inj he)
    rw [toList_fixedBytes, BigEndian.length_digits] at hl
    cases hl
  | some (leaf _ _) | some (extension _ _) | some (branch _ _) => cases he

theorem length_encode_ofFixed_le (x : Hash) : (Rlp.encode (.ofFixed x)).length ≤ 41 := by
  have hl : (fixedBytes x).toList.length = 32 := by
    rw [toList_fixedBytes, BigEndian.length_digits]
  have hb := length_encode_bytes_le (u := (fixedBytes x).toList) (by omega)
  rwa [hl] at hb

theorem length_encode_reference_le (hash : Bytes → Hash) (node : Option Node) :
    (Rlp.encode (reference hash node)).length ≤ 41 := by
  unfold reference
  by_cases h : (Rlp.encode (item node)).length < 32
  · simp only [h, ↓reduceIte]
    omega
  · simp only [h, ↓reduceIte]
    exact length_encode_ofFixed_le _

theorem reference_inj {hash : Bytes → Hash} {strings : List Bytes} (hc : ¬ Collides hash strings)
    {m n : Option Node} (hm : Readable m) (hn : Readable n) (hms : referenced m ⊆ strings)
    (hns : referenced n ⊆ strings) (h : reference hash m = reference hash n) : m = n := by
  refine item_inj hm hn ?_
  unfold reference at h
  unfold referenced at hms hns
  by_cases hml : (Rlp.encode (item m)).length < 32
  · by_cases hnl : (Rlp.encode (item n)).length < 32
    · simpa only [hml, hnl, ↓reduceIte] using h
    · simp only [hml, hnl, ↓reduceIte] at h
      exact (item_ne_ofFixed m _ h).elim
  · by_cases hnl : (Rlp.encode (item n)).length < 32
    · simp only [hml, hnl, ↓reduceIte] at h
      exact (item_ne_ofFixed n _ h.symm).elim
    · simp only [hml, hnl, ↓reduceIte] at h hms hns
      have he := eq_of_not_collides hc (hms (List.mem_singleton_self _))
        (hns (List.mem_singleton_self _)) (Rlp.Item.ofFixed_inj h)
      exact Rlp.encode_inj (length_encode_item_lt hm) (length_encode_item_lt hn)
        (congrArg Bytes.toList he)

end Trie.Node

end ExecutionLayer
