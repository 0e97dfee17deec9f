import ExecutionLayer.Proofs.Crypto.Keccak
import ExecutionLayer.Proofs.Sequence
import ExecutionLayer.Proofs.Trie.Order
import ExecutionLayer.Proofs.Trie.Root
import ExecutionLayer.Trie.Content

/-! # The root depends on the contents only

However a trie has come about, it keeps one entry for each key that does not have the default value.
So what it answers for all keys determines its entries up to their order, which makes no difference
to the nodes.
-/
namespace ExecutionLayer

instance : LawfulBEq Bytes where
  eq_of_beq {a b} h := by
    have hdata : (a.data == b.data) = true := h
    exact ByteArray.ext (eq_of_beq hdata)
  rfl {a} := beq_self_eq_true a.data

namespace Trie
variable {V : Type} {key : Bytes} {value : V} {entries : List (Bytes × V)} {t : Trie V}

section Entries

theorem mem_replace {e : Bytes × V}
    (h : e ∈ replace key value entries) : e = (key, value) ∨ e ∈ entries := by
  induction entries with
  | nil => exact Or.inl (List.mem_singleton.mp h)
  | cons first rest ih =>
    rw [replace] at h
    split at h
    · rcases List.mem_cons.mp h with h | h
      · exact Or.inl h
      · exact Or.inr (List.mem_cons_of_mem first h)
    · rcases List.mem_cons.mp h with rfl | h
      · exact Or.inr List.mem_cons_self
      · rcases ih h with h | h
        · exact Or.inl h
        · exact Or.inr (List.mem_cons_of_mem first h)

theorem nodup_replace
    (h : (entries.map Prod.fst).Nodup) : ((replace key value entries).map Prod.fst).Nodup := by
  induction entries with
  | nil => simp [replace]
  | cons first rest ih =>
    rw [List.map_cons, List.nodup_cons] at h
    rw [replace]
    split
    · next hkey =>
      rw [beq_iff_eq] at hkey
      rw [List.map_cons, List.nodup_cons, ← hkey]
      exact h
    · next hkey =>
      rw [beq_iff_eq] at hkey
      rw [List.map_cons, List.nodup_cons]
      refine ⟨fun hmem => ?_, ih h.2⟩
      obtain ⟨e, he, heq⟩ := List.mem_map.mp hmem
      rcases mem_replace he with rfl | he
      · exact hkey heq.symm
      · exact h.1 (List.mem_map.mpr ⟨e, he, heq⟩)

theorem find?_key_eq_some_iff (h : (entries.map Prod.fst).Nodup) {e : Bytes × V} :
    entries.find? (·.1 == key) = some e ↔ e ∈ entries ∧ e.1 = key := by
  constructor
  · intro hfind
    exact ⟨List.mem_of_find?_eq_some hfind, by simpa using List.find?_some hfind⟩
  · rintro ⟨he, rfl⟩
    cases hfind : entries.find? (·.1 == e.1) with
    | none => simpa using List.find?_eq_none.mp hfind e he
    | some f =>
      have hkey : f.1 = e.1 := by simpa using List.find?_some hfind
      rw [List.inj_on_of_nodup_map h (List.mem_of_find?_eq_some hfind) he hkey]

end Entries

section Setting
variable [BEq V]

def setAll (t : Trie V) (writes : List (Bytes × V)) : Trie V :=
  writes.foldl (fun t write => t.set write.1 write.2) t

/-- Every key has one entry at most, and none for the default value. -/
structure Kept (t : Trie V) : Prop where
  distinct : (t.entries.map Prod.fst).Nodup
  present : ∀ e ∈ t.entries, (e.2 == t.default) = false

@[simp] theorem default_set (t : Trie V) (key : Bytes) (value : V) :
    (t.set key value).default = t.default := by
  unfold set
  split <;> rfl

@[simp] theorem secured_set (t : Trie V) (key : Bytes) (value : V) :
    (t.set key value).secured = t.secured := by
  unfold set
  split <;> rfl

theorem Kept.set (h : Kept t) (key : Bytes) (value : V) : Kept (t.set key value) := by
  constructor
  · unfold Trie.set
    split
    · exact h.distinct.sublist (List.filter_sublist.map Prod.fst)
    · exact nodup_replace h.distinct
  · intro e he
    rw [default_set]
    unfold Trie.set at he
    split at he
    · exact h.present e (List.mem_of_mem_filter he)
    · next hvalue =>
      rcases mem_replace he with rfl | he
      · simpa using hvalue
      · exact h.present e he

theorem setAll_spec (h : Kept t) (writes : List (Bytes × V)) :
    Kept (t.setAll writes) ∧ (t.setAll writes).default = t.default ∧
      (t.setAll writes).secured = t.secured := by
  induction writes generalizing t with
  | nil => exact ⟨h, rfl, rfl⟩
  | cons write writes ih => simpa [setAll] using ih (h.set write.1 write.2)

theorem kept_empty (secured : Bool) (default : V) : Kept ⟨secured, default, []⟩ where
  distinct := List.nodup_nil
  present := by simp

theorem Kept.mem_entries_iff [ReflBEq V] (h : Kept t) :
    (key, value) ∈ t.entries ↔ t.get key = value ∧ (value == t.default) = false := by
  unfold get
  constructor
  · intro hmem
    rw [(find?_key_eq_some_iff h.distinct).mpr ⟨hmem, rfl⟩]
    exact ⟨rfl, h.present _ hmem⟩
  · rintro ⟨hget, hvalue⟩
    split at hget
    · next e hfind =>
      obtain ⟨he, hkey⟩ := (find?_key_eq_some_iff h.distinct).mp hfind
      rwa [← hget, ← hkey]
    · rw [← hget, BEq.rfl] at hvalue
      cases hvalue

theorem Kept.perm_of_get_eq [ReflBEq V] {a b : Trie V} (ha : Kept a) (hb : Kept b)
    (hdefault : a.default = b.default) (hget : ∀ key, a.get key = b.get key) :
    a.entries.Perm b.entries := by
  refine (List.perm_ext_iff_of_nodup (.of_map _ ha.distinct) (.of_map _ hb.distinct)).mpr ?_
  rintro ⟨key, value⟩
  rw [ha.mem_entries_iff, hb.mem_entries_iff, hget, hdefault]

end Setting

section Roots
variable {hash : Bytes → Hash} {encode : Bytes → V → Except Fault Bytes}

theorem encoded_of_foldlM {secured : Bool} {placed result : Suffixes} (h : entries.foldlM
      (fun placed entry => do
        let v ← encode entry.1 entry.2
        require (v.size ≠ 0) .brokenInvariant
        return place (path hash secured entry.1) v.toList placed) placed = .ok result) :
    ∀ e ∈ entries, ∃ b, encode e.1 e.2 = .ok b ∧ b.size ≠ 0 := by
  induction entries generalizing placed with
  | nil => simp
  | cons first rest ih =>
    rw [List.foldlM_cons] at h
    obtain ⟨placed', hfirst, hrest⟩ := of_except_ok h
    obtain ⟨b, hb, hplace⟩ := of_except_ok hfirst
    obtain ⟨_, hsize, -⟩ := of_except_ok hplace
    intro e he
    rcases List.mem_cons.mp he with rfl | he
    · refine ⟨b, hb, fun hzero => ?_⟩
      simp [require, hzero] at hsize
    · exact ih hrest e he

theorem nodup_entry_paths (hd : (t.entries.map Prod.fst).Nodup)
    (hc : t.secured = true → ¬ Collides hash (t.entries.map Prod.fst)) :
    ((t.entries.map Prod.fst).map (path hash t.secured)).Nodup := by
  by_cases hsec : t.secured = true
  · exact nodup_paths (hc hsec) hd fun _ => List.Subset.refl _
  · have hnone : ¬ Collides hash [] := by simp [Collides]
    exact nodup_paths hnone hd fun h => absurd h hsec

theorem prepare_eq_ok_iff (hd : (t.entries.map Prod.fst).Nodup)
    (hc : t.secured = true → ¬ Collides hash (t.entries.map Prod.fst)) {placed : Suffixes} :
    t.prepare hash encode = .ok placed ↔ ∃ value : Bytes × V → Bytes,
      (∀ e ∈ t.entries, encode e.1 e.2 = .ok (value e) ∧ (value e).size ≠ 0) ∧
      placed = t.entries.map fun e => (path hash t.secured e.1, (value e).toList) := by
  have hform {value : Bytes × V → Bytes}
      (hvalue : ∀ e ∈ t.entries, encode e.1 e.2 = .ok (value e) ∧ (value e).size ≠ 0) :
      t.prepare hash encode =
        .ok (t.entries.map fun e => (path hash t.secured e.1, (value e).toList)) := by
    rw [prepare, foldlM_place [] hvalue]
    have hplace := foldl_place (fun e => (path hash t.secured e.1, (value e).toList)) t.entries []
    rw [List.nil_append, map_fst_paths] at hplace
    rw [hplace (nodup_entry_paths hd hc)]
  constructor
  · intro h
    choose! value hvalue using encoded_of_foldlM h
    refine ⟨value, hvalue, ?_⟩
    rw [hform hvalue] at h
    exact (Except.ok.inj h).symm
  · rintro ⟨value, hvalue, rfl⟩
    exact hform hvalue

theorem root_eq_ok_iff {r : Hash} : t.root hash encode = .ok r ↔
      ∃ placed, t.prepare hash encode = .ok placed ∧ Node.root hash (build hash placed) = r := by
  unfold root node
  cases t.prepare hash encode with
  | ok placed => simp [bind, Except.bind, pure, Except.pure]
  | error e => simp [bind, Except.bind]

theorem root_of_grown {a b : Trie V} (hsec : a.secured = b.secured)
    (hd : (a.entries.map Prod.fst).Nodup)
    (hc : a.secured = true → ¬ Collides hash (a.entries.map Prod.fst))
    (h : a.entries.Perm b.entries) {placed : Suffixes} {node : Option Node}
    (hplaced : a.prepare hash encode = .ok placed) (hnode : Grown hash placed node) :
    b.root hash encode = .ok (Node.root hash node) := by
  have hkeys := h.map Prod.fst
  have hdb := hkeys.nodup_iff.mp hd
  have hcb : b.secured = true → ¬ Collides hash (b.entries.map Prod.fst) :=
    fun hb hcol => hc (hsec.trans hb) (hcol.mono hkeys.symm.subset)
  obtain ⟨value, hvalue, rfl⟩ := (prepare_eq_ok_iff hd hc).mp hplaced
  have hdistinct := nodup_entry_paths hd hc
  rw [← map_fst_paths hash a.secured fun e => (value e).toList] at hdistinct
  rw [hnode.eq_build_of_perm hdistinct (h.map _), root_eq_ok_iff]
  refine ⟨_, (prepare_eq_ok_iff hdb hcb).mpr ⟨value, ?_, rfl⟩, ?_⟩
  · exact fun e he => hvalue e (h.mem_iff.mpr he)
  · rw [hsec]

end Roots

/-- Two tries that have come about by setting values and that answer alike have the same root, if
they have one. It does not matter either which path the builder compares the others with. -/
theorem root_of_contents {V : Type} [BEq V] [ReflBEq V] (hash : Bytes → Hash)
    (encode : Bytes → V → Except Fault Bytes) (secured : Bool) (default : V)
    (xs ys : List (Bytes × V)) :
    let a : Trie V := setAll ⟨secured, default, []⟩ xs
    let b : Trie V := setAll ⟨secured, default, []⟩ ys
    (∀ key, a.get key = b.get key) →
    (secured = true → ¬ Collides hash (a.entries.map Prod.fst)) →
    (∀ r, a.root hash encode = .ok r ↔ b.root hash encode = .ok r) ∧
      ∀ placed node, a.prepare hash encode = .ok placed → Grown hash placed node →
        b.root hash encode = .ok (Node.root hash node) := by
  intro a b hget hc
  obtain ⟨ha, hda, hsa⟩ := setAll_spec (kept_empty secured default) xs
  obtain ⟨hb, hdb, hsb⟩ := setAll_spec (kept_empty secured default) ys
  have hperm : a.entries.Perm b.entries := ha.perm_of_get_eq hb (hda.trans hdb.symm) hget
  have hkeys := hperm.map Prod.fst
  have hca : a.secured = true → ¬ Collides hash (a.entries.map Prod.fst) :=
    fun h => hc (hsa.symm.trans h)
  have hcb : b.secured = true → ¬ Collides hash (b.entries.map Prod.fst) :=
    fun h hcol => hc (hsb.symm.trans h) (hcol.mono hkeys.symm.subset)
  have hsec : a.secured = b.secured := hsa.trans hsb.symm
  refine ⟨fun r => ⟨fun h => ?_, fun h => ?_⟩, fun placed node hplaced hnode => ?_⟩
  · obtain ⟨placed, hplaced, rfl⟩ := root_eq_ok_iff.mp h
    exact root_of_grown hsec ha.distinct hca hperm hplaced (grown_build hash placed)
  · obtain ⟨placed, hplaced, rfl⟩ := root_eq_ok_iff.mp h
    exact root_of_grown hsec.symm hb.distinct hcb hperm.symm hplaced (grown_build hash placed)
  · exact root_of_grown hsec ha.distinct hca hperm hplaced hnode

instance : ReflBEq Content where
  rfl {a} := by
    change a.same a = true
    cases a <;> simp [Content.same]

/-- One value overwritten and one removed again, against two values set in the other order. -/
theorem root_of_contents_storage :
    let encode := Content.encode keccak256 none
    let xs : List (Bytes × Content) := [(.ofList [1], .word 5), (.ofList [2], .word 7),
      (.ofList [3], .word 9), (.ofList [3], .word 0), (.ofList [1], .word 6)]
    let ys : List (Bytes × Content) := [(.ofList [2], .word 7), (.ofList [1], .word 6)]
    let a : Trie Content := setAll ⟨true, .word 0, []⟩ xs
    let b : Trie Content := setAll ⟨true, .word 0, []⟩ ys
    ((∀ key, a.get key = b.get key) ∧ ¬ Collides keccak256 (a.entries.map Prod.fst)) ∧
      ∃ r, a.root keccak256 encode = .ok r ∧ b.root keccak256 encode = .ok r := by
  intro encode xs ys a b
  have ha : a.entries = [(.ofList [1], .word 6), (.ofList [2], .word 7)] := by decide
  have hb : b.entries = [(.ofList [2], .word 7), (.ofList [1], .word 6)] := by decide
  have hget : ∀ key, a.get key = b.get key := by
    intro key
    unfold get
    rw [ha, hb]
    by_cases h : key = .ofList [1]
    · subst h
      decide
    · have hfirst : (Bytes.ofList [1] == key) = false := by
        rw [beq_eq_false_iff_ne]
        exact fun he => h he.symm
      simp only [List.find?_cons, hfirst, List.find?_nil]
      cases Bytes.ofList [2] == key <;> rfl
  have hhash : keccak256 (.ofList [1]) ≠ keccak256 (.ofList [2]) := by
    rw [keccak256_eq_digest, keccak256_eq_digest]
    decide +kernel
  have hc : ¬ Collides keccak256 (a.entries.map Prod.fst) := by
    rw [ha]
    rintro ⟨x, hx, y, hy, hne, he⟩
    simp only [List.map_cons, List.map_nil, List.mem_cons, List.not_mem_nil, or_false] at hx hy
    rcases hx with rfl | rfl <;> rcases hy with rfl | rfl
    · exact hne rfl
    · exact hhash he
    · exact hhash he.symm
    · exact hne rfl
  let value (e : Bytes × Content) : Bytes :=
    Rlp.encodeToBytes (.ofNat (if e.1 = .ofList [1] then 6 else 7))
  have hvalue : ∀ e ∈ a.entries, encode e.1 e.2 = .ok (value e) ∧ (value e).size ≠ 0 := by
    rw [ha]
    intro e he
    simp only [List.mem_cons, List.not_mem_nil, or_false] at he
    rcases he with rfl | rfl
    · exact ⟨rfl, by decide⟩
    · exact ⟨rfl, by decide⟩
  have hplaced := (prepare_eq_ok_iff (by rw [ha]; decide) fun _ => hc).mpr ⟨value, hvalue, rfl⟩
  have hroot := root_eq_ok_iff.mpr ⟨_, hplaced, rfl⟩
  have hsame := root_of_contents keccak256 encode true (.word 0) xs ys hget fun _ => hc
  exact ⟨⟨hget, hc⟩, _, hroot, (hsame.1 _).mp hroot⟩

end Trie

end ExecutionLayer
