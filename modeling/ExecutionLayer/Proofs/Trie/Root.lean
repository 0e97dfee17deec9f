import ExecutionLayer.Proofs.Trie.Binding
import ExecutionLayer.Trie.Basic

/-! # The root of a trie determines its contents

A trie places its keys by their nibbles, in a secured trie by the nibbles of their hashes. As long
as no two keys share a path, placing them neither drops nor merges an entry; two keys that do share
one are a collision.
-/
namespace ExecutionLayer.Trie
variable {hash : Bytes → Hash} {secured : Bool} {strings : List Bytes} {pairs : Pairs}

abbrev Pairs := List (Bytes × List UInt8)

def placeAll (hash : Bytes → Hash) (secured : Bool) (pairs : Pairs) : Suffixes :=
  pairs.foldl (fun placed e => place (path hash secured e.1) e.2 placed) []

/-- The strings that are hashed to form the root of a map: the keys of a secured one, and nodes. -/
def pairPreimages (hash : Bytes → Hash) (secured : Bool) (pairs : Pairs) : List Bytes :=
  (if secured then pairs.map Prod.fst else []) ++
    rootPreimages hash (placeAll hash secured pairs)

/-- The keys are distinct, no value is empty, and both are of a length that is written in full. -/
structure Placeable (pairs : Pairs) : Prop where
  distinct : (pairs.map Prod.fst).Nodup
  keySize : ∀ e ∈ pairs, e.1.size < 2 ^ 60
  valueLength : ∀ e ∈ pairs, e.2.length < 2 ^ 60
  nonempty : ∀ e ∈ pairs, e.2 ≠ []

theorem place_of_not_mem {p v : List UInt8} {placed : Suffixes}
    (h : p ∉ placed.map Prod.fst) : place p v placed = placed ++ [(p, v)] := by
  induction placed with
  | nil => rfl
  | cons e rest ih =>
    simp only [List.map_cons, List.mem_cons, not_or] at h
    rw [place, if_neg (Ne.symm h.1), ih h.2, List.cons_append]

theorem foldl_place {α : Type} (f : α → List UInt8 × List UInt8) (l : List α) (placed : Suffixes)
    (h : ((placed ++ l.map f).map Prod.fst).Nodup) :
    l.foldl (fun placed x => place (f x).1 (f x).2 placed) placed = placed ++ l.map f := by
  induction l generalizing placed with
  | nil => simp
  | cons x l ih =>
    have hnew : (f x).1 ∉ placed.map Prod.fst := by
      intro hm
      rw [List.map_append, List.nodup_append] at h
      exact h.2.2 _ hm _ (by simp) rfl
    rw [List.foldl_cons, place_of_not_mem hnew, ih]
    · simp
    · simpa using h

theorem path_inj (hc : ¬ Collides hash strings) {k l : Bytes} (hk : secured = true → k ∈ strings)
    (hl : secured = true → l ∈ strings) (h : path hash secured k = path hash secured l) :
    k = l := by
  have hn := nibbles_inj h
  cases secured with
  | false =>
    simp only [Bool.false_eq_true, ↓reduceIte] at hn
    exact Bytes.ext_toList hn
  | true =>
    simp only [↓reduceIte] at hn
    have hh : hash k = hash l := fixedBytes_inj (by decide) hn
    exact eq_of_not_collides hc (hk rfl) (hl rfl) hh

theorem nodup_paths (hc : ¬ Collides hash strings) {keys : List Bytes} (h : keys.Nodup)
    (hs : secured = true → keys ⊆ strings) : (keys.map (path hash secured)).Nodup := by
  refine List.Nodup.map_on (fun k hk l hl he => ?_) h
  exact path_inj hc (fun hsec => hs hsec hk) (fun hsec => hs hsec hl) he

theorem map_fst_paths {V : Type} (hash : Bytes → Hash) (secured : Bool)
    (value : Bytes × V → List UInt8) (entries : List (Bytes × V)) :
    (entries.map fun e => (path hash secured e.1, value e)).map Prod.fst =
      (entries.map Prod.fst).map (path hash secured) := by
  simp [List.map_map, Function.comp_def]

theorem keys_subset (hs : pairPreimages hash secured pairs ⊆ strings) (hsec : secured = true) :
    pairs.map Prod.fst ⊆ strings := by
  subst hsec
  exact fun k hk => hs (List.mem_append_left _ hk)

theorem placeAll_eq (hc : ¬ Collides hash strings) (h : (pairs.map Prod.fst).Nodup)
    (hs : pairPreimages hash secured pairs ⊆ strings) :
    placeAll hash secured pairs = pairs.map fun e => (path hash secured e.1, e.2) := by
  have hf := foldl_place (fun e => (path hash secured e.1, e.2)) pairs []
  rw [List.nil_append, map_fst_paths] at hf
  exact hf (nodup_paths hc h (keys_subset hs))

theorem length_path_lt (hash : Bytes → Hash) (secured : Bool) {key : Bytes}
    (h : key.size < 2 ^ 60) : (path hash secured key).length < 2 ^ 61 := by
  unfold path
  rw [length_nibbles]
  cases secured with
  | false =>
    have hl : key.toList.length = key.size := rfl
    simp only [Bool.false_eq_true, ↓reduceIte, hl]
    omega
  | true =>
    simp only [↓reduceIte, toList_fixedBytes, BigEndian.length_digits]
    decide

theorem Placeable.sound (h : Placeable pairs) (hc : ¬ Collides hash strings)
    (hs : pairPreimages hash secured pairs ⊆ strings) : Sound (placeAll hash secured pairs) := by
  have hmem : ∀ e ∈ placeAll hash secured pairs,
      ∃ p ∈ pairs, e = (path hash secured p.1, p.2) := by
    intro e he
    rw [placeAll_eq hc h.distinct hs] at he
    obtain ⟨p, hp, rfl⟩ := List.mem_map.mp he
    exact ⟨p, hp, rfl⟩
  constructor
  · rw [placeAll_eq hc h.distinct hs, map_fst_paths]
    exact nodup_paths hc h.distinct (keys_subset hs)
  · intro e he
    obtain ⟨p, hp, rfl⟩ := hmem e he
    exact isPath_nibbles _
  · intro e he
    obtain ⟨p, hp, rfl⟩ := hmem e he
    exact length_path_lt hash secured (h.keySize p hp)
  · intro e he
    obtain ⟨p, hp, rfl⟩ := hmem e he
    exact h.valueLength p hp
  · intro e he
    obtain ⟨p, hp, rfl⟩ := hmem e he
    exact h.nonempty p hp

theorem mem_iff_of_placeAll_root_eq
    (hc : ¬ Collides hash strings) {a b : Pairs} (ha : Placeable a) (hb : Placeable b)
    (hsa : pairPreimages hash secured a ⊆ strings) (hsb : pairPreimages hash secured b ⊆ strings)
    (h : Node.root hash (build hash (placeAll hash secured a)) =
      Node.root hash (build hash (placeAll hash secured b)))
    (e : Bytes × List UInt8) : e ∈ a ↔ e ∈ b := by
  have hnode {c : Pairs} (hsc : pairPreimages hash secured c ⊆ strings) :
      rootPreimages hash (placeAll hash secured c) ⊆ strings :=
    fun x hx => hsc (List.mem_append_right _ hx)
  have hkey {c : Pairs} (hsc : pairPreimages hash secured c ⊆ strings) {e : Bytes × List UInt8}
      (he : e ∈ c) (hsec : secured = true) : e.1 ∈ strings :=
    keys_subset hsc hsec (List.mem_map.mpr ⟨e, he, rfl⟩)
  have hmem := mem_iff_of_root_eq hc (ha.sound hc hsa) (hb.sound hc hsb) (hnode hsa) (hnode hsb) h
  rw [placeAll_eq hc ha.distinct hsa, placeAll_eq hc hb.distinct hsb] at hmem
  -- Both directions carry an entry over by its path and find the key again by `path_inj`.
  have hcarry {c d : Pairs} (hsc : pairPreimages hash secured c ⊆ strings)
      (hsd : pairPreimages hash secured d ⊆ strings)
      (hcd : ∀ p v, (p, v) ∈ c.map (fun e => (path hash secured e.1, e.2)) →
        (p, v) ∈ d.map (fun e => (path hash secured e.1, e.2)))
      {e : Bytes × List UInt8} (he : e ∈ c) : e ∈ d := by
    obtain ⟨f, hf, heq⟩ := List.mem_map.mp
      (hcd _ _ (List.mem_map.mpr ⟨e, he, rfl⟩))
    obtain ⟨hp, hv⟩ := Prod.mk.inj heq
    have hk : f.1 = e.1 := path_inj hc (hkey hsd hf) (hkey hsc he) hp
    rwa [← Prod.ext hk hv]
  exact ⟨hcarry hsa hsb fun p v => (hmem (p, v)).mp, hcarry hsb hsa fun p v => (hmem (p, v)).mpr⟩

section Tries
variable {V W : Type}

def Holds (encode : Bytes → V → Except Fault Bytes) (t : Trie V) (key value : Bytes) : Prop :=
  ∃ v, (key, v) ∈ t.entries ∧ encode key v = .ok value

/-- The keys are distinct, and every entry has an encoding that is neither empty nor too long. -/
structure Encodable (encode : Bytes → V → Except Fault Bytes) (t : Trie V) : Prop where
  distinct : (t.entries.map Prod.fst).Nodup
  keySize : ∀ e ∈ t.entries, e.1.size < 2 ^ 60
  encoded : ∀ e ∈ t.entries, ∃ b, encode e.1 e.2 = .ok b ∧ b.size ≠ 0 ∧ b.size < 2 ^ 60

/-- The strings that are hashed while the root of a trie is computed. -/
def hashedStrings (hash : Bytes → Hash) (encode : Bytes → V → Except Fault Bytes) (t : Trie V) :
    List Bytes :=
  (if t.secured then t.entries.map Prod.fst else []) ++
    match t.prepare hash encode with
    | .ok placed => rootPreimages hash placed
    | .error _ => []

theorem foldlM_place {encode : Bytes → V → Except Fault Bytes} {value : Bytes × V → Bytes}
    {entries : List (Bytes × V)} (placed : Suffixes)
    (h : ∀ e ∈ entries, encode e.1 e.2 = .ok (value e) ∧ (value e).size ≠ 0) : entries.foldlM
      (fun placed entry => do
        let v ← encode entry.1 entry.2
        require (v.size ≠ 0) .brokenInvariant
        return place (path hash secured entry.1) v.toList placed) placed =
      .ok (entries.foldl
        (fun placed e => place (path hash secured e.1) (value e).toList placed) placed) := by
  induction entries generalizing placed with
  | nil => rfl
  | cons e rest ih =>
    obtain ⟨hv, hne⟩ := h e (List.mem_cons_self ..)
    rw [List.foldlM_cons, hv, List.foldl_cons, ← ih _ fun f hf => h f (List.mem_cons_of_mem e hf)]
    simp only [bind, Except.bind, require, ne_eq, hne, not_false_eq_true, decide_true, ↓reduceIte]
    rfl

theorem Encodable.exists_pairs {encode : Bytes → V → Except Fault Bytes} {t : Trie V}
    (h : Encodable encode t) (hash : Bytes → Hash) :
    ∃ pairs : Pairs, Placeable pairs ∧
      t.root hash encode = .ok (Node.root hash (build hash (placeAll hash t.secured pairs))) ∧
      t.hashedStrings hash encode = pairPreimages hash t.secured pairs ∧
      ∀ key value : Bytes, t.Holds encode key value ↔ (key, value.toList) ∈ pairs := by
  choose! value hvalue using h.encoded
  have hprep : t.prepare hash encode =
      .ok (placeAll hash t.secured (t.entries.map fun e => (e.1, (value e).toList))) := by
    rw [prepare, foldlM_place [] fun e he => ⟨(hvalue e he).1, (hvalue e he).2.1⟩, placeAll,
      List.foldl_map]
  have hkeys : (t.entries.map fun e => (e.1, (value e).toList)).map Prod.fst =
      t.entries.map Prod.fst := by
    simp [List.map_map, Function.comp_def]
  refine ⟨t.entries.map fun e => (e.1, (value e).toList), ?_, ?_, ?_, ?_⟩
  · constructor
    · rw [hkeys]
      exact h.distinct
    · intro e he
      obtain ⟨f, hf, rfl⟩ := List.mem_map.mp he
      exact h.keySize f hf
    · intro e he
      obtain ⟨f, hf, rfl⟩ := List.mem_map.mp he
      exact (hvalue f hf).2.2
    · intro e he hnil
      obtain ⟨f, hf, rfl⟩ := List.mem_map.mp he
      exact (hvalue f hf).2.1 (List.length_eq_zero_iff.mpr hnil)
  · rw [root, node, hprep]
    rfl
  · rw [hashedStrings, pairPreimages, hprep, hkeys]
  · intro key v
    constructor
    · rintro ⟨x, hx, he⟩
      have hv : value (key, x) = v := Except.ok.inj ((hvalue _ hx).1.symm.trans he)
      exact List.mem_map.mpr ⟨(key, x), hx, by rw [hv]⟩
    · intro hm
      obtain ⟨e, he, heq⟩ := List.mem_map.mp hm
      obtain ⟨rfl, hv⟩ := Prod.mk.inj heq
      exact ⟨e.2, he, by rw [(hvalue e he).1, Bytes.ext_toList hv]⟩

theorem holds_iff_of_root_eq {encodeA : Bytes → V → Except Fault Bytes}
    {encodeB : Bytes → W → Except Fault Bytes} {a : Trie V} {b : Trie W}
    (hsec : a.secured = b.secured) (ha : Encodable encodeA a) (hb : Encodable encodeB b)
    (h : a.root hash encodeA = b.root hash encodeB) :
    (∀ key value, a.Holds encodeA key value ↔ b.Holds encodeB key value) ∨
      Collides hash (a.hashedStrings hash encodeA ++ b.hashedStrings hash encodeB) := by
  obtain ⟨as, hpa, hra, hsa, hma⟩ := ha.exists_pairs hash
  obtain ⟨bs, hpb, hrb, hsb, hmb⟩ := hb.exists_pairs hash
  by_cases hc : Collides hash (a.hashedStrings hash encodeA ++ b.hashedStrings hash encodeB)
  · exact Or.inr hc
  · left
    intro key value
    rw [hra, hrb, hsec] at h
    rw [hsec] at hsa
    rw [hma, hmb]
    exact mem_iff_of_placeAll_root_eq hc hpa hpb (hsa ▸ List.subset_append_left _ _)
      (hsb ▸ List.subset_append_right _ _) (Except.ok.inj h) _

end Tries

end ExecutionLayer.Trie
