import ExecutionLayer.Proofs.Trie.Order
import Mathlib.Data.List.FinRange

/-! # The tree of a map is canonical

A node holds references to the nodes below it. The tree has these nodes themselves in place of the
references. In the tree of a map no node is superfluous: an extension leads to a branch, and a branch
branches. A path that is followed from the top leads to the value of that key and to no other.
-/
namespace ExecutionLayer.Trie

/-- A node with the nodes below it. -/
inductive Tree where
  | empty
  | leaf (rest value : List UInt8)
  | extension (segment : List UInt8) (below : Tree)
  | branch (below : Fin 16 → Tree) (value : List UInt8)

namespace Tree

def node (hash : Bytes → Hash) : Tree → Option Node
  | empty => none
  | leaf rest value => some (.leaf rest value)
  | extension segment below => some (.extension segment (Node.reference hash (below.node hash)))
  | branch below value => some (.branch
      ((List.finRange 16).map fun k => Node.reference hash ((below k).node hash)) value)

def find : Tree → List UInt8 → Option (List UInt8)
  | empty, _ => none
  | leaf rest value, path => if path = rest then some value else none
  | extension segment below, path =>
    if segment <+: path then below.find (path.drop segment.length) else none
  | branch _ value, [] => if value = [] then none else some value
  | branch below _, k :: path => if h : k.toNat < 16 then (below ⟨k.toNat, h⟩).find path else none

def IsBranch (t : Tree) : Prop := ∃ below value, t = branch below value

/-- Of the places of a branch there is one for each nibble and one for the value. -/
def Occupied (below : Fin 16 → Tree) (value : List UInt8) : Option (Fin 16) → Prop
  | some k => below k ≠ empty
  | none => value ≠ []

def Canonical : Tree → Prop
  | empty => True
  | leaf _ _ => True
  | extension segment below => segment ≠ [] ∧ below.IsBranch ∧ below.Canonical
  | branch below value =>
    (∃ p q, p ≠ q ∧ Occupied below value p ∧ Occupied below value q) ∧ ∀ k, (below k).Canonical

variable {t : Tree} {segment path value : List UInt8} {below : Fin 16 → Tree} {hash : Bytes → Hash}

theorem find_leaf {rest v : List UInt8} :
    (leaf rest value).find path = some v ↔ (path, v) ∈ [(rest, value)] := by
  simp [find, eq_comm]

theorem find_extension : (extension segment t).find path = some value ↔
    ∃ q, path = segment ++ q ∧ t.find q = some value := by
  rw [find]
  constructor
  · intro h
    split at h
    · next hprefix =>
      obtain ⟨q, rfl⟩ := hprefix
      rw [List.drop_left] at h
      exact ⟨q, rfl, h⟩
    · cases h
  · rintro ⟨q, rfl, h⟩
    rwa [if_pos (List.prefix_append _ _), List.drop_left]

theorem ne_empty_of_find (h : t.find path = some value) : t ≠ empty := by
  rintro rfl
  cases h

theorem isBranch_of_node {subnodes : List Rlp.Item} (h : t.node hash = some (.branch subnodes value)) :
    t.IsBranch := by
  cases t with
  | branch below value => exact ⟨below, value, rfl⟩
  | empty | leaf | extension => cases h

end Tree

/-- The keys are distinct lists of nibbles, and no value is empty. -/
structure IsMap (entries : Suffixes) : Prop where
  distinct : (entries.map Prod.fst).Nodup
  isPath : ∀ e ∈ entries, IsPath e.1
  nonempty : ∀ e ∈ entries, e.2 ≠ []

/-- The builder refers from node to node as the tree has them one below the other. -/
structure Presents (t : Tree) (entries : Suffixes) : Prop where
  built : ∀ hash, build hash entries = t.node hash
  canonical : t.Canonical
  find : ∀ {path value}, t.find path = some value ↔ (path, value) ∈ entries

section Maps
variable {entries : Suffixes} {path value : List UInt8}

theorem toUInt8_toNat (n : UInt8) : n.toNat.toUInt8 = n := UInt8.ofNat_toNat

theorem IsMap.dropSegment (h : IsMap entries) :
    IsMap (dropSegment (sharedLength path entries) entries) where
  distinct := nodup_dropSegment h.distinct
  isPath e he := by
    obtain ⟨f, hf, rfl⟩ := List.mem_map.mp he
    exact fun n hn => h.isPath f hf n (List.mem_of_mem_drop hn)
  nonempty e he := by
    obtain ⟨f, hf, rfl⟩ := List.mem_map.mp he
    exact h.nonempty f hf

theorem IsMap.startingWith (h : IsMap entries) (k : UInt8) : IsMap (startingWith k entries) where
  distinct := nodup_startingWith h.distinct
  isPath _ he := (h.isPath _ (mem_startingWith.mp he)).tail
  nonempty _ he := h.nonempty (k :: _, _) (mem_startingWith.mp he)

theorem IsMap.endingHere_iff (h : IsMap entries) : (endingHere entries ≠ [] ∧
    endingHere entries = value) ↔ ([], value) ∈ entries := by
  constructor
  · rintro ⟨hne, rfl⟩
    by_contra hn
    refine hne (endingHere_of_absent (fun v hv => hn ?_) [])
    rwa [endingHere, endingHere_of_mem h.distinct hv]
  · intro hv
    rw [endingHere, endingHere_of_mem h.distinct hv]
    exact ⟨h.nonempty _ hv, rfl⟩

theorem sharedLength_dropSegment (path : List UInt8) (entries : Suffixes) :
    sharedLength (path.drop (sharedLength path entries))
      (dropSegment (sharedLength path entries) entries) = 0 := by
  by_contra hne
  obtain ⟨hlen, hall⟩ := le_sharedLength_iff.mp (Nat.one_le_iff_ne_zero.mpr hne)
  rw [List.length_drop] at hlen
  have hlonger : sharedLength path entries + 1 ≤ sharedLength path entries := by
    refine le_sharedLength_iff.mpr ⟨by omega, fun p hp => ?_⟩
    have hdropped : p.drop (sharedLength path entries) ∈
        (dropSegment (sharedLength path entries) entries).map Prod.fst := by
      obtain ⟨e, he, rfl⟩ := List.mem_map.mp hp
      exact List.mem_map.mpr ⟨_, List.mem_map.mpr ⟨e, he, rfl⟩, rfl⟩
    have htake := (sharedLength_le_of_mem (p := path) hp).2
    rw [List.take_add, ← htake]
    conv_rhs => rw [← List.take_append_drop (sharedLength path entries) p]
    exact (List.prefix_append_right_inj _).mpr (hall _ hdropped)
  omega

theorem build_of_parting (hash : Bytes → Hash) (htwo : 2 ≤ entries.length)
    (hpath : path ∈ entries.map Prod.fst) (hshared : sharedLength path entries = 0) :
    ∃ subnodes value, build hash entries = some (.branch subnodes value) := by
  have hgrown := grown_build hash entries
  generalize build hash entries = node at hgrown
  cases hgrown with
  | empty | leaf => simp at htwo
  | extension _ hpath' hshared' _ =>
    rw [(sharedLength_eq_of_mem hpath' hpath).1, hshared] at hshared'
    exact absurd hshared' (Nat.lt_irrefl 0)
  | branch => exact ⟨_, _, rfl⟩

/-- Where no prefix is shared, two keys part: their first nibbles differ, or one of them ends. -/
theorem IsMap.parts (h : IsMap entries) (htwo : 2 ≤ entries.length)
    (hpath : path ∈ entries.map Prod.fst) (hshared : sharedLength path entries = 0) :
    ∃ p ∈ entries, ∃ q ∈ entries, p.1.head? ≠ q.1.head? := by
  by_contra hsame
  have hhead : ∀ p ∈ entries, ∀ q ∈ entries, p.1.head? = q.1.head? := fun p hp q hq =>
    not_not.mp fun hne => hsame ⟨p, hp, q, hq, hne⟩
  obtain ⟨e, he, rfl⟩ := List.mem_map.mp hpath
  cases hkey : e.1 with
  | cons n rest =>
    have hone : 1 ≤ sharedLength e.1 entries := by
      refine le_sharedLength_iff.mpr ⟨by simp [hkey], fun p hp => ?_⟩
      obtain ⟨f, hf, rfl⟩ := List.mem_map.mp hp
      have heq := hhead e he f hf
      rw [hkey] at heq ⊢
      obtain ⟨tail, htail⟩ := List.head?_eq_some_iff.mp heq.symm
      exact ⟨tail, htail.symm⟩
    omega
  | nil =>
    -- All keys end here, but they are distinct.
    have hnil : ∀ p ∈ entries.map Prod.fst, p = [] := fun p hp => by
      obtain ⟨f, hf, rfl⟩ := List.mem_map.mp hp
      exact List.head?_eq_none_iff.mp ((hhead f hf e he).trans (by rw [hkey]; rfl))
    have hle := (List.nodup_iff_count_le_one.mp h.distinct) []
    rw [List.eq_replicate_of_mem hnil, List.count_replicate_self, List.length_map] at hle
    omega

/-- Each entry occupies a place of the branch: that of its first nibble, or that of the value. -/
theorem IsMap.occupied (h : IsMap entries) {below : Fin 16 → Tree}
    (hbelow : ∀ k : Fin 16, Presents (below k) (Trie.startingWith k.val.toUInt8 entries))
    {e : List UInt8 × List UInt8} (he : e ∈ entries) :
    ∃ p, Tree.Occupied below (endingHere entries) p ∧ p.map Fin.val = e.1.head?.map UInt8.toNat := by
  obtain ⟨_ | ⟨n, rest⟩, v⟩ := e
  · exact ⟨none, (h.endingHere_iff.mpr he).1, rfl⟩
  · have hn : n < 16 := h.isPath _ he n (List.mem_cons_self ..)
    have hmem : (rest, v) ∈ Trie.startingWith n.toNat.toUInt8 entries := by
      rwa [mem_startingWith, toUInt8_toNat]
    exact ⟨some ⟨n.toNat, hn⟩, Tree.ne_empty_of_find ((hbelow ⟨n.toNat, hn⟩).find.mpr hmem), rfl⟩

theorem IsMap.presents_branch {rest : Suffixes} (h : IsMap ((path, value) :: rest)) (hrest : rest ≠ [])
    (hshared : ¬0 < sharedLength path ((path, value) :: rest)) {below : Fin 16 → Tree}
    (hbelow : ∀ k : Fin 16,
      Presents (below k) (Trie.startingWith k.val.toUInt8 ((path, value) :: rest))) :
    Presents (.branch below (endingHere ((path, value) :: rest))) ((path, value) :: rest) where
  built hash := by
    rw [build]
    · simp only [dif_neg hshared, Tree.node, ← List.map_coe_finRange_eq_range, List.map_map,
        ← (hbelow _).built hash, Function.comp_def]
    · exact hrest
  canonical := by
    refine ⟨?_, fun k => (hbelow k).canonical⟩
    obtain ⟨e, he, f, hf, hne⟩ := h.parts (two_le_length hrest) (by simp)
      (Nat.eq_zero_of_not_pos hshared)
    obtain ⟨p, hp, hpe⟩ := h.occupied hbelow he
    obtain ⟨q, hq, hqf⟩ := h.occupied hbelow hf
    refine ⟨p, q, ?_, hp, hq⟩
    rintro rfl
    exact hne (Option.map_injective (fun _ _ => UInt8.toNat_inj.mp) (hpe.symm.trans hqf))
  find {p v} := by
    cases p with
    | nil =>
      rw [Tree.find, ← h.endingHere_iff]
      split <;> simp_all
    | cons n q =>
      rw [Tree.find]
      split
      · next hn => rw [(hbelow ⟨n.toNat, hn⟩).find, mem_startingWith, toUInt8_toNat]
      · next hn => exact iff_of_false (by simp) fun hm => hn (h.isPath _ hm n (List.mem_cons_self ..))

theorem presents_extension {rest : Suffixes} (hrest : rest ≠ [])
    (hshared : 0 < sharedLength path ((path, value) :: rest)) {below : Tree}
    (hbelow : Presents below (Trie.dropSegment (sharedLength path ((path, value) :: rest))
      ((path, value) :: rest))) :
    Presents (.extension (path.take (sharedLength path ((path, value) :: rest))) below)
      ((path, value) :: rest) where
  built hash := by
    rw [build]
    · simp only [dif_pos hshared, Tree.node, hbelow.built hash]
    · exact hrest
  canonical := by
    refine ⟨fun hnil => ?_, ?_, hbelow.canonical⟩
    · have hlen := congrArg List.length hnil
      have hle := sharedLength_le path ((path, value) :: rest)
      rw [List.length_take, List.length_nil] at hlen
      omega
    · obtain ⟨subnodes, value, hbranch⟩ := build_of_parting (fun _ => 0)
        (by rw [Trie.dropSegment, List.length_map]; exact two_le_length hrest)
        (by simp [Trie.dropSegment]) (sharedLength_dropSegment path ((path, value) :: rest))
      exact Tree.isBranch_of_node ((hbelow.built _).symm.trans hbranch)
  find {p v} := by
    rw [Tree.find_extension]
    simp only [hbelow.find]
    conv_rhs => rw [← prefixed_dropSegment path ((path, value) :: rest)]
    exact mem_prefixed.symm

theorem IsMap.exists_presents (h : IsMap entries) : ∃ t, Presents t entries := by
  induction entries using build.induct (fun _ => 0) with
  | case1 => exact ⟨.empty, fun _ => by rw [build, Tree.node], trivial, by simp [Tree.find]⟩
  | case2 path value =>
    exact ⟨.leaf path value, fun _ => by rw [build, Tree.node], trivial, Tree.find_leaf⟩
  | case3 path value rest hrest n hn ih =>
    obtain ⟨below, hbelow⟩ := ih h.dropSegment
    exact ⟨_, presents_extension hrest hn hbelow⟩
  | case4 path value rest hrest n hn ih =>
    choose below hbelow using fun k : Fin 16 => ih k.val (h.startingWith _)
    exact ⟨_, h.presents_branch hrest hn hbelow⟩

end Maps

/-- A map that is not empty has a node. It is the top of a tree that any hash function refers through
alike. In this tree each extension has a segment and leads to a branch, and each branch has at least
two places that are occupied. A path leads to the value of its key, and to nothing if it is no key. -/
theorem tree_of_map_canonical {entries : Suffixes} (hne : entries ≠ [])
    (hdistinct : (entries.map Prod.fst).Nodup) (hnibbles : ∀ e ∈ entries, ∀ n ∈ e.1, n < 16)
    (hvalues : ∀ e ∈ entries, e.2 ≠ []) :
    ∃ t : Tree, (∀ hash, ∃ node, build hash entries = some node ∧ t.node hash = some node) ∧
      t.Canonical ∧ ∀ path value, t.find path = some value ↔ (path, value) ∈ entries := by
  obtain ⟨t, ht⟩ := IsMap.exists_presents ⟨hdistinct, hnibbles, hvalues⟩
  refine ⟨t, fun hash => ?_, ht.canonical, fun _ _ => ht.find⟩
  obtain ⟨e, he⟩ := List.exists_mem_of_ne_nil _ hne
  have hsome := Tree.ne_empty_of_find (ht.find.mpr he)
  rw [ht.built hash]
  cases t with
  | empty => exact absurd rfl hsome
  | leaf | extension | branch => exact ⟨_, rfl, rfl⟩

/-- One key goes on where another ends, below a prefix that both share with a third. -/
theorem tree_of_map_canonical_nested :
    let entries : Suffixes := [([1, 2], [7]), ([1, 2, 3], [8]), ([1, 5], [9])]
    ∃ t : Tree, (∀ hash, (build hash entries).isSome ∧ t.node hash = build hash entries) ∧
      t.Canonical ∧ t.find [1, 2] = some [7] ∧ t.find [1, 2, 3] = some [8] ∧ t.find [1] = none := by
  obtain ⟨t, hnode, hcanonical, hfind⟩ := @tree_of_map_canonical
    [([1, 2], [7]), ([1, 2, 3], [8]), ([1, 5], [9])] (by simp) (by decide) (by simp) (by simp)
  refine ⟨t, fun hash => ?_, hcanonical, (hfind _ _).mpr (by simp), (hfind _ _).mpr (by simp),
    Option.eq_none_iff_forall_ne_some.mpr fun v hv => absurd ((hfind _ _).mp hv) (by simp)⟩
  obtain ⟨node, hbuild, htop⟩ := hnode hash
  rw [hbuild]
  exact ⟨rfl, htop⟩

end ExecutionLayer.Trie
