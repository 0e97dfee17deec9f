import ExecutionLayer.Proofs.Trie.Node
import Mathlib.Data.List.Nodup

/-! # The node of a map determines the map

The builder is inverted along its own recursion: a leaf, an extension or a branch can only have come
from entries of one shape, and its references lead to the nodes of smaller maps. Only hashes of
strings that the builder hashes are inverted.
-/
namespace ExecutionLayer.Trie
variable {entries a b : Suffixes}

/-- The strings that are hashed to refer to the node of the entries. -/
def preimages (hash : Bytes → Hash) (entries : Suffixes) : List Bytes :=
  Node.referenced (build hash entries) ++
    match entries with
    | [] => []
    | [_] => []
    | (path, value) :: rest =>
      let n := sharedLength path ((path, value) :: rest)
      if _h : 0 < n then preimages hash (dropSegment n ((path, value) :: rest))
      else
        (List.range 16).flatMap fun k =>
          preimages hash (startingWith k.toUInt8 ((path, value) :: rest))
termination_by weight entries
decreasing_by
  · exact weight_dropSegment_lt _h (sharedLength_le _ _)
  · exact weight_startingWith_lt _ (by simp)

/-- The strings that are hashed to form the root of the entries: the node itself is hashed whatever
its length. -/
def rootPreimages (hash : Bytes → Hash) (entries : Suffixes) : List Bytes :=
  .ofList (Rlp.encode (Node.item (build hash entries))) :: preimages hash entries

/-- Entries as they stand below a node: the paths are distinct, and no value is empty. -/
structure Sound (entries : Suffixes) : Prop where
  distinct : (entries.map Prod.fst).Nodup
  isPath : ∀ e ∈ entries, IsPath e.1
  pathLength : ∀ e ∈ entries, e.1.length < 2 ^ 61
  valueLength : ∀ e ∈ entries, e.2.length < 2 ^ 60
  nonempty : ∀ e ∈ entries, e.2 ≠ []

def prefixed (segment : List UInt8) (entries : Suffixes) : Suffixes :=
  entries.map fun e => (segment ++ e.1, e.2)

theorem mem_prefixed {segment p v : List UInt8} :
    (p, v) ∈ prefixed segment entries ↔ ∃ q, p = segment ++ q ∧ (q, v) ∈ entries := by
  unfold prefixed
  constructor
  · intro h
    obtain ⟨e, he, heq⟩ := List.mem_map.mp h
    obtain ⟨rfl, rfl⟩ := Prod.mk.inj heq
    exact ⟨e.1, rfl, he⟩
  · rintro ⟨q, rfl, hq⟩
    exact List.mem_map.mpr ⟨(q, v), hq, rfl⟩

theorem take_eq_of_le_commonLength {n : Nat} {a b : List UInt8} (h : n ≤ commonLength a b) :
    a.take n = b.take n := by
  fun_induction commonLength a b generalizing n with
  | case1 as b bs ih =>
    cases n with
    | zero => rfl
    | succ n => simp [ih (Nat.le_of_succ_le_succ h)]
  | case2 | case3 => simp [Nat.le_zero.mp h]

theorem sharedLength_le_commonLength {path : List UInt8} {e : List UInt8 × List UInt8}
    (he : e ∈ entries) : sharedLength path entries ≤ commonLength path e.1 := by
  unfold sharedLength
  generalize path.length = start
  induction entries generalizing start with
  | nil => cases he
  | cons first rest ih =>
    rw [List.foldl_cons]
    rcases List.mem_cons.mp he with rfl | he
    · exact (foldl_min_le path rest _).trans (Nat.min_le_right _ _)
    · exact ih he _

theorem prefixed_dropSegment (path : List UInt8) (entries : Suffixes) :
    prefixed (path.take (sharedLength path entries))
      (dropSegment (sharedLength path entries) entries) = entries := by
  have hpre : ∀ e ∈ entries, path.take (sharedLength path entries) ++
      e.1.drop (sharedLength path entries) = e.1 := by
    intro e he
    rw [take_eq_of_le_commonLength (sharedLength_le_commonLength he), List.take_append_drop]
  unfold prefixed dropSegment
  rw [List.map_map]
  conv_rhs => rw [← List.map_id entries]
  refine List.map_congr_left fun e he => ?_
  simp only [Function.comp_apply, hpre e he, id_eq]

theorem Sound.of_prefixed {segment : List UInt8}
    (h : Sound (prefixed segment entries)) : Sound entries := by
  have hmem : ∀ e ∈ entries, (segment ++ e.1, e.2) ∈ prefixed segment entries :=
    fun e he => mem_prefixed.mpr ⟨e.1, rfl, he⟩
  have hkeys : (prefixed segment entries).map Prod.fst =
      (entries.map Prod.fst).map (segment ++ ·) := by
    simp [prefixed, List.map_map, Function.comp_def]
  constructor
  · have hd := h.distinct
    rw [hkeys] at hd
    exact List.Nodup.of_map _ hd
  · intro e he n hn
    exact h.isPath _ (hmem e he) n (List.mem_append_right _ hn)
  · intro e he
    have hl := h.pathLength _ (hmem e he)
    rw [List.length_append] at hl
    omega
  · exact fun e he => h.valueLength (segment ++ e.1, e.2) (hmem e he)
  · exact fun e he => h.nonempty (segment ++ e.1, e.2) (hmem e he)

theorem mem_startingWith {k : UInt8} {p v : List UInt8} :
    (p, v) ∈ startingWith k entries ↔ (k :: p, v) ∈ entries := by
  fun_induction startingWith k entries with
  | case1 => simp
  | case2 value entries ih => simp [ih]
  | case3 rest value entries ih => simp [ih]
  | case4 b rest value entries hb ih => simp [ih, Ne.symm hb]

theorem nodup_startingWith {k : UInt8}
    (h : (entries.map Prod.fst).Nodup) : ((startingWith k entries).map Prod.fst).Nodup := by
  fun_induction startingWith k entries with
  | case1 => simp
  | case2 value entries ih => exact ih (List.nodup_cons.mp h).2
  | case3 rest value entries ih =>
    obtain ⟨hnew, hrest⟩ := List.nodup_cons.mp h
    refine List.nodup_cons.mpr ⟨?_, ih hrest⟩
    intro hm
    obtain ⟨e, he, rfl⟩ := List.mem_map.mp hm
    exact hnew (List.mem_map.mpr ⟨(k :: e.1, e.2), mem_startingWith.mp he, rfl⟩)
  | case4 b rest value entries hb ih => exact ih (List.nodup_cons.mp h).2

theorem Sound.startingWith (h : Sound entries) (k : UInt8) : Sound (startingWith k entries) := by
  have hmem : ∀ e ∈ Trie.startingWith k entries, (k :: e.1, e.2) ∈ entries :=
    fun e he => mem_startingWith.mp he
  constructor
  · exact nodup_startingWith h.distinct
  · exact fun e he => (h.isPath _ (hmem e he)).tail
  · intro e he
    have hl := h.pathLength _ (hmem e he)
    rw [List.length_cons] at hl
    omega
  · exact fun e he => h.valueLength (k :: e.1, e.2) (hmem e he)
  · exact fun e he => h.nonempty (k :: e.1, e.2) (hmem e he)

theorem endingHere_of_absent (h : ∀ v, ([], v) ∉ entries) (start : List UInt8) :
    entries.foldl (fun value e => if e.1.isEmpty then e.2 else value) start = start := by
  induction entries generalizing start with
  | nil => rfl
  | cons e rest ih =>
    have he : e.1 ≠ [] := by
      intro hnil
      exact h e.2 (by rw [← hnil]; exact List.mem_cons_self ..)
    rw [List.foldl_cons, if_neg (by simpa using he)]
    exact ih (fun v hv => h v (List.mem_cons_of_mem e hv)) start

theorem endingHere_of_mem (hd : (entries.map Prod.fst).Nodup)
    {v : List UInt8} (h : ([], v) ∈ entries) (start : List UInt8) :
    entries.foldl (fun value e => if e.1.isEmpty then e.2 else value) start = v := by
  induction entries generalizing start with
  | nil => cases h
  | cons e rest ih =>
    obtain ⟨hnew, hrest⟩ := List.nodup_cons.mp hd
    rw [List.foldl_cons]
    rcases List.mem_cons.mp h with rfl | h
    · refine endingHere_of_absent (fun w hw => hnew ?_) v
      exact List.mem_map.mpr ⟨([], w), hw, rfl⟩
    · exact ih hrest h _

theorem endingHere_eq_iff (h : Sound entries) {v : List UInt8} (hv : v ≠ []) :
    endingHere entries = v ↔ ([], v) ∈ entries := by
  constructor
  · intro he
    by_cases hex : ∃ w, ([], w) ∈ entries
    · obtain ⟨w, hw⟩ := hex
      have hew : endingHere entries = w := endingHere_of_mem h.distinct hw []
      rwa [← he, hew]
    · have hn : endingHere entries = [] := endingHere_of_absent (fun w hw => hex ⟨w, hw⟩) []
      exact (hv (he.symm.trans hn)).elim
  · exact fun hm => endingHere_of_mem h.distinct hm []

theorem length_endingHere_lt (h : Sound entries) : (endingHere entries).length < 2 ^ 60 := by
  by_cases hv : endingHere entries = []
  · rw [hv]
    decide
  · exact h.valueLength _ ((endingHere_eq_iff h hv).mp rfl)

inductive Shape (hash : Bytes → Hash) (entries : Suffixes) (node : Option Node) : Prop
  | empty (he : entries = []) (hn : node = none)
  | leaf (path value : List UInt8) (he : entries = [(path, value)])
    (hn : node = some (.leaf path value))
  | extension (segment : List UInt8) (below : Suffixes) (he : entries = prefixed segment below)
    (hw : weight below < weight entries) (hp : preimages hash below ⊆ preimages hash entries)
    (hn : node = some (.extension segment (Node.reference hash (build hash below))))
  | branch (hw : ∀ k, weight (startingWith k entries) < weight entries)
    (hp : ∀ k < 16, preimages hash (startingWith k.toUInt8 entries) ⊆ preimages hash entries)
    (hn : node = some (.branch
      ((List.range 16).map fun k =>
        Node.reference hash (build hash (startingWith k.toUInt8 entries)))
      (endingHere entries)))

theorem shape_build (hash : Bytes → Hash) (entries : Suffixes) :
    Shape hash entries (build hash entries) := by
  match entries with
  | [] => exact .empty rfl (by rw [build])
  | [(path, value)] => exact .leaf path value rfl (by rw [build])
  | (path, value) :: second :: rest =>
    by_cases h : 0 < sharedLength path ((path, value) :: second :: rest)
    · refine .extension _ _ (prefixed_dropSegment path _).symm
        (weight_dropSegment_lt h (sharedLength_le _ _)) ?_ ?_
      · rw [preimages.eq_def hash ((path, value) :: second :: rest)]
        simp only [h, ↓reduceDIte]
        exact List.subset_append_right _ _
      · rw [build]
        · simp only [h, ↓reduceDIte]
        · simp
    · refine .branch (fun k => weight_startingWith_lt k (by simp)) ?_ ?_
      · intro k hk
        rw [preimages.eq_def hash ((path, value) :: second :: rest)]
        simp only [h, ↓reduceDIte]
        refine List.subset_append_of_subset_right _ fun x hx => ?_
        exact List.mem_flatMap.mpr ⟨k, List.mem_range.mpr hk, hx⟩
      · rw [build]
        · simp only [h, ↓reduceDIte]
        · simp

theorem referenced_subset_preimages (hash : Bytes → Hash) (entries : Suffixes) :
    Node.referenced (build hash entries) ⊆ preimages hash entries := by
  rw [preimages.eq_def hash entries]
  exact List.subset_append_left _ _

theorem readable_build (hash : Bytes → Hash) (h : Sound entries) :
    Node.Readable (build hash entries) := by
  cases shape_build hash entries with
  | empty he hn =>
    rw [hn]
    trivial
  | leaf path value he hn =>
    have hm : (path, value) ∈ entries := by simp [he]
    rw [hn]
    exact ⟨h.isPath _ hm, h.pathLength _ hm, h.valueLength _ hm⟩
  | extension segment below he hw hp hn =>
    rw [hn]
    -- A map without entries weighs nothing, so there is an entry that begins with the segment.
    cases entries with
    | nil => simp [weight] at hw
    | cons e rest =>
      have hm : (e.1, e.2) ∈ prefixed segment below := he ▸ List.mem_cons_self ..
      obtain ⟨q, hq, _⟩ := mem_prefixed.mp hm
      have hi := h.isPath e (List.mem_cons_self ..)
      have hl := h.pathLength e (List.mem_cons_self ..)
      rw [hq] at hi hl
      rw [List.length_append] at hl
      exact ⟨fun n hn => hi n (List.mem_append_left q hn), by omega,
        Node.length_encode_reference_le hash _⟩
  | branch hw hp hn =>
    rw [hn]
    refine ⟨by simp, ?_, length_endingHere_lt h⟩
    intro s hs
    obtain ⟨k, _, rfl⟩ := List.mem_map.mp hs
    exact Node.length_encode_reference_le hash _

theorem mem_iff_of_parts (ha : Sound a) (hb : Sound b) (hv : endingHere a = endingHere b)
    (hk : ∀ k < 16, ∀ e, e ∈ startingWith k.toUInt8 a ↔ e ∈ startingWith k.toUInt8 b)
    (e : List UInt8 × List UInt8) : e ∈ a ↔ e ∈ b := by
  obtain ⟨p, v⟩ := e
  cases p with
  | nil =>
    by_cases hne : v = []
    · subst hne
      exact ⟨fun h => (ha.nonempty _ h rfl).elim, fun h => (hb.nonempty _ h rfl).elim⟩
    · rw [← endingHere_eq_iff ha hne, ← endingHere_eq_iff hb hne, hv]
  | cons n p =>
    by_cases hn : n < 16
    · have hs := hk n.toNat hn (p, v)
      rwa [Nat.toUInt8_eq, UInt8.ofNat_toNat, mem_startingWith, mem_startingWith] at hs
    · constructor
      · exact fun h => (hn (ha.isPath _ h n (List.mem_cons_self ..))).elim
      · exact fun h => (hn (hb.isPath _ h n (List.mem_cons_self ..))).elim

theorem mem_iff_of_build_eq {hash : Bytes → Hash} {strings : List Bytes}
    (hc : ¬ Collides hash strings) (ha : Sound a) (hb : Sound b)
    (hsa : preimages hash a ⊆ strings) (hsb : preimages hash b ⊆ strings)
    (h : build hash a = build hash b) (e : List UInt8 × List UInt8) : e ∈ a ↔ e ∈ b := by
  -- The induction is on the weight of the first map; the second one follows it through `Shape`.
  induction hw : weight a using Nat.strong_induction_on generalizing a b e with
  | _ w ih =>
    have hsub {c d : Suffixes} (hlt : weight c < weight a) (hcs : Sound c) (hds : Sound d)
        (hcp : preimages hash c ⊆ preimages hash a) (hdp : preimages hash d ⊆ preimages hash b)
        (hr : Node.reference hash (build hash c) = Node.reference hash (build hash d))
        (e : List UInt8 × List UInt8) : e ∈ c ↔ e ∈ d := by
      have hcS := List.Subset.trans hcp hsa
      have hdS := List.Subset.trans hdp hsb
      refine ih (weight c) (hw ▸ hlt) hcs hds hcS hdS ?_ e rfl
      exact Node.reference_inj hc (readable_build hash hcs) (readable_build hash hds)
        (List.Subset.trans (referenced_subset_preimages hash c) hcS)
        (List.Subset.trans (referenced_subset_preimages hash d) hdS) hr
    rcases shape_build hash a with ⟨hae, han⟩ | ⟨p, u, hae, han⟩ | ⟨s, c, hae, haw, hap, han⟩ |
      ⟨haw, hap, han⟩ <;>
    rcases shape_build hash b with ⟨hbe, hbn⟩ | ⟨q, v, hbe, hbn⟩ | ⟨t, d, hbe, hbw, hbp, hbn⟩ |
      ⟨hbw, hbp, hbn⟩ <;>
    rw [han, hbn] at h <;>
    simp only [reduceCtorEq, Option.some.injEq, Node.leaf.injEq, Node.extension.injEq,
      Node.branch.injEq] at h
    · rw [hae, hbe]
    · rw [hae, hbe, h.1, h.2]
    · obtain ⟨rfl, hr⟩ := h
      have hmem := hsub haw (hae ▸ ha).of_prefixed (hbe ▸ hb).of_prefixed hap hbp hr
      obtain ⟨p, v⟩ := e
      rw [hae, hbe, mem_prefixed, mem_prefixed]
      simp only [hmem]
    · obtain ⟨hr, hv⟩ := h
      refine mem_iff_of_parts ha hb hv (fun k hk => ?_) e
      have hrk := List.map_inj_left.mp hr k (List.mem_range.mpr hk)
      exact hsub (haw _) (ha.startingWith _) (hb.startingWith _) (hap k hk) (hbp k hk) hrk

theorem mem_iff_of_root_eq {hash : Bytes → Hash} {strings : List Bytes}
    (hc : ¬ Collides hash strings) (ha : Sound a) (hb : Sound b)
    (hsa : rootPreimages hash a ⊆ strings) (hsb : rootPreimages hash b ⊆ strings)
    (h : Node.root hash (build hash a) = Node.root hash (build hash b))
    (e : List UInt8 × List UInt8) : e ∈ a ↔ e ∈ b := by
  have he := eq_of_not_collides hc (hsa (List.mem_cons_self ..)) (hsb (List.mem_cons_self ..)) h
  have hra := readable_build hash ha
  have hrb := readable_build hash hb
  have hi := Rlp.encode_inj (Node.length_encode_item_lt hra) (Node.length_encode_item_lt hrb)
    (congrArg Bytes.toList he)
  exact mem_iff_of_build_eq hc ha hb (fun x hx => hsa (List.mem_cons_of_mem _ hx))
    (fun x hx => hsb (List.mem_cons_of_mem _ hx)) (Node.item_inj hra hrb hi) e

end ExecutionLayer.Trie
