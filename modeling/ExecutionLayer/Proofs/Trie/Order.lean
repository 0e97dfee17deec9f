import ExecutionLayer.Proofs.Trie.Binding

/-! # The node of a map does not depend on the order of its entries

The builder compares all paths with one of them to find the prefix they share. `Grown` leaves open
which one that is. Every choice finds the same prefix, so the node is determined by the entries as a
set.
-/
namespace ExecutionLayer.Trie
variable {path : List UInt8} {entries a b : Suffixes} {hash : Bytes → Hash}

theorem le_commonLength_iff {n : Nat} {a b : List UInt8} :
    n ≤ commonLength a b ↔ n ≤ a.length ∧ a.take n <+: b := by
  fun_induction commonLength a b generalizing n with
  | case1 as b bs ih =>
    cases n with
    | zero => simp
    | succ n => simp [ih]
  | case2 a as b bs hab =>
    cases n with
    | zero => simp
    | succ n => simp [hab]
  | case3 a b hne =>
    cases n with
    | zero => simp
    | succ n =>
      cases a with
      | nil => simp
      | cons x a =>
        cases b with
        | nil => simp
        | cons y b => exact absurd rfl (hne x a y b rfl)

theorem le_foldl_min_iff {n start : Nat} :
    n ≤ entries.foldl (fun n entry => min n (commonLength path entry.1)) start ↔
      n ≤ start ∧ ∀ e ∈ entries, n ≤ commonLength path e.1 := by
  induction entries generalizing start with
  | nil => simp
  | cons first rest ih => simp [ih, and_assoc]

theorem le_sharedLength_iff {n : Nat} : n ≤ sharedLength path entries ↔
      n ≤ path.length ∧ ∀ p ∈ entries.map Prod.fst, path.take n <+: p := by
  unfold sharedLength
  rw [le_foldl_min_iff]
  constructor
  · rintro ⟨hn, hall⟩
    refine ⟨hn, fun p hp => ?_⟩
    obtain ⟨e, he, rfl⟩ := List.mem_map.mp hp
    exact (le_commonLength_iff.mp (hall e he)).2
  · rintro ⟨hn, hall⟩
    refine ⟨hn, fun e he => le_commonLength_iff.mpr ⟨hn, ?_⟩⟩
    exact hall e.1 (List.mem_map.mpr ⟨e, he, rfl⟩)

theorem sharedLength_le_of_mem {p q : List UInt8} (hq : q ∈ entries.map Prod.fst) :
    sharedLength p entries ≤ sharedLength q entries ∧
      q.take (sharedLength p entries) = p.take (sharedLength p entries) := by
  obtain ⟨hlen, hall⟩ := le_sharedLength_iff.mp (le_refl (sharedLength p entries))
  have hpre := hall q hq
  have htake : q.take (sharedLength p entries) = p.take (sharedLength p entries) := by
    have heq := List.prefix_iff_eq_take.mp hpre
    rw [List.length_take, Nat.min_eq_left hlen] at heq
    exact heq.symm
  refine ⟨le_sharedLength_iff.mpr ⟨?_, ?_⟩, htake⟩
  · have hle := hpre.length_le
    rwa [List.length_take, Nat.min_eq_left hlen] at hle
  · intro r hr
    rw [htake]
    exact hall r hr

theorem sharedLength_eq_of_mem {p q : List UInt8} (hp : p ∈ entries.map Prod.fst)
    (hq : q ∈ entries.map Prod.fst) : sharedLength p entries = sharedLength q entries ∧
      p.take (sharedLength p entries) = q.take (sharedLength q entries) := by
  obtain ⟨hpq, htake⟩ := sharedLength_le_of_mem (p := p) hq
  obtain ⟨hqp, -⟩ := sharedLength_le_of_mem (p := q) hp
  have heq := Nat.le_antisymm hpq hqp
  exact ⟨heq, by rw [← heq, htake]⟩

theorem sharedLength_congr (h : a.Perm b) : sharedLength path a = sharedLength path b := by
  have hle (n : Nat) : n ≤ sharedLength path a ↔ n ≤ sharedLength path b := by
    rw [le_sharedLength_iff, le_sharedLength_iff]
    simp only [(h.map Prod.fst).mem_iff]
  exact Nat.le_antisymm ((hle _).mp le_rfl) ((hle _).mpr le_rfl)

theorem startingWith_perm (hd : (a.map Prod.fst).Nodup) (h : a.Perm b)
    (k : UInt8) : (startingWith k a).Perm (startingWith k b) := by
  have hdb : (b.map Prod.fst).Nodup := (h.map Prod.fst).nodup_iff.mp hd
  have hna := List.Nodup.of_map _ (nodup_startingWith (k := k) hd)
  have hnb := List.Nodup.of_map _ (nodup_startingWith (k := k) hdb)
  refine (List.perm_ext_iff_of_nodup hna hnb).mpr ?_
  rintro ⟨p, v⟩
  rw [mem_startingWith, mem_startingWith, h.mem_iff]

theorem endingHere_congr (hd : (a.map Prod.fst).Nodup) (h : a.Perm b) :
    endingHere a = endingHere b := by
  have hdb : (b.map Prod.fst).Nodup := (h.map Prod.fst).nodup_iff.mp hd
  unfold endingHere
  by_cases hex : ∃ v, ([], v) ∈ a
  · obtain ⟨v, hv⟩ := hex
    rw [endingHere_of_mem hd hv, endingHere_of_mem hdb (h.mem_iff.mp hv)]
  · have hno : ∀ v, ([], v) ∉ a := fun v hv => hex ⟨v, hv⟩
    rw [endingHere_of_absent hno, endingHere_of_absent fun v hv => hno v (h.mem_iff.mpr hv)]

theorem nodup_dropSegment (hd : (entries.map Prod.fst).Nodup) :
    ((dropSegment (sharedLength path entries) entries).map Prod.fst).Nodup := by
  rw [← prefixed_dropSegment path entries] at hd
  unfold prefixed at hd
  rw [List.map_map] at hd
  refine List.Nodup.of_map (path.take (sharedLength path entries) ++ ·) ?_
  rw [List.map_map]
  exact hd

/-- Nodes of the entries for which any path may be taken to find the prefix that all share. -/
inductive Grown (hash : Bytes → Hash) : Suffixes → Option Node → Prop
  | empty : Grown hash [] none
  | leaf (path value : List UInt8) : Grown hash [(path, value)] (some (.leaf path value))
  | extension {entries : Suffixes} {path : List UInt8} {below : Option Node}
    (htwo : 2 ≤ entries.length) (hpath : path ∈ entries.map Prod.fst)
    (hshared : 0 < sharedLength path entries)
    (hbelow : Grown hash (dropSegment (sharedLength path entries) entries) below) :
    Grown hash entries (some (.extension (path.take (sharedLength path entries))
      (Node.reference hash below)))
  | branch {entries : Suffixes} {path : List UInt8} {below : Nat → Option Node}
    (htwo : 2 ≤ entries.length) (hpath : path ∈ entries.map Prod.fst)
    (hshared : sharedLength path entries = 0)
    (hbelow : ∀ k, Grown hash (startingWith k.toUInt8 entries) (below k)) :
    Grown hash entries (some (.branch
      ((List.range 16).map fun k => Node.reference hash (below k)) (endingHere entries)))

theorem two_le_length {e : List UInt8 × List UInt8} {rest : Suffixes} (h : rest ≠ []) :
    2 ≤ (e :: rest).length := by
  have hpos := List.length_pos_iff.mpr h
  rw [List.length_cons]
  omega

theorem grown_build (hash : Bytes → Hash) (entries : Suffixes) :
    Grown hash entries (build hash entries) := by
  fun_induction build hash entries with
  | case1 => exact .empty
  | case2 path value => exact .leaf path value
  | case3 path value rest hrest n hn below ih =>
    exact .extension (two_le_length hrest) (by simp) hn ih
  | case4 path value rest hrest n hn subnode ih =>
    have hpath : path ∈ ((path, value) :: rest).map Prod.fst := by simp
    exact .branch (two_le_length hrest) hpath (Nat.eq_zero_of_not_pos hn) ih

theorem Grown.unique {m n : Option Node}
    (hm : Grown hash entries m) (hn : Grown hash entries n) : m = n := by
  induction hm generalizing n with
  | empty =>
    cases hn with
    | empty => rfl
    | extension htwo => simp at htwo
    | branch htwo => simp at htwo
  | leaf path value =>
    cases hn with
    | leaf => rfl
    | extension htwo => simp at htwo
    | branch htwo => simp at htwo
  | extension htwo hpath hshared _ ih =>
    cases hn with
    | empty => simp at htwo
    | leaf => simp at htwo
    | extension _ hpath' _ hbelow' =>
      obtain ⟨hlen, htake⟩ := sharedLength_eq_of_mem hpath hpath'
      rw [← hlen] at hbelow'
      rw [htake, ih hbelow']
    | branch _ hpath' hshared' _ =>
      have hlen := (sharedLength_eq_of_mem hpath hpath').1
      omega
  | branch htwo hpath hshared _ ih =>
    cases hn with
    | empty => simp at htwo
    | leaf => simp at htwo
    | extension _ hpath' hshared' _ =>
      have hlen := (sharedLength_eq_of_mem hpath hpath').1
      omega
    | branch _ _ _ hbelow' =>
      congr 3
      funext k
      rw [ih k (hbelow' k)]

theorem Grown.perm {node : Option Node}
    (hg : Grown hash a node) (hd : (a.map Prod.fst).Nodup) (h : a.Perm b) : Grown hash b node := by
  induction hg generalizing b with
  | empty =>
    rw [List.nil_perm.mp h]
    exact .empty
  | leaf path value =>
    rw [← List.singleton_perm.mp h]
    exact .leaf path value
  | extension htwo hpath hshared _ ih =>
    rw [sharedLength_congr h] at hshared ⊢
    refine .extension (h.length_eq ▸ htwo) ((h.map Prod.fst).mem_iff.mp hpath) hshared ?_
    rw [← sharedLength_congr h]
    exact ih (nodup_dropSegment hd) (h.map _)
  | branch htwo hpath hshared _ ih =>
    rw [endingHere_congr hd h]
    refine .branch (h.length_eq ▸ htwo) ((h.map Prod.fst).mem_iff.mp hpath) ?_ ?_
    · rw [← sharedLength_congr h, hshared]
    · exact fun k => ih k (nodup_startingWith hd) (startingWith_perm hd h _)

theorem Grown.eq_build_of_perm {node : Option Node}
    (hg : Grown hash a node) (hd : (a.map Prod.fst).Nodup) (h : a.Perm b) : node = build hash b :=
  (hg.perm hd h).unique (grown_build hash b)

end ExecutionLayer.Trie
