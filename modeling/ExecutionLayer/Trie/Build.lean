import ExecutionLayer.Trie.Node

/-! # Building the nodes

A finite map from nibble lists to values determines its nodes: no key gives none, one key a leaf, a
prefix common to all keys an extension, and else the keys are split by their first nibble.
-/
namespace ExecutionLayer.Trie

/-- What is left of the keys below a node, with their values. -/
abbrev Suffixes := List (List UInt8 × List UInt8)

def sharedLength (path : List UInt8) (entries : Suffixes) : Nat :=
  entries.foldl (fun n entry => min n (commonLength path entry.1)) path.length

def startingWith (nibble : UInt8) : Suffixes → Suffixes
  | [] => []
  | ([], _) :: entries => startingWith nibble entries
  | (b :: rest, value) :: entries =>
    if b = nibble then (rest, value) :: startingWith nibble entries
    else startingWith nibble entries

def dropSegment (n : Nat) (entries : Suffixes) : Suffixes :=
  entries.map fun entry => (entry.1.drop n, entry.2)

/-- The value of the key that has ended; the last one counts. -/
def endingHere (entries : Suffixes) : List UInt8 :=
  entries.foldl (fun value entry => if entry.1.isEmpty then entry.2 else value) []

/-- The number of entries and nibbles that are left. -/
def weight : Suffixes → Nat
  | [] => 0
  | entry :: entries => entry.1.length + 1 + weight entries

@[simp] theorem weight_cons (entry : List UInt8 × List UInt8) (entries : Suffixes) :
    weight (entry :: entries) = entry.1.length + 1 + weight entries := rfl

theorem weight_startingWith_le (nibble : UInt8) (entries : Suffixes) :
    weight (startingWith nibble entries) + (startingWith nibble entries).length ≤
      weight entries := by
  fun_induction startingWith nibble entries with
  | case1 => simp
  | case2 value entries ih => simp; omega
  | case3 rest value entries ih => simp; omega
  | case4 b rest value entries h ih => simp; omega

theorem weight_startingWith_lt (nibble : UInt8) {entries : Suffixes} (h : entries ≠ []) :
    weight (startingWith nibble entries) < weight entries := by
  have le := weight_startingWith_le nibble entries
  cases e : startingWith nibble entries with
  | nil =>
    cases entries with
    | nil => exact absurd rfl h
    | cons entry entries =>
      have : weight [] = 0 := rfl
      rw [weight_cons]
      omega
  | cons entry rest =>
    rw [e] at le
    simp only [List.length_cons] at le
    omega

theorem weight_dropSegment_le (n : Nat) (entries : Suffixes) :
    weight (dropSegment n entries) ≤ weight entries := by
  unfold dropSegment
  induction entries with
  | nil => exact Nat.le_refl _
  | cons entry entries ih =>
    simp only [List.map_cons, weight_cons, List.length_drop]
    omega

theorem weight_dropSegment_lt {n : Nat} {path value : List UInt8} {rest : Suffixes}
    (h : 0 < n) (le : n ≤ path.length) :
    weight (dropSegment n ((path, value) :: rest)) < weight ((path, value) :: rest) := by
  have tail := weight_dropSegment_le n rest
  unfold dropSegment at *
  simp only [List.map_cons, weight_cons, List.length_drop] at *
  omega

theorem foldl_min_le (path : List UInt8) (entries : Suffixes) (n : Nat) :
    entries.foldl (fun n entry => min n (commonLength path entry.1)) n ≤ n := by
  induction entries generalizing n with
  | nil => exact Nat.le_refl n
  | cons entry entries ih => exact Nat.le_trans (ih _) (Nat.min_le_left _ _)

theorem sharedLength_le (path : List UInt8) (entries : Suffixes) :
    sharedLength path entries ≤ path.length :=
  foldl_min_le path entries path.length

def build (hash : Bytes → Hash) (entries : Suffixes) : Option Node :=
  match entries with
  | [] => none
  | [(path, value)] => some (.leaf path value)
  | (path, value) :: rest =>
    let n := sharedLength path ((path, value) :: rest)
    if _h : 0 < n then
      let below := build hash (dropSegment n ((path, value) :: rest))
      some (.extension (path.take n) (Node.reference hash below))
    else
      let subnode (k : Nat) : Rlp.Item :=
        Node.reference hash (build hash (startingWith k.toUInt8 ((path, value) :: rest)))
      some (.branch ((List.range 16).map subnode) (endingHere ((path, value) :: rest)))
termination_by weight entries
decreasing_by
  · exact weight_dropSegment_lt _h (sharedLength_le _ _)
  · exact weight_startingWith_lt _ (by simp)

end ExecutionLayer.Trie
