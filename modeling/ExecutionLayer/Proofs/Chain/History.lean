import ExecutionLayer.Proofs.Chain.Hashes
import Mathlib.Data.List.Chain

/-! # The blocks behind a chain

A chain keeps no more than 255 blocks. Behind it is the list of all blocks that have been accepted,
in which each block has its place as its number and names the hash of the block before.
-/
namespace ExecutionLayer

structure Block.Follows (b b' : Block) : Prop where
  number : b'.header.number = b.header.number + 1
  parentHash : b'.header.parentHash = b.header.hash

namespace Chain
variable {fork : Fork} {work : WorkCheck} {c c' : Chain} {block b b' : Block} {l : List Block}
  {i n : Nat}

theorem follows_of_checkBlock {blocks : List Block} (h : checkBlock fork work blocks block = .ok ())
    : ∃ last, blocks.getLast? = some last ∧ last.Follows block := by
  obtain ⟨last, hlast, hvalid, -⟩ := of_checkBlock_ok h
  obtain ⟨hnumber, hparent⟩ := Header.of_validate_ok hvalid
  exact ⟨last, hlast, hnumber, hparent⟩

theorem getElem?_lastOnes {α : Type} (n : Nat) (l : List α) (i : Nat) :
    (lastOnes n l)[i]? = l[l.length - n + i]? := by
  unfold lastOnes
  rw [List.getElem?_drop]

theorem lastOnes_of_length_le {α : Type} {n : Nat} {l : List α} (h : l.length ≤ n) :
    lastOnes n l = l := by
  unfold lastOnes
  rw [Nat.sub_eq_zero_of_le h, List.drop_zero]

theorem lastOnes_concat {α : Type} (n : Nat) (l : List α) (a : α) (hn : 0 < n) :
    lastOnes n (lastOnes n l ++ [a]) = lastOnes n (l ++ [a]) := by
  unfold lastOnes
  rw [← List.drop_append_of_le_length (by omega), List.drop_drop]
  congr 1
  simp only [List.length_drop, List.length_append, List.length_singleton]
  omega

theorem lastOnes_lastOnes {α : Type} {m n : Nat} (h : m ≤ n) (l : List α) :
    lastOnes m (lastOnes n l) = lastOnes m l := by
  unfold lastOnes
  rw [List.drop_drop, List.length_drop]
  congr 1
  omega

/-- The chain has come about by accepting the blocks of the list, one after the other, on top of the
first of them, which has the number zero. -/
inductive History (fork : Fork) (work : WorkCheck) : List Block → Chain → Prop
  | first {c : Chain} {block : Block} : c.blocks = [block] → block.header.number = 0 →
      History fork work [block] c
  | apply {l : List Block} {c c' : Chain} {block : Block} : History fork work l c →
      Chain.apply fork work block c = .ok () c' → History fork work (l ++ [block]) c'

namespace History

theorem ne_nil (h : History fork work l c) : l ≠ [] := by
  cases h <;> simp

theorem blocks (h : History fork work l c) : c.blocks = lastOnes 255 l := by
  induction h with
  | first hb _ =>
    rw [hb, lastOnes_of_length_le]
    rw [List.length_singleton]
    decide
  | apply _ happly ih =>
    obtain ⟨-, -, hblocks⟩ := of_apply_ok happly
    rw [hblocks, ih, lastOnes_concat _ _ _ (by decide)]

theorem getLast?_blocks (h : History fork work l c) : c.blocks.getLast? = l.getLast? := by
  rw [h.blocks, getLast?_lastOnes (by decide)]

theorem follows (h : History fork work l c) (hc : checkBlock fork work c.blocks block = .ok ()) :
    ∃ last, l.getLast? = some last ∧ last.Follows block := by
  rw [← h.getLast?_blocks]
  exact follows_of_checkBlock hc

theorem isChain (h : History fork work l c) : l.IsChain Block.Follows := by
  induction h with
  | first => exact List.isChain_singleton _
  | apply h happly ih =>
    obtain ⟨last, hlast, hfollows⟩ := h.follows (of_apply_ok happly).1
    refine List.isChain_append.mpr ⟨ih, List.isChain_singleton _, ?_⟩
    intro b hb b' hb'
    rw [hlast] at hb
    cases hb
    cases hb'
    exact hfollows

theorem number_first (h : History fork work l c) (hb : l[0]? = some b) : b.header.number = 0 := by
  induction h with
  | first _ hn =>
    cases hb
    exact hn
  | apply h _ ih =>
    rw [List.getElem?_append_left (List.length_pos_of_ne_nil h.ne_nil)] at hb
    exact ih hb

theorem parentHash (h : History fork work l c) (hb : l[n]? = some b) (hb' : l[n + 1]? = some b') :
    b'.header.parentHash = b.header.hash := by
  obtain ⟨hn, rfl⟩ := List.getElem?_eq_some_iff.mp hb
  obtain ⟨hn', rfl⟩ := List.getElem?_eq_some_iff.mp hb'
  exact (List.isChain_iff_getElem.mp h.isChain n hn').parentHash

theorem number (h : History fork work l c) (hb : l[n]? = some b) : b.header.number = n := by
  induction n generalizing b with
  | zero => exact h.number_first hb
  | succ n ih =>
    obtain ⟨hn, rfl⟩ := List.getElem?_eq_some_iff.mp hb
    have hfollows := List.isChain_iff_getElem.mp h.isChain n hn
    rw [hfollows.number, ih (List.getElem?_eq_getElem (by omega))]

theorem number_next (h : History fork work l c)
    (hc : checkBlock fork work c.blocks block = .ok ()) : block.header.number = l.length := by
  obtain ⟨last, hlast, hfollows⟩ := h.follows hc
  have hpos := List.length_pos_of_ne_nil h.ne_nil
  rw [List.getLast?_eq_getElem?] at hlast
  rw [hfollows.number, h.number hlast]
  omega

theorem getElem?_blocks (h : History fork work l c) (i : Nat) :
    c.blocks[i]? = l[l.length - 255 + i]? := by
  rw [h.blocks, getElem?_lastOnes]

theorem length_blocks (h : History fork work l c) : c.blocks.length = min 255 l.length := by
  rw [h.blocks, length_lastOnes]

theorem isChain_blocks (h : History fork work l c) : c.blocks.IsChain Block.Follows := by
  rw [h.blocks]
  exact h.isChain.drop _

end History

end Chain

end ExecutionLayer
