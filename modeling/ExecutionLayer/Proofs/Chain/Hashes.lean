import ExecutionLayer.Chain
import ExecutionLayer.Proofs.Evm.SoundStep
import ExecutionLayer.Proofs.Header.Validation

/-! # The hashes that a chain knows

The blocks of a chain are numbered one after the other, beginning with its first block. So a chain
knows the hashes of all blocks that one on top of it may ask for: of the latest 256, or of all if
there are less.
-/
namespace ExecutionLayer

namespace Chain
variable {α : Type} {blocks : List Block} {fork : Fork} {work : WorkCheck} {c c' : Chain}
  {block last : Block}

theorem length_lastOnes (n : Nat) (l : List α) : (lastOnes n l).length = min n l.length := by
  unfold lastOnes
  rw [List.length_drop]
  omega

theorem getLast?_lastOnes {n : Nat} (hn : 0 < n) (l : List α) :
    (lastOnes n l).getLast? = l.getLast? := by
  unfold lastOnes
  rw [List.getLast?_drop]
  split
  · next h =>
    have hl : l = [] := List.eq_nil_of_length_eq_zero (by omega)
    rw [hl]
    rfl
  · rfl

theorem of_blockBack_zero (h : blockBack blocks 0 = .ok last) : blocks.getLast? = some last := by
  unfold blockBack at h
  split at h
  · rw [List.getLast?_eq_getElem?]
    split at h
    · next b hb =>
      cases h
      exact hb
    · cases h
  · cases h

theorem of_checkBlock_ok (h : checkBlock fork work blocks block = .ok ()) :
    ∃ last, blocks.getLast? = some last ∧ block.header.validate fork work last.header = .ok () ∧
      (if fork < Fork.paris then checkOmmers fork work blocks block.header block.ommers
        else Rejection.check block.ommers.isEmpty) = .ok () := by
  obtain ⟨parent, hp, h⟩ := of_except_ok h
  refine ⟨parent, of_blockBack_zero (Rejection.of_ofFault_ok hp), ?_⟩
  dsimp only at h
  by_cases hf : Fork.cancun ≤ fork
  · rw [if_pos hf] at h
    obtain ⟨_, -, h⟩ := of_except_ok h
    obtain ⟨_, -, h⟩ := of_except_ok h
    obtain ⟨_, -, h⟩ := of_except_ok h
    obtain ⟨_, hv, ho⟩ := of_except_ok h
    exact ⟨hv, ho⟩
  · rw [if_neg hf] at h
    obtain ⟨_, hv, ho⟩ := of_except_ok h
    exact ⟨hv, ho⟩

theorem number_of_checkBlock (h : checkBlock fork work blocks block = .ok ()) :
    ∃ last, blocks.getLast? = some last ∧ block.header.number = last.header.number + 1 := by
  obtain ⟨last, hlast, hvalid, -⟩ := of_checkBlock_ok h
  exact ⟨last, hlast, (Header.of_validate_ok hvalid).1⟩

/-- A chain that has grown, block by block, from a first block with the number zero. What is done to
its state does not matter. -/
inductive Grown : Chain → Prop
  | first {c : Chain} {block : Block} : c.blocks = [block] → block.header.number = 0 → Grown c
  | apply {c c' : Chain} {fork : Fork} {work : WorkCheck} {block : Block} : Grown c →
      Chain.apply fork work block c = .ok () c' → Grown c'
  | state {c : Chain} (s : State) : Grown c → Grown { c with state := s }

theorem apply_eq : apply fork work block c =
    match checkBlock fork work c.blocks block with
    | .error r => .error r c
    | .ok _ =>
      match Body.apply (environment fork c block.header) (content block) c.state with
      | .error r s => .error r { c with state := s }
      | .ok summary s =>
        if announces fork block.header summary then .ok () (append { c with state := s } block)
        else .error .invalidBlock { c with state := s } := by
  have hget : (get : ChainOp Chain) c = .ok c c := rfl
  have hexcept (r : Except Rejection Unit) : ofExcept r c = match r with
    | .ok u => .ok u c
    | .error e => .error e c := by cases r <;> rfl
  rw [apply, seq_of_ok hget]
  cases hcheck : checkBlock fork work c.blocks block with
  | error r => exact seq_of_error (hexcept _) _
  | ok u =>
    rw [seq_of_ok (hexcept _), seq_of_ok hget]
    cases hbody : Body.apply (environment fork c block.header) (content block) c.state with
    | error r s =>
      have hon : onState (Body.apply (environment fork c block.header) (content block)) c =
          .error r { c with state := s } := by simp only [onState, hbody]
      exact seq_of_error hon _
    | ok summary s =>
      have hon : onState (Body.apply (environment fork c block.header) (content block)) c =
          .ok summary { c with state := s } := by simp only [onState, hbody]
      rw [seq_of_ok hon]
      dsimp only
      cases announces fork block.header summary <;> rfl

theorem of_apply_ok (h : apply fork work block c = .ok () c') :
    checkBlock fork work c.blocks block = .ok () ∧
      (∃ summary, Body.apply (environment fork c block.header) (content block) c.state =
        .ok summary c'.state) ∧
      c'.blocks = lastOnes 255 (c.blocks ++ [block]) := by
  rw [apply_eq] at h
  split at h
  · cases h
  next hcheck =>
  split at h
  · cases h
  next summary s hbody =>
  split at h
  · have happend : append { c with state := s } block = c' := by injection h
    rw [← happend]
    refine ⟨hcheck, ⟨summary, hbody⟩, ?_⟩
    rw [append]
  · cases h

theorem Grown.length_ge (h : Grown c) : ∃ last, c.blocks.getLast? = some last ∧
    min 255 (last.header.number + 1) ≤ c.blocks.length := by
  induction h with
  | @first c block hb hn =>
    refine ⟨block, by rw [hb]; rfl, ?_⟩
    rw [hb, hn, List.length_singleton]
    decide
  | @apply c c' fork work block _ happly ih =>
    obtain ⟨last, hlast, hlen⟩ := ih
    obtain ⟨hcheck, -, hblocks⟩ := of_apply_ok happly
    obtain ⟨last', hlast', hnumber⟩ := number_of_checkBlock hcheck
    rw [hlast] at hlast'
    cases hlast'
    refine ⟨block, ?_, ?_⟩
    · rw [hblocks, getLast?_lastOnes (by decide), List.getLast?_concat]
    · rw [hblocks, length_lastOnes, List.length_append, List.length_singleton, hnumber]
      omega
  | state _ _ ih => exact ih

theorem length_recentHashes (h : c.blocks ≠ []) :
    c.recentHashes.length = min 255 c.blocks.length + 1 := by
  unfold recentHashes
  dsimp only
  rw [getLast?_lastOnes (by decide)]
  cases hl : c.blocks.getLast? with
  | none => exact absurd (List.getLast?_eq_none_iff.mp hl) h
  | some last =>
    dsimp only
    rw [List.length_append, List.length_map, length_lastOnes]
    rfl

structure IsBelow (c : Chain) (env : Evm.Environment) : Prop where
  number : ∃ last, c.blocks.getLast? = some last ∧ env.number = last.header.number + 1
  blockHashes : env.blockHashes = c.recentHashes

theorem Grown.complete {env : Evm.Environment} (h : Grown c) (hb : c.IsBelow env)
    (henv : env.Fits) : env.Complete := by
  refine ⟨henv, ?_⟩
  obtain ⟨last, hlast, hlen⟩ := h.length_ge
  obtain ⟨last', hlast', hnumber⟩ := hb.number
  rw [hlast] at hlast'
  cases hlast'
  have hne : c.blocks ≠ [] := by
    intro hnil
    rw [hnil] at hlast
    cases hlast
  rw [hb.blockHashes, length_recentHashes hne]
  omega

end Chain

end ExecutionLayer
