import ExecutionLayer.Proofs.Chain.BlockHash
import ExecutionLayer.Proofs.Chain.Ommers
import ExecutionLayer.Proofs.Transaction.Approval

/-! # How blocks are refused

A block on top of a chain is tested against the blocks that the chain keeps, its transactions are
decoded and checked, and its withdrawals are paid. What goes wrong on the way breaks a rule, up to a
few cases that are listed.
-/
namespace ExecutionLayer

structure Block.IsOf (fork : Fork) (b : Block) : Prop where
  header : b.header.IsOf fork
  ommers : ∀ o ∈ b.ommers, o.IsOf fork

namespace State
variable {s : State} {a : Address} {x : Word}

theorem withdraw_of_lt (h : s.balance a + x.toNat * 1000000000 < Word.limit) :
    s.withdraw a x = s.addBalance a (x.toNat * 1000000000) := by
  have hx : x.toNat * 1000000000 < Word.limit := (Nat.le_add_left _ _).trans_lt h
  rw [withdraw, except_of_ok (Word.ofNat?_of_lt hx), toNat_ofNat_of_lt hx]

theorem withdraw_of_le (h : Word.limit ≤ s.balance a + x.toNat * 1000000000) :
    s.withdraw a x = .error .overflow := by
  unfold withdraw
  by_cases hx : x.toNat * 1000000000 < Word.limit
  · rw [except_of_ok (Word.ofNat?_of_lt hx), toNat_ofNat_of_lt hx, addBalance_of_le h]
  · exact except_of_error (if_neg hx) _

end State

theorem Body.payWithdrawal_of_lt {w : Withdrawal} {s : State}
    (h : s.balance w.address + w.amount.toNat * 1000000000 < Word.limit) :
    ∃ s', payWithdrawal w s = .ok () s' := by
  have hpaid := (State.withdraw_of_lt h).trans (State.addBalance_of_lt h)
  exact ⟨_, seq_of_ok (BlockOp.step_of_ok hpaid) _⟩

theorem Body.payWithdrawal_of_le {w : Withdrawal} {s : State}
    (h : Word.limit ≤ s.balance w.address + w.amount.toNat * 1000000000) :
    payWithdrawal w s = .error (.fault .overflow) s :=
  seq_of_error (BlockOp.step_of_error (State.withdraw_of_le h)) _

namespace Chain
variable {fork : Fork} {work : WorkCheck} {c : Chain} {block b : Block} {l : List Block}
  {ommer : Header}

/-- What keeps a block from being tested against the blocks below it. -/
inductive IsUntestable (fork : Fork) (work : WorkCheck) (l : List Block) (block : Block) : Prop
  | header {last : Block} : l.getLast? = some last →
      block.header.IsUntestable fork work last.header → IsUntestable fork work l block
  /-- The blob gas of the last block cannot be counted. -/
  | excess {last : Block} {blob : Header.Blob} : Fork.cancun ≤ fork → l.getLast? = some last →
      last.header.blob = .ok blob → 2 ^ 64 ≤ blob.excess.toNat + blob.gasUsed.toNat →
      IsUntestable fork work l block
  /-- The chain has forgotten the parent of an ommer. -/
  | forgotten {ommer : Header} : fork < Fork.paris → ommer ∈ block.ommers →
      ommer.number + 255 ≤ block.header.number → IsUntestable fork work l block
  | ommer {ommer : Header} {parent : Block} : fork < Fork.paris → ommer ∈ block.ommers →
      parent ∈ l → parent.header.number + 1 = ommer.number →
      ommer.IsUntestable fork work parent.header → IsUntestable fork work l block

theorem blockBack_of_lt {blocks : List Block} {n : Nat} (hn : n < blocks.length) :
    ∃ b, blockBack blocks n = .ok b := by
  unfold blockBack
  rw [if_pos hn, List.getElem?_eq_getElem (by omega)]
  exact ⟨_, rfl⟩

theorem History.mem_of_blockBack {n : Nat} (h : History fork work l c)
    (hb : blockBack c.blocks n = .ok b) : b ∈ l ∧ b.header.number + n + 1 = l.length := by
  obtain ⟨hn, hb⟩ := of_blockBack_ok hb
  rw [h.getElem?_blocks] at hb
  have hnumber := h.number hb
  rw [h.length_blocks] at hn hnumber
  exact ⟨List.mem_of_getElem? hb, by omega⟩

theorem History.checkOmmerHeader_refuses (h : History fork work l c)
    (hwork : work = .none ∨ work = .ethash {}) (hl : ∀ b ∈ l, b.IsOf fork) (hb : block.IsOf fork)
    (hn : block.header.number = l.length) (hf : fork < Fork.paris) (ho : ommer ∈ block.ommers) :
    RefusesUnless (IsUntestable fork work l block)
      (checkOmmerHeader fork work c.blocks block.header ommer) := by
  refine (refuses_check _).bind fun _ hplace => ?_
  have hplace : 1 ≤ ommer.number ∧ ommer.number < block.header.number := by
    simpa using Rejection.of_check_ok hplace
  refine (refuses_ofFault ?_).bind fun parent hparent => ?_
  · by_cases hfar : ommer.number + 255 ≤ block.header.number
    · exact Or.inr (.forgotten hf ho hfar)
    · refine Or.inl (blockBack_of_lt ?_)
      rw [h.length_blocks]
      omega
  · obtain ⟨hmem, hnumber⟩ := h.mem_of_blockBack (Rejection.of_ofFault_ok hparent)
    exact (Header.validate_refuses hwork (hb.ommers _ ho) (hl _ hmem).header).mono
      (.ommer hf ho hmem (by omega))

theorem History.checkOmmers_refuses (h : History fork work l c)
    (hwork : work = .none ∨ work = .ethash {}) (hl : ∀ b ∈ l, b.IsOf fork)
    (hb : block.IsOf fork) (hn : block.header.number = l.length) (hf : fork < Fork.paris) :
    RefusesUnless (IsUntestable fork work l block)
      (checkOmmers fork work c.blocks block.header block.ommers) := by
  refine (refuses_check _).bind fun _ _ => .ite (fun _ => refuses_ok ()) fun _ => ?_
  refine RefusesUnless.bind (.forM fun o ho => h.checkOmmerHeader_refuses hwork hl hb hn hf ho)
    fun _ _ => (refuses_check _).bind fun _ _ => (refuses_check _).bind fun _ _ => ?_
  exact .forM fun o _ => (refuses_check _).bind fun _ _ => (refuses_check _).bind fun _ _ =>
    (refuses_check _).bind fun _ _ => (refuses_check _).bind fun _ _ =>
      (refuses_check _).bind fun _ _ => refuses_check _

theorem History.checkBlock_refuses (h : History fork work l c)
    (hwork : work = .none ∨ work = .ethash {}) (hl : ∀ b ∈ l, b.IsOf fork) (hb : block.IsOf fork) :
    RefusesUnless (IsUntestable fork work l block) (checkBlock fork work c.blocks block) := by
  have hpos := List.length_pos_of_ne_nil h.ne_nil
  refine (refuses_ofFault (Or.inl (blockBack_of_lt ?_))).bind fun last hlast => ?_
  · rw [h.length_blocks]
    omega
  have hback := Rejection.of_ofFault_ok hlast
  obtain ⟨hmem, hnumber⟩ := h.mem_of_blockBack hback
  have hlast : l.getLast? = some last := h.getLast?_blocks.symm.trans (of_blockBack_zero hback)
  have hrest : RefusesUnless (IsUntestable fork work l block) (do
      block.header.validate fork work last.header
      if fork < Fork.paris then checkOmmers fork work c.blocks block.header block.ommers
      else Rejection.check block.ommers.isEmpty) := by
    refine ((Header.validate_refuses hwork hb.header (hl _ hmem).header).mono
      (.header hlast)).bind fun _ hvalid => ?_
    have hnext := (Header.of_validate_ok hvalid).1
    exact .ite (h.checkOmmers_refuses hwork hl hb (by omega)) fun _ => refuses_check _
  dsimp only
  refine .ite (fun hf => ?_) fun _ => hrest
  refine (refuses_ofFault ?_).bind fun _ _ =>
    (refuses_ofFault (Or.inl (hb.header.blob_eq hf))).bind fun _ _ =>
      (refuses_check _).bind fun _ _ => hrest
  obtain ⟨blob, hblob⟩ := (hl _ hmem).header.blob_eq hf
  by_cases hover : 2 ^ 64 ≤ blob.excess.toNat + blob.gasUsed.toNat
  · exact Or.inr (.excess hf hlast hblob hover)
  · exact Or.inl ⟨_, (except_of_ok hblob _).trans (if_neg hover)⟩

def laden (n : Nat) (transactions : List Envelope) : Block :=
  { idleBlock n with transactions := transactions }

theorem laden_isOf (n : Nat) (transactions : List Envelope) :
    (laden n transactions).IsOf .paris := by
  have hheader : (idleBlock n).header.IsOf .paris := by
    obtain ⟨hash, h⟩ := idleBlock_header n
    rw [h]
    exact ⟨rfl, rfl, rfl⟩
  have hommers : (idleBlock n).ommers = [] := by cases n <;> rfl
  refine ⟨hheader, fun o ho => ?_⟩
  rw [laden, hommers] at ho
  exact absurd ho List.not_mem_nil

theorem isOf_of_mem_idleBlocks {n : Nat} (hb : b ∈ idleBlocks n) : b.IsOf .paris := by
  obtain ⟨i, -, rfl⟩ := List.mem_map.mp hb
  have h := laden_isOf i []
  exact ⟨h.header, h.ommers⟩

end Chain

end ExecutionLayer
