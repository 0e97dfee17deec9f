import ExecutionLayer.Evm.Precompile
import ExecutionLayer.Evm.Step
import ExecutionLayer.Proofs.Evm.Quiet
import ExecutionLayer.Proofs.State.Balance

/-! # What instructions change and cost

Most instructions are quiet. Those that write storage or a log are steady: they change neither a
balance nor a snapshot. Every instruction that lets the frame go on has a price.
-/
set_option synthInstance.maxSize 100000
namespace ExecutionLayer.Evm
open Exec Step
variable {α β : Type} {cost : Int} {c : Prop} {L : Logic}

def Opcode.Writes : Opcode → Prop
  | .sstore | .tstore | .log _ => True
  | _ => False

section Taking
variable [hL : L.Taking]

instance : Made L popRanges := by unfold popRanges; infer_instance

instance popMany_made (n : Nat) : Made L (popMany n) := by
  induction n with
  | zero => exact inferInstanceAs (Made L (pure []))
  | succ n _ =>
    unfold popMany
    infer_instance

instance (gas value memoryCost : Nat) (codeAddress : Address) (createCost : Nat) :
    Made L (priceCall gas value memoryCost codeAddress createCost) := by
  dsimp only [priceCall]
  infer_instance

instance : Made L withdrawCreateGas := by
  have (gas : Nat) : Made L (modifyFrame fun f => { f with gasLeft := f.gasLeft - gas }) :=
    ⟨hL.takeGas gas⟩
  dsimp only [withdrawCreateGas]
  infer_instance

instance (address : Address) : Made L (destroyCost address) := by
  dsimp only [destroyCost, beneficiaryAccessCost]
  infer_instance

end Taking

section Basic
variable [hL : L.Basic]

instance (b : Bytes) : Made L (setReturnData b) := ⟨hL.change fun _ => rfl⟩

instance (key new : Word) : Made L (priceChange key new) := by
  dsimp only [priceChange]
  infer_instance

end Basic

section Moving
variable [hL : L.Moving]

instance (i j : Nat) : Made L (modifyFrame fun f =>
    { f with stack := f.stack.swapIfInBounds i j }) := ⟨hL.move fun _ => rfl⟩

instance (place : Nat) : Made L (jumpTo place) := by
  have : Made L (modifyFrame fun f => { f with pc := place }) := ⟨hL.move fun _ => rfl⟩
  unfold jumpTo
  infer_instance

instance : Made L setOutput := by
  have (output : Bytes) : Made L (modifyFrame fun f => { f with output := output }) :=
    ⟨hL.change fun _ => rfl⟩
  unfold setOutput
  infer_instance

instance : Made L ret := by unfold ret; infer_instance
instance : Made L stop := by unfold stop; infer_instance

end Moving

class Positive (n : Nat) : Prop where
  pos : 1 ≤ n

instance (n : Nat) : Positive (n + 1) := ⟨Nat.le_add_left 1 n⟩
instance {m n : Nat} [h : Positive m] : Positive (m + n) := ⟨h.pos.trans (Nat.le_add_right m n)⟩

instance {m n : Nat} [Decidable c] [hm : Positive m] [hn : Positive n] :
    Positive (if c then m else n) := by
  split
  · exact hm
  · exact hn

/-- The operation changes a machine only as `R` allows, and it has a price. -/
class Pays (R : Machine → Machine → Prop) {α : Type} (op : Exec α) : Prop where
  keeps : Keeps R 1 op

section Pays
variable {R : Machine → Machine → Prop} [IsPreorder Machine R] {x : Exec α} {f : α → Exec β}
  {y z : Exec β}

instance (priority := high) [hx : Pays R x] [hf : ∀ a, Made (.keeping R) (f a)] :
    Pays R (x >>= f) := ⟨hx.keeps.pay fun a => (hf a).holds⟩

instance [hx : Made (.keeping R) x] [hf : ∀ a, Pays R (f a)] : Pays R (x >>= f) :=
  ⟨hx.holds.skip fun a => (hf a).keeps⟩

instance [Decidable c] [hy : Pays R y] [hz : Pays R z] : Pays R (if c then y else z) :=
  ⟨.ite hy.keeps hz.keeps⟩

instance {h : Halt} [hh : h.IsPlain] : Pays R (halt h : Exec α) := ⟨keeps_halt hh.ne⟩

instance [hR : AllowsRest R] {amount : Nat} [h : Positive amount] : Pays R (chargeGas amount) :=
  ⟨(chargeGas_rests amount).mono hR.rest (by have := h.pos; omega)⟩

variable [hR : AllowsQuiet R]

instance {amount : Nat} [h : Positive amount] (ranges : List (Nat × Nat)) :
    Pays R (chargeWithMemory amount ranges) :=
  ⟨(chargeWithMemory_quiet amount ranges).mono hR.quiet (by have := h.pos; omega)⟩

theorem queryAccount_pays {cost : Fork → Nat} (h : ∀ fork, 1 ≤ cost fork)
    (value : Account → Except Fault Word) : Pays R (queryAccount cost value) := by
  refine ⟨Made.kept.skip fun address => .skipOf Made.kept (accountAccessCost_pos h address)
    fun price hprice => ?_⟩
  have : Positive price := ⟨hprice⟩
  exact Pays.keeps

theorem copyExternalCode_pays : Pays R copyExternalCode := by
  refine ⟨Made.kept.skip fun address => Made.kept.skip fun _ => Made.kept.skip fun _ =>
    Made.kept.skip fun _ => .skipOf Made.kept (accountAccessCost_pos
      (fun fork => by cases fork <;> decide) address) fun access haccess => ?_⟩
  have : Positive access := ⟨haccess⟩
  exact Pays.keeps

instance : Pays R jump := by dsimp only [jump, Gas.mid]; infer_instance
instance : Pays R jumpi := by dsimp only [jumpi, Gas.high]; infer_instance
instance : Pays R jumpdest := by dsimp only [jumpdest, Gas.jumpdest]; infer_instance

theorem move_pays {op : Opcode} (hw : op.Writes → Pays R (move op)) : Pays R (move op) := by
  have hsload (fork : Fork) : Positive (Gas.sload fork) := ⟨by cases fork <;> decide⟩
  cases op
  case sstore | tstore | log => exact hw trivial
  case extcodecopy => exact copyExternalCode_pays
  case balance | extcodesize | extcodehash =>
    dsimp only [move, lookUp]
    exact queryAccount_pays (fun fork => by cases fork <;> decide) _
  all_goals
    dsimp only [move, lookUp, compute, unary, binary, binaryTotal, ternary, exp, dropTop,
      pushImmediate, dup, swap, query, queryNat, selfBalance, blockHash, blobHash, callDataLoad,
      mload, mstore, mstore8, mcopy, copy, copyReturnData, keccak, sload, tload, Gas.base,
      Gas.veryLow, Gas.low, Gas.mid, Gas.keccak, Gas.warmAccess, Gas.coldSlot, Gas.selfBalance,
      Gas.blockHash, Gas.blobHash, Arithmetic.expCost]
    infer_instance

end Pays

theorem move_quiet {op : Opcode} (hw : ¬op.Writes) : Keeps Quiet 1 (move op) :=
  (move_pays fun h => absurd h hw).keeps

namespace Step

theorem netChange_cost_pos {read update : Nat} (hr : 1 ≤ read) (hu : 1 ≤ update)
    (clearRefund : Nat) (start current new : Word) :
    1 ≤ (netChange clearRefund read update start current new).cost := by
  unfold netChange
  dsimp only
  split
  · split
    · decide
    · exact hu
  · exact hr

theorem priceChange_pos (key new : Word) : Yields (fun change => 1 ≤ change.cost)
    (priceChange key new) := by
  refine .bind fun fork => .bind fun m => .bind fun s => .ite (fun _ => ?_) fun _ => ?_
  · refine yields_pure ?_
    unfold grossChange
    dsimp only
    split <;> decide
  · refine .bind fun _ => .unless (.bind fun _ => .bind fun _ => .ite (fun _ => ?_) fun _ => ?_)
    · exact yields_pure (netChange_cost_pos (by cases fork <;> decide) (by decide) _ _ _ _)
    · refine .bind fun warm => yields_pure ?_
      have hc := netChange_cost_pos (by decide : 1 ≤ Gas.warmAccess)
        (by decide : 1 ≤ Gas.storageUpdate - Gas.coldSlot)
      exact Nat.le_trans (hc _ _ _ _) (Nat.le_add_left _ _)

end Step

/-- Balances and snapshots are the same, and so is what the frame has marked for deletion. -/
structure Steady (m m' : Machine) : Prop where
  balances : ∀ a, m'.world.state.balance a = m.world.state.balance a
  snapshots : m'.world.state.snapshots = m.world.state.snapshots
  transientSnapshots : m'.world.transient.snapshots = m.world.transient.snapshots
  untraced : m.world.tracer = none → m'.world.tracer = none
  message : m'.frame.message = m.frame.message
  accountsToDelete : m'.frame.accountsToDelete = m.frame.accountsToDelete
  error : m'.frame.error = m.frame.error

instance : IsPreorder Machine Steady where
  refl _ := ⟨fun _ => rfl, rfl, rfl, id, rfl, rfl, rfl⟩
  trans _ _ _ h h' :=
    ⟨fun a => .trans (h'.balances a) (h.balances a), .trans h'.snapshots h.snapshots,
      .trans h'.transientSnapshots h.transientSnapshots, h'.untraced ∘ h.untraced,
      .trans h'.message h.message, .trans h'.accountsToDelete h.accountsToDelete,
      .trans h'.error h.error⟩

theorem Quiet.steady {m m' : Machine} (h : Quiet m m') : Steady m m' :=
  ⟨fun a => by rw [h.state], by rw [h.state], by rw [h.transient], h.untraced, h.message,
    h.accountsToDelete, h.error⟩

instance : AllowsQuiet Steady := ⟨Quiet.steady⟩

theorem Keeps.steady {op : Exec α} (h : Keeps Quiet cost op) :
    Keeps Steady cost op := h.mono Quiet.steady le_rfl

namespace Step

theorem setStorage_steady (target : Address) (key new : Word) : Keeps Steady 0
    (onWorld (.onState .fault (State.step (·.setStorage target key new)))) := by
  refine ⟨fun env m => ?_⟩
  unfold onWorld WorldOp.onState State.step State.setStorage
  by_cases h : (m.world.state.account? target).isSome
  · simp only [h, ↓reduceIte]
    exact ⟨⟨fun _ => rfl, rfl, rfl, id, rfl, rfl, rfl⟩, by simp⟩
  · simp only [h, ↓reduceIte, Bool.false_eq_true]
    exact ⟨⟨fun _ => rfl, rfl, rfl, id, rfl, rfl, rfl⟩, trivial⟩

theorem addRefund_steady (amount : Int) : Keeps Steady 0 (addRefund amount) :=
  keeps_modifyFrame (fun _ => ⟨fun _ => rfl, rfl, rfl, id, rfl, rfl, rfl⟩) (by simp)

theorem move_steady (op : Opcode) : Keeps Steady 1 (move op) := by
  refine (move_pays fun hw => ?_).keeps
  cases op
  case sstore =>
    refine ⟨Made.kept.skip fun key => Made.kept.skip fun new => .skipOf Made.kept
      (priceChange_pos key new) fun change hchange => (addRefund_steady _).skip fun _ => ?_⟩
    have : Positive change.cost := ⟨hchange⟩
    have (target : Address) : Made (.keeping Steady) _ := ⟨setStorage_steady target key new⟩
    exact Pays.keeps
  case tstore =>
    have (target : Address) (key new : Word) :
        Made (.keeping Steady) (modifyTransient (·.set target key new)) :=
      ⟨⟨fun _ _ => ⟨⟨fun _ => rfl, rfl, rfl, id, rfl, rfl, rfl⟩, by simp⟩⟩⟩
    dsimp only [move, tstore, Gas.warmAccess]
    infer_instance
  case log n =>
    have (topics : List Word) (data : Bytes) : Made (.keeping Steady) (modifyFrame fun f =>
        { f with logs := f.logs ++ [⟨f.message.currentTarget, topics, data⟩] }) :=
      ⟨keeps_modifyFrame (fun _ => ⟨fun _ => rfl, rfl, rfl, id, rfl, rfl, rfl⟩) (by simp)⟩
    dsimp only [move, log, Gas.log]
    infer_instance
  all_goals exact absurd hw id

end Step

section Precompiles
open AltBn128 Pairing Digest

instance (data : Bytes) (start : Nat) : Made L (coordinate data start) := by
  dsimp only [coordinate]
  infer_instance

instance {F : Type} [Coordinate F] (x y : F) : Made L (point x y) := by
  unfold point
  split <;> infer_instance

variable [hL : L.Basic]

instance (data : Bytes) (start : Nat) (acc : Dodecic) : Made L (pairAt data start acc) := by
  dsimp only [pairAt]
  infer_instance

instance product_made (data : Bytes) (pairs start : Nat) (acc : Dodecic) :
    Made L (product data pairs start acc) := by
  induction pairs generalizing start acc with
  | zero => exact inferInstanceAs (Made L (pure acc))
  | succ pairs _ =>
    unfold product
    infer_instance

instance (p : Precompile) (data : Bytes) : Made L (p.answer data) := by
  cases p
  case ecrecover =>
    dsimp only [Precompile.answer, ecrecover]
    cases signer? data <;> infer_instance
  all_goals
    dsimp only [Precompile.answer, Digest.sha256, Digest.ripemd160, identity, chargeByWords,
      ModExp.run, add, mul, check, blake2f, pointEvaluation]
    infer_instance

instance (p : Precompile) : Made L p.run := by
  have (output : Bytes) : Made L (modifyFrame fun f => { f with output := output }) :=
    ⟨hL.change fun _ => rfl⟩
  unfold Precompile.run
  infer_instance

end Precompiles

end ExecutionLayer.Evm
