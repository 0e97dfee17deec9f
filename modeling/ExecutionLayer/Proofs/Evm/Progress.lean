import ExecutionLayer.Proofs.Evm.Changes
import ExecutionLayer.Proofs.Evm.Port

/-! # How far instructions take a frame

An instruction changes the place in the code only at its end, and only if it succeeds. Until then it
leaves the code as it is, the stack within its limit and the memory in whole words. This holds of
instructions whose accesses to memory are checked, whatever the machine.
-/
set_option synthInstance.maxSize 100000
namespace ExecutionLayer.Evm
open Exec Step
variable {α β : Type}

class AllowsInPlace (R : Machine → Machine → Prop) : Prop where
  inPlace : ∀ {m m'}, InPlace m m' → R m m'

instance : AllowsInPlace InPlace := ⟨id⟩
instance : AllowsInPlace Unmoved := ⟨InPlace.unmoved⟩

section InPlace
variable {R : Machine → Machine → Prop} [IsPreorder Machine R] [hR : AllowsInPlace R]

instance : AllowsRest R := ⟨fun h => hR.inPlace h.toInPlace⟩

instance (op : WorldOp α) : Made (.sustaining R) (onWorld op) := by
  refine ⟨⟨fun env => ⟨fun m => hR.inPlace ?_⟩⟩⟩
  unfold onWorld
  cases op env m.world with
  | ok | error => exact ⟨rfl, rfl, rfl, rfl, id⟩

instance : (Logic.sustaining R).Writing where
  tally {g} h := ⟨fun _ => carries_modify fun m => hR.inPlace <| by
    rw [show g m.frame = _ from h m.frame]
    exact ⟨rfl, rfl, rfl, rfl, id⟩⟩
  modifyState _ := ⟨fun _ => carries_modify fun _ => hR.inPlace ⟨rfl, rfl, rfl, rfl, id⟩⟩
  modifyTransient _ := ⟨fun _ => carries_modify fun _ => hR.inPlace ⟨rfl, rfl, rfl, rfl, id⟩⟩
  onState _ _ := Made.holds

instance (e : Stop) : Made (.sustaining R) (throw e : Exec α) := ⟨sustains_throw e⟩

instance (alarm : Stop) (start size : Nat) :
    Made (.sustaining R) ((Port.checked alarm).read start size) :=
  inferInstanceAs (Made _ (readMemory start size >>= fun value =>
    if value.size = size then pure value else throw alarm))

end InPlace

/-- An operation that, if it succeeds, has led from one place to another as `P` says, given its
result and the marks of the destinations. If it stops, the frame is where it was. -/
class Moves {α : Type} (P : α → Nat → Bytes → Nat → Prop) (op : Exec α) : Prop where
  moved : ∀ {env : Environment} {m m' : Machine} {v : α}, op env m = .ok v m' →
    Orderly m m' ∧ P v m.frame.pc m.frame.destinations m'.frame.pc
  stopped : ∀ {env : Environment} {m m' : Machine} {e : Stop}, op env m = .error e m' →
    Unmoved m m'

abbrev Advances (n : Nat) {α : Type} (op : Exec α) : Prop :=
  Moves (fun _ pc _ pc' => pc' = pc + n) op

section Moves
variable {P : β → Nat → Bytes → Nat → Prop} {x : Exec α} {f : α → Exec β} {y z : Exec β}

theorem Sustains.of_error {σ : Type} {R : σ → σ → Prop} {op : ReaderT Environment (EStateM Stop σ) α}
    (h : Sustains R op) {env : Environment} {s s' : σ} {e : Stop} (hop : op env s = .error e s') :
    R s s' := by
  have hends := h.ends env s
  rw [hop] at hends
  exact hends

instance [hx : Made (.sustaining Unmoved) x] [hf : ∀ a, Moves P (f a)] : Moves P (x >>= f) where
  moved h := by
    obtain ⟨a, m₁, hx₁, hf₁⟩ := of_bind_ok h
    have hunmoved := hx.sustained.of_ok hx₁
    obtain ⟨horderly, hP⟩ := (hf a).moved hf₁
    rw [hunmoved.pc, hunmoved.destinations] at hP
    exact ⟨IsTrans.trans _ _ _ hunmoved.toOrderly horderly, hP⟩
  stopped h := by
    rcases of_bind_error h with hx₁ | ⟨a, m₁, hx₁, hf₁⟩
    · exact hx.sustained.of_error hx₁
    · exact IsTrans.trans _ _ _ (hx.sustained.of_ok hx₁) ((hf a).stopped hf₁)

theorem Moves.of_unmoved [hy : Made (.sustaining Unmoved) y] (hP : ∀ v pc marks, P v pc marks pc) :
    Moves P y where
  moved h := by
    have hunmoved := hy.sustained.of_ok h
    rw [hunmoved.pc]
    exact ⟨hunmoved.toOrderly, hP _ _ _⟩
  stopped h := hy.sustained.of_error h

theorem Moves.mono {Q : β → Nat → Bytes → Nat → Prop} (hy : Moves P y)
    (hPQ : ∀ {v pc marks pc'}, P v pc marks pc' → Q v pc marks pc') : Moves Q y where
  moved h := ⟨(hy.moved h).1, hPQ (hy.moved h).2⟩
  stopped := hy.stopped

instance {c : Prop} [Decidable c] [hy : Moves P y] [hz : Moves P z] :
    Moves P (if c then y else z) := by
  split
  · exact hy
  · exact hz

instance (h : Halt) : Moves P (halt h : Exec β) where
  moved h := by cases h
  stopped h := by
    cases h
    exact refl _

theorem Moves.answer {Q : α → Nat → Bytes → Nat → Prop} (hx : Moves Q x) {b : β}
    (hQ : ∀ {v pc marks pc'}, Q v pc marks pc' → P b pc marks pc') :
    Moves P (x >>= fun _ => pure b) where
  moved h := by
    obtain ⟨a, m₁, hx₁, hb⟩ := of_bind_ok h
    cases hb
    exact ⟨(hx.moved hx₁).1, hQ (hx.moved hx₁).2⟩
  stopped h := by
    rcases of_bind_error h with hx₁ | ⟨a, m₁, -, hb⟩
    · exact hx.stopped hx₁
    · cases hb

instance (n : Nat) : Advances n (Exec.advance n) where
  moved h := by
    cases h
    exact ⟨⟨rfl, rfl, id, id, le_rfl⟩, rfl⟩
  stopped h := by cases h

instance : Advances 1 next := inferInstanceAs (Advances 1 (Exec.advance 1))

end Moves

section Checked
variable (alarm : Stop)

instance (start : Nat) (value : Bytes) :
    Made (.sustaining Unmoved) ((Port.checked alarm).write start value) := by
  refine ⟨⟨fun env => ⟨fun m => ?_⟩⟩⟩
  change Unmoved m (endOf ((if Replaces m.frame.memory start value
    (m.frame.memory.splice start value) then writeMemory start value else throw alarm) env m))
  split
  · next h =>
    refine ⟨⟨rfl, rfl, id, fun hwords => ?_, ?_⟩, rfl⟩
    · exact h.1.symm ▸ hwords
    · exact h.1.ge
  · exact refl m

instance (size : Nat) : Made (.sustaining Unmoved) ((Port.checked alarm).expand size) := by
  change Made _ (if 32 ∣ size then expandMemory size else throw alarm)
  split
  · next hsize =>
    have : Made (.sustaining Unmoved)
        (modifyFrame fun f => { f with memory := f.memory ++ Bytes.zeros size }) := by
      refine ⟨⟨fun _ => carries_modify fun m => ?_⟩⟩
      have hgrown : (m.frame.memory ++ Bytes.zeros size).size = m.frame.memory.size + size := by
        rw [ByteArray.size_append, Bytes.size_zeros]
      refine ⟨⟨rfl, rfl, id, fun hwords => ?_, ?_⟩, rfl⟩
      · exact hgrown.symm ▸ Nat.dvd_add hwords hsize
      · exact hgrown.symm ▸ Nat.le_add_right _ _
    unfold expandMemory
    infer_instance
  · infer_instance

instance (amount : Nat) (ranges : List (Nat × Nat)) :
    Made (.sustaining Unmoved) (chargeVia (.checked alarm) amount ranges) := by
  unfold chargeVia
  infer_instance

end Checked

def Opcode.immediates : Opcode → Nat
  | .push n => n
  | _ => 0

/-- Where an instruction may lead. One that asks for a frame waits where it is. -/
def Lands (op : Opcode) : Option Pending → Nat → Bytes → Nat → Prop
  | none, pc, marks, pc' =>
    pc' = pc ∨ pc' = pc + 1 + op.immediates ∨ isDestination marks pc' = true
  | some _, pc, _, pc' => pc' = pc ∧ op.immediates = 0

section Instructions
variable (alarm : Stop)

theorem jumpTo_moves (place : Nat) :
    Moves (fun _ _ marks pc' => isDestination marks pc' = true) (jumpTo place) where
  moved {env m m' v} h := by
    change (if isDestination m.frame.destinations place then
      modifyFrame fun f => { f with pc := place } else halt .invalidJumpDestination : Exec Unit)
        env m = .ok v m' at h
    split at h
    · next hd =>
      cases h
      exact ⟨⟨rfl, rfl, id, id, le_rfl⟩, hd⟩
    · cases h
  stopped {env m m' e} h := by
    change (if isDestination m.frame.destinations place then
      modifyFrame fun f => { f with pc := place } else halt .invalidJumpDestination : Exec Unit)
        env m = .error e m' at h
    split at h
    · cases h
    · cases h
      exact refl m

theorem move_moves (op : Opcode) : Advances (1 + op.immediates) (moveVia (.checked alarm) op) := by
  have (i j : Nat) : Made (.sustaining Unmoved) (modifyFrame fun f =>
      { f with stack := f.stack.swapIfInBounds i j }) :=
    ⟨⟨fun _ => carries_modify fun m => ⟨⟨rfl, rfl, fun h => by simpa using h, id, le_rfl⟩, rfl⟩⟩⟩
  have (topics : List Word) (data : Bytes) : Made (.sustaining Unmoved) (modifyFrame fun f =>
      { f with logs := f.logs ++ [⟨f.message.currentTarget, topics, data⟩] }) :=
    ⟨Logic.Writing.tally fun _ => rfl⟩
  have (amount : Int) : Made (.sustaining Unmoved) (addRefund amount) :=
    ⟨Logic.Writing.tally fun _ => rfl⟩
  have (g : Transient → Transient) : Made (.sustaining Unmoved) (modifyTransient g) :=
    ⟨Logic.Writing.modifyTransient g⟩
  cases op
  all_goals
    dsimp only [moveVia, keccakVia, copyVia, copyExternalCodeVia, copyReturnDataVia, mloadVia,
      mstoreVia, mstore8Via, mcopyVia, logVia, dropTop, sload, sstore, tload, tstore, pushImmediate,
      dup, swap, lookUp, compute, unary, binary, binaryTotal, ternary, exp, query, queryNat,
      queryAccount, selfBalance, blockHash, blobHash, callDataLoad, Opcode.immediates]
    infer_instance

theorem executeAlone_moves (op : Opcode) :
    Moves (fun _ => Lands op none) (executeAloneVia (.checked alarm) op) := by
  have hnext {op : Opcode} {x : Exec Unit} (h : Advances (1 + op.immediates) x) :
      Moves (fun _ => Lands op none) x :=
    h.mono fun hpc => Or.inr (Or.inl (hpc.trans (Nat.add_assoc _ _ _).symm))
  have hstays {op : Opcode} {x : Exec Unit} [Made (.sustaining Unmoved) x] :
      Moves (fun _ => Lands op none) x := .of_unmoved fun _ _ _ => Or.inl rfl
  have hjump {op : Opcode} (place : Nat) : Moves (fun _ => Lands op none) (jumpTo place) :=
    (jumpTo_moves place).mono fun hd => Or.inr (Or.inr hd)
  have hm := hnext (move_moves alarm op)
  have (output : Bytes) : Made (.sustaining Unmoved) (modifyFrame fun f =>
      { f with output := output }) := ⟨Logic.Basic.change fun _ => rfl⟩
  have : Made (.sustaining Unmoved) (halt .revert : Exec Unit) := ⟨Logic.Giving.revert⟩
  cases op
  case stop | jumpdest => exact hnext (inferInstanceAs (Advances 1 (_ >>= fun _ => next)))
  case jump =>
    have := @hjump .jump
    dsimp only [executeAloneVia, jump]
    infer_instance
  case jumpi =>
    have := @hjump .jumpi
    have := @hnext .jumpi next (inferInstanceAs (Advances 1 next))
    dsimp only [executeAloneVia, jumpi]
    infer_instance
  case ret | revert | selfdestruct =>
    dsimp only [executeAloneVia, retVia, revertVia, setOutputVia]
    exact hstays
  all_goals exact hm

/-- An instruction that asks for a frame waits for it where it is, and goes on at once if there is to
be none. -/
def Waits : Option Pending → Nat → Bytes → Nat → Prop
  | none, pc, _, pc' => pc' = pc + 1
  | some _, pc, _, pc' => pc' = pc

instance : Moves Waits (next >>= fun _ => pure none) :=
  .answer (inferInstanceAs (Advances 1 next)) id

instance (pending : Pending) : Moves Waits (pure (some pending)) where
  moved h := by
    cases h
    exact ⟨refl _, rfl⟩
  stopped h := by cases h

theorem execute_moves (op : Opcode) : Moves (Lands op) (executeVia (.checked alarm) op) := by
  have hwaits {op : Opcode} (hop : op.immediates = 0) {x : Exec (Option Pending)}
      (h : Moves Waits x) : Moves (Lands op) x := by
    refine h.mono fun {v pc marks pc'} hpc => ?_
    cases v with
    | none => exact Or.inr (Or.inl (hop.symm ▸ hpc))
    | some pending => exact ⟨hpc, hop⟩
  have ha : Moves (Lands op) (do executeAloneVia (.checked alarm) op; return none) :=
    (executeAlone_moves alarm op).answer id
  have (g : State → State) : Made (.sustaining Unmoved) (modifyState g) :=
    ⟨Logic.Writing.modifyState g⟩
  cases op
  case create | create2 | call | callcode | delegatecall | staticcall =>
    refine hwaits rfl ?_
    dsimp only [executeVia, createVia, create2Via, createAtVia, callVia, callcodeVia, delegatecallVia,
      staticcallVia, enterWithValueVia, enterVia, decline]
    infer_instance
  all_goals exact ha

theorem resume_advances (pending : Pending) (child : Frame) :
    Advances 1 (pending.resumeVia (.checked alarm) child) := by
  have hrespond : Advances 1 (pending.respondVia (.checked alarm) child) := by
    unfold Pending.respondVia
    split <;> infer_instance
  unfold Pending.resumeVia
  infer_instance

end Instructions

end ExecutionLayer.Evm
