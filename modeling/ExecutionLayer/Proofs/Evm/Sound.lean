import ExecutionLayer.Proofs.Evm.Arithmetic
import ExecutionLayer.Proofs.Evm.Conservation
import ExecutionLayer.Proofs.Evm.Memory

/-! # Operations without faults

As long as the byte strings of a frame have sizes that are words, and its memory is paid for, no
operation has a fault. Gas that was taken but not used up yet is counted: it pays for memory, for the
frame that is about to be called, or is given back.
-/
namespace ExecutionLayer.Evm
open Exec Step

/-- The frame has a memory of `n` bytes, and `k` of the gas that it has paid are not used up. -/
structure Sized (n k : Nat) (m : Machine) : Prop where
  memory : m.frame.memory.size = n
  dvd : 32 ∣ n
  paid : Gas.memoryCost n + m.frame.gasLeft + k ≤ m.frame.message.gas
  gas : m.frame.message.gas < Nat.pow 2 64
  code : m.frame.code.size < Word.limit
  data : m.frame.message.data.size < Word.limit
  returnData : m.frame.returnData.size < Word.limit
  output : m.frame.output.size < Word.limit
  codes : ∀ a, (m.world.state.account a).code.size < Word.limit
  target : m.world.state.accountExists m.frame.message.currentTarget
  snapshots : m.world.state.snapshots ≠ []
  untraced : m.world.tracer = none

def Fit (m : Machine) : Prop := ∃ n, Sized n 0 m

section Sized
variable {n k : Nat} {m m' : Machine}

theorem Sized.le (h : Sized n k m) {j : Nat} (hj : j ≤ k) : Sized n j m :=
  { h with paid := by have := h.paid; omega }

theorem Sized.fit (h : Sized n k m) : Fit m := ⟨n, h.le (Nat.zero_le k)⟩

theorem Sized.memory_lt (h : Sized n k m) : n < Nat.pow 2 42 :=
  Gas.size_lt_of_memoryCost (by have := h.paid; have := h.gas; omega)

theorem Sized.memory_lt_limit (h : Sized n k m) : n < Word.limit :=
  h.memory_lt.trans (by decide)

theorem Sized.gasLeft_lt (h : Sized n k m) : m.frame.gasLeft + k < Nat.pow 2 64 := by
  have := h.paid
  have := h.gas
  omega

theorem Sized.withGas (h : Sized n k m) {gas j : Nat} (hgas : gas + j ≤ m.frame.gasLeft + k) :
    Sized n j { m with frame := { m.frame with gasLeft := gas } } :=
  { h with
    paid := by
      have := h.paid
      dsimp only
      omega }

theorem Sized.world (h : Sized n k m) {w : World} (hc : State.SameCode m.world.state w.state)
    (hs : w.state.snapshots = m.world.state.snapshots) (ht : w.tracer = none) :
    Sized n k { m with world := w } :=
  { h with
    codes := fun a => (congrArg ByteArray.size (hc.code a)).trans_lt (h.codes a)
    target := hc.lives _ h.target
    snapshots := by
      dsimp only
      rw [hs]
      exact h.snapshots
    untraced := ht }

end Sized

def Sound {α : Type} (Q : α → Machine → Prop) : EStateM.Result Stop Machine α → Prop
  | .ok v m => Q v m
  | .error (.halt _) m => m.frame.output.size < Word.limit
  | .error (.fault _) _ => False
  | .error (.imbalance _) _ => True

/-- From machines of which `P` holds the operation has no fault, and `Q` holds of its result. -/
class Safe (env : Environment) (P : Machine → Prop) {α : Type} (op : Exec α)
    (Q : α → Machine → Prop) : Prop where
  sound : ∀ m, P m → Sound Q (op env m)

section Safe
variable {env : Environment} {α β : Type} {P P' : Machine → Prop} {Q : α → Machine → Prop}
  {R : β → Machine → Prop}

theorem Sound.mono {Q' : α → Machine → Prop} (h : ∀ v m, Q v m → Q' v m)
    {r : EStateM.Result Stop Machine α} (hr : Sound Q r) : Sound Q' r := by
  rcases r with ⟨v, m⟩ | ⟨e | f | f, m⟩
  · exact h v m hr
  · exact hr
  · exact hr
  · trivial

theorem Sound.bind {x : Exec α} {f : α → Exec β} {m : Machine} (hx : Sound Q (x env m))
    (hf : ∀ v m', x env m = .ok v m' → Q v m' → Sound R (f v env m')) :
    Sound R ((x >>= f) env m) := by
  rcases h : x env m with ⟨v, m'⟩ | ⟨e, m'⟩
  · rw [h] at hx
    rw [bind_of_ok h]
    exact hf v m' h hx
  · rw [h] at hx
    rw [bind_of_error h]
    cases e <;> exact hx

theorem Safe.bind {x : Exec α} {f : α → Exec β} (hx : Safe env P x Q)
    (hf : ∀ v, Safe env (Q v) (f v) R) : Safe env P (x >>= f) R :=
  ⟨fun m hm => (hx.sound m hm).bind fun v m' _ hv => (hf v).sound m' hv⟩

theorem Safe.mono {op : Exec α} {Q' : α → Machine → Prop} (h : Safe env P op Q)
    (hP : ∀ m, P' m → P m) (hQ : ∀ v m, Q v m → Q' v m) : Safe env P' op Q' :=
  ⟨fun m hm => (h.sound m (hP m hm)).mono hQ⟩

theorem Safe.pre {op : Exec α} (h : Safe env P op Q) (hP : ∀ m, P' m → P m) : Safe env P' op Q :=
  h.mono hP fun _ _ => id

theorem Safe.post {op : Exec α} {Q' : α → Machine → Prop} (h : Safe env P op Q)
    (hQ : ∀ v m, Q v m → Q' v m) : Safe env P op Q' := h.mono (fun _ => id) hQ

theorem Safe.of_fact {A : Prop} {op : Exec α} (h : A → Safe env P op Q) :
    Safe env (fun m => A ∧ P m) op Q := ⟨fun m hm => (h hm.1).sound m hm.2⟩

theorem Safe.of_exists {ι : Type} {S : ι → Machine → Prop} {op : Exec α}
    (h : ∀ i, Safe env (S i) op Q) : Safe env (fun m => ∃ i, S i m) op Q :=
  ⟨fun m ⟨i, hi⟩ => (h i).sound m hi⟩

theorem Safe.ite {c : Prop} [Decidable c] {x y : Exec α} (hx : c → Safe env P x Q)
    (hy : ¬c → Safe env P y Q) : Safe env P (if c then x else y) Q := by
  split
  · next h => exact hx h
  · next h => exact hy h

theorem safe_pure {v : α} : Safe env P (pure v) fun _ => P := ⟨fun _ h => h⟩

theorem Safe.of_except {r : Except Fault α} {v : α} {f : α → Exec β} (hr : r = .ok v)
    (hf : Safe env P (f v) R) : Safe env P (ofExcept r >>= f) R := by
  subst hr
  exact ⟨fun m hm => hf.sound m hm⟩

variable {n k : Nat}

theorem safe_halt {h : Halt} : Safe env (Sized n k) (halt h) Q := ⟨fun _ hm => hm.output⟩

theorem Safe.unless {c : Prop} [Decidable c] {h : Halt} {f : Unit → Exec α}
    (hf : ¬c → Safe env (Sized n k) (f ()) Q) :
    Safe env (Sized n k) (if c then (halt h >>= fun r => f r) else f ()) Q :=
  .ite (fun _ => safe_halt.bind (Q := fun _ _ => False) fun _ => ⟨fun _ h => absurd h id⟩) hf

end Safe

abbrev Retains (env : Environment) (n k : Nat) {α : Type} (op : Exec α) : Prop :=
  Safe env (Sized n k) op fun _ => Sized n k

abbrev EndsFit (env : Environment) (n k : Nat) {α : Type} (op : Exec α) : Prop :=
  Safe env (Sized n k) op fun _ => Fit

namespace Exec
variable {P : Machine → Prop} {env : Environment} {n k : Nat}

theorem modifyFrame_safe {g : Frame → Frame}
    (h : ∀ f, g f = { f with
      pc := (g f).pc, stack := (g f).stack, logs := (g f).logs, refund := (g f).refund
      running := (g f).running, accountsToDelete := (g f).accountsToDelete
      touchedAccounts := (g f).touchedAccounts, accessedAddresses := (g f).accessedAddresses
      accessedSlots := (g f).accessedSlots }) : Retains env n k (modifyFrame g) := by
  refine ⟨fun m hm => ?_⟩
  change Sized n k { m with frame := g m.frame }
  rw [h m.frame]
  exact { hm with }

theorem fork_known : Safe env P fork fun v m => v = env.fork ∧ P m :=
  ⟨fun _ h => ⟨rfl, h⟩⟩

theorem state_known : Safe env P state fun v m => (∃ m₀, P m₀ ∧ v = m₀.world.state) ∧ P m :=
  ⟨fun m h => ⟨⟨m, h, rfl⟩, h⟩⟩

theorem chargeGas_eq {m : Machine} (hu : m.world.tracer = none)
    (hlt : m.frame.gasLeft < Word.limit) (amount : Nat) : chargeGas amount env m =
      if m.frame.gasLeft < amount then .error (.halt .outOfGas) m
      else .ok () { m with frame := { m.frame with gasLeft := m.frame.gasLeft - amount } } := by
  unfold chargeGas
  rw [bind_of_ok (trace_of_untraced hu _), bind_of_ok frame_ok]
  split
  · rfl
  · rw [if_neg (by omega)]
    rfl

theorem chargeGas_paid (amount : Nat) :
    Safe env (Sized n k) (chargeGas amount) fun _ => Sized n (k + amount) := by
  refine ⟨fun m hm => ?_⟩
  have hlt := hm.gasLeft_lt
  have hlimit : Nat.pow 2 64 < Word.limit := by decide
  rw [chargeGas_eq hm.untraced (by omega)]
  split
  · exact hm.output
  · exact hm.withGas (by omega)

theorem pop_safe : Retains env n k pop :=
  Safe.bind (Q := fun _ => Sized n k) ⟨fun _ h => h⟩ fun f => by
    cases f.stack.back? with
    | none => exact safe_halt
    | some x => exact (modifyFrame_safe fun _ => rfl).bind fun _ => safe_pure

end Exec

/-- The operation leaves the frame as large as it was, with as much left over. -/
def Logic.retaining (env : Environment) (n k : Nat) : Logic where
  holds := Retains env n k
  pure _ := safe_pure
  bind := Safe.bind
  halt _ := safe_halt

section Retaining
variable {env : Environment} {n k : Nat} {α β : Type}

instance : (Logic.retaining env n k).Taking where
  read := ⟨fun _ h => h⟩
  frame := ⟨fun _ h => h⟩
  state := ⟨fun _ h => h⟩
  transient := ⟨fun _ h => h⟩
  pop := pop_safe
  chargeGas amount := (chargeGas_paid amount).post fun _ _ h => h.le (Nat.le_add_right k amount)
  takeGas amount := ⟨fun _ hm => hm.withGas (by omega)⟩
  note hg := modifyFrame_safe fun f => by rw [hg f]

instance (x : Word) : Made (.retaining env n k) (push x) := by
  have : Made (.retaining env n k) (modifyFrame fun f => { f with stack := f.stack.push x }) :=
    ⟨modifyFrame_safe fun _ => rfl⟩
  unfold push
  infer_instance

instance (size : Nat) : Made (.retaining env n k) (Exec.advance size) :=
  ⟨modifyFrame_safe fun _ => rfl⟩

instance : Made (.retaining env n k) next := by
  unfold next
  infer_instance

theorem Made.safe {op : Exec α} [h : Made (.retaining env n k) op] : Retains env n k op := h.holds

instance (priority := low) {op : Exec α} [h : Made (.retaining env n k) op] : EndsFit env n k op :=
  h.safe.post fun _ _ h => h.fit

theorem Safe.after {x : Exec α} [hx : Made (.retaining env n k) x] {f : α → Exec β}
    {R : β → Machine → Prop} (hf : ∀ v, Safe env (Sized n k) (f v) R) :
    Safe env (Sized n k) (x >>= f) R := hx.safe.bind hf

instance {x : Exec α} [Made (.retaining env n k) x] {f : α → Exec β}
    [hf : ∀ v, EndsFit env n k (f v)] : EndsFit env n k (x >>= f) := .after hf

end Retaining

namespace Exec
variable {env : Environment} {n k : Nat}

theorem pushNat_safe {v : Nat} (h : v < Word.limit) : Retains env n k (pushNat v) :=
  .of_except (Word.ofNat?_of_lt h) Made.safe

theorem memoryExtension_safe (ranges : List (Nat × Nat)) :
    Safe env (Sized n k) (memoryExtension ranges) fun e m => e.Covers n ranges ∧ Sized n k m := by
  refine ⟨fun m hm => ⟨?_, hm⟩⟩
  rw [hm.memory]
  exact Gas.extendMemory_covers hm.dvd ranges

theorem expandMemory_safe {ranges : List (Nat × Nat)} {e : Gas.Extension} (he : e.Covers n ranges) :
    Safe env (Sized n (k + e.cost)) (expandMemory e.expandBy) fun _ =>
      Sized (n + e.expandBy) k := by
  refine ⟨fun m hm => ?_⟩
  have hpaid := hm.paid
  have hcost := he.cost
  have hgas := hm.gas
  unfold expandMemory
  split
  · next hne =>
    have hlt : n + e.expandBy < Nat.pow 2 42 := Gas.size_lt_of_memoryCost (by omega)
    have hlimit : e.expandBy < Capacity.limit :=
      (Nat.lt_of_le_of_lt (Nat.le_add_left _ n) hlt).trans (by decide)
    have hallot : ofExcept (Capacity.allot e.expandBy) env m = .ok () m := by
      simp only [Capacity.allot, require, hlimit, decide_true, ↓reduceIte]
      rfl
    rw [bind_of_ok hallot]
    exact {
      hm with
      memory := by
        change (m.frame.memory ++ Bytes.zeros _).size = _
        rw [ByteArray.size_append, Bytes.size_zeros, hm.memory]
      dvd := Nat.dvd_add hm.dvd he.dvd
      paid := by
        change _ + m.frame.gasLeft + _ ≤ m.frame.message.gas
        omega }
  · next heq =>
    have hzero : e.expandBy = 0 := by simpa using heq
    rw [hzero]
    exact hm.le (Nat.le_add_right k _)

theorem chargeWithMemory_safe (amount : Nat) (ranges : List (Nat × Nat)) :
    Safe env (Sized n k) (chargeWithMemory amount ranges) fun _ m =>
      ∃ n', (∀ r ∈ ranges, r.2 = 0 ∨ r.1 + r.2 ≤ n') ∧ Sized n' k m := by
  refine (memoryExtension_safe ranges).bind fun e => .of_fact fun he => ?_
  refine (chargeGas_paid _).bind fun _ => ?_
  refine (expandMemory_safe (k := k) he).mono (fun _ hm => hm.le (by omega)) fun _ _ hm => ?_
  exact ⟨_, he.covers, hm⟩

theorem readMemory_safe (start size : Nat) :
    Safe env (Sized n k) (readMemory start size) fun b m => b.size ≤ n ∧ Sized n k m :=
  ⟨fun _ hm => ⟨(Bytes.size_part_le _ _ _).trans hm.memory.le, hm⟩⟩

theorem readMemory_size (start size : Nat) :
    Safe env (Sized n k) (readMemory start size) fun b m => b.size ≤ size ∧ Sized n k m := by
  refine ⟨fun m hm => ⟨?_, hm⟩⟩
  unfold Bytes.part
  rw [ByteArray.size_extract]
  omega

theorem writeMemory_safe {start : Nat} {value : Bytes} (h : value.size = 0 ∨ start + value.size ≤ n)
    : Retains env n k (writeMemory start value) := by
  refine ⟨fun m hm => ?_⟩
  have hsize : (m.frame.memory.splice start value).size = n := by
    rw [Bytes.size_splice (by rw [hm.memory]; exact h), hm.memory]
  exact { hm with memory := hsize }

end Exec

section Expanding
variable {env : Environment} {n k amount : Nat} {ranges : List (Nat × Nat)} {α : Type}
  {f : Unit → Exec α}

theorem Safe.expanding {R : α → Machine → Prop} (hf : ∀ n',
      (∀ r ∈ ranges, r.2 = 0 ∨ r.1 + r.2 ≤ n') → Safe env (Sized n' k) (f ()) R) :
    Safe env (Sized n k) (chargeWithMemory amount ranges >>= f) R :=
  (chargeWithMemory_safe amount ranges).bind fun _ => .of_exists fun n' => .of_fact (hf n')

instance (priority := high) [h : ∀ n, EndsFit env n k (f ())] :
    EndsFit env n k (chargeWithMemory amount ranges >>= f) := .expanding fun n' _ => h n'

end Expanding

end ExecutionLayer.Evm
