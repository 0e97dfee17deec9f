import ExecutionLayer.Evm.Interpreter
import ExecutionLayer.Proofs.Evm.Instruction

/-! # Frames that instructions ask for

An instruction that asks for a frame has paid for more than the gas that it gives away. The frame is
one level deeper, and the value that goes with it is there. When it has been run, its caller gets
back what is left of the gas.
-/
set_option synthInstance.maxSize 100000
namespace ExecutionLayer.Evm
open Exec Step

/-- The value that goes with a message is there. Frontier always sends it. -/
def Message.Funded (env : Environment) (s : State) (message : Message) : Prop :=
  message.shouldTransferValue = true ∨ env.fork = .frontier →
    message.value.toNat ≤ s.balance message.caller

structure Asked (env : Environment) (m : Machine) (message : Message) : Prop where
  depth : message.depth = m.frame.message.depth + 1
  le_limit : message.depth ≤ depthLimit
  funded : message.Funded env m.world.state

def Prepared (env : Environment) (cost : Int) (m : Machine) :
    EStateM.Result Stop Machine (Option Pending) → Prop
  | .ok none m' => Steady m m' ∧ m'.frame.gasLeft + cost ≤ (m.frame.gasLeft : Int)
  | .ok (some pending) m' =>
    Steady m m' ∧ m'.frame.gasLeft + pending.message.gas + cost ≤ (m.frame.gasLeft : Int) ∧
      Asked env m' pending.message
  | .error stop m' => Steady m m' ∧ stop.IsPlain

/-- An operation that may ask for a frame, whose gas is part of the price. -/
class Prepares (env : Environment) (cost : Int) (op : Exec (Option Pending)) : Prop where
  prepared : ∀ m, Prepared env cost m (op env m)

section Prepares
variable {env : Environment} {a b : Int} {α : Type} {m : Machine}

theorem Prepared.le {r : EStateM.Result Stop Machine (Option Pending)} (h : Prepared env a m r)
    (hab : b ≤ a) : Prepared env b m r := by
  rcases r with ⟨_ | pending, m'⟩ | ⟨stop, m'⟩
  · exact ⟨h.1, by have := h.2; omega⟩
  · exact ⟨h.1, by have := h.2.1; omega, h.2.2⟩
  · exact h

theorem Prepares.le {op : Exec (Option Pending)} (h : Prepares env a op) (hab : b ≤ a) :
    Prepares env b op := ⟨fun m => (h.prepared m).le hab⟩

theorem Prepared.bind {x : Exec α} {f : α → Exec (Option Pending)}
    (hx : Within Steady a m (x env m))
    (hf : ∀ v m', x env m = .ok v m' → Prepared env b m' (f v env m')) :
    Prepared env (a + b) m ((x >>= f) env m) := by
  cases h : x env m with
  | ok v m' =>
    rw [h] at hx
    have hv := hf v m' h
    rw [bind_of_ok h]
    rcases hr : f v env m' with ⟨_ | pending, m''⟩ | ⟨stop, m''⟩
    · rw [hr] at hv
      exact ⟨IsTrans.trans _ _ _ hx.1 hv.1, by have := hx.2; have := hv.2; omega⟩
    · rw [hr] at hv
      exact ⟨IsTrans.trans _ _ _ hx.1 hv.1, by have := hx.2; have := hv.2.1; omega, hv.2.2⟩
    · rw [hr] at hv
      exact ⟨IsTrans.trans _ _ _ hx.1 hv.1, hv.2⟩
  | error stop m' =>
    rw [h] at hx
    rw [bind_of_error h]
    exact hx

theorem Prepares.skipOf {P : α → Prop} {x : Exec α} {f : α → Exec (Option Pending)}
    (hx : Keeps Steady 0 x) (hP : Yields P x) (hf : ∀ v, P v → Prepares env b (f v)) :
    Prepares env b (x >>= f) :=
  ⟨fun m => (Prepared.bind (hx.within env m) fun v m' h =>
    (hf v (hP env m v m' h)).prepared m').le (by omega)⟩

/-- What is paid first covers the gas that is given back or away later. -/
theorem Prepares.pay {x : Exec α} {f : α → Exec (Option Pending)} (hx : Keeps Steady a x)
    (hf : ∀ v, Prepares env b (f v)) : Prepares env (a + b) (x >>= f) :=
  ⟨fun m => Prepared.bind (hx.within env m) fun v m' _ => (hf v).prepared m'⟩

theorem Prepares.skip {x : Exec α} {f : α → Exec (Option Pending)} [hx : Made (.keeping Steady) x]
    (hf : ∀ v, Prepares env b (f v)) : Prepares env b (x >>= f) :=
  (Prepares.pay hx.holds hf).le (by omega)

instance {x : Exec α} {f : α → Exec (Option Pending)} [Made (.keeping Steady) x]
    [hf : ∀ v, Prepares env b (f v)] : Prepares env b (x >>= f) := .skip hf

instance (priority := high) {x : Exec α} {f : α → Exec (Option Pending)} [hx : Pays Steady x]
    [hf : ∀ v, Prepares env 0 (f v)] : Prepares env 1 (x >>= f) := .pay hx.keeps hf

instance {c : Prop} [Decidable c] {x y : Exec (Option Pending)} [hx : Prepares env a x]
    [hy : Prepares env a y] : Prepares env a (if c then x else y) := by
  split
  · exact hx
  · exact hy

instance : Prepares env 0 (pure none) := ⟨fun m => ⟨refl m, by omega⟩⟩

end Prepares

namespace Gas
variable {value gas gasLeft memoryCost extraGas : Nat}

theorem maxCallGas_mono {a b : Nat} (h : a ≤ b) : maxCallGas a ≤ maxCallGas b := by
  unfold maxCallGas
  omega

theorem callGas_of_le (h : extraGas + memoryCost ≤ gasLeft) :
    callGas value gas gasLeft memoryCost extraGas = callGasUnlimited value
      (min gas (maxCallGas (gasLeft - memoryCost - extraGas))) extraGas :=
  if_neg (Nat.not_lt.mpr h)

/-- A call that cannot be paid without its gas asks for all of it, and so cannot be paid either. -/
theorem callGas_payable_iff : (callGas value gas gasLeft memoryCost extraGas).cost + memoryCost ≤
    gasLeft ↔ extraGas + memoryCost ≤ gasLeft := by
  by_cases h : extraGas + memoryCost ≤ gasLeft
  · rw [callGas_of_le h]
    unfold callGasUnlimited maxCallGas
    dsimp only
    omega
  · rw [callGas, if_pos (Nat.not_le.mp h)]
    unfold callGasUnlimited
    dsimp only
    omega

theorem stipend_callGas_mono {gas' gasLeft' : Nat} (hgas : gas ≤ gas') (hleft : gasLeft ≤ gasLeft')
    (h : extraGas + memoryCost ≤ gasLeft) :
    (callGas value gas gasLeft memoryCost extraGas).stipend ≤
      (callGas value gas' gasLeft' memoryCost extraGas).stipend := by
  rw [callGas_of_le h, callGas_of_le (h.trans hleft)]
  refine Nat.add_le_add_right (min_le_min hgas (maxCallGas_mono ?_)) _
  omega

/-- A call can be paid if and only if what it costs besides its gas can. Then a 64th of what remains
is kept back, the callee gets what is asked for up to the rest, and a stipend if value goes with it,
and it gets no less if more is asked for or there. -/
theorem call_keeps_64th (value gas gasLeft memoryCost extraGas : Nat) :
    let price := callGas value gas gasLeft memoryCost extraGas
    let rest := gasLeft - memoryCost - extraGas
    (price.cost + memoryCost ≤ gasLeft ↔ extraGas + memoryCost ≤ gasLeft) ∧
    (extraGas + memoryCost ≤ gasLeft →
      rest / 64 ≤ gasLeft - (price.cost + memoryCost) ∧
      price.stipend = min gas (rest - rest / 64) + (if value = 0 then 0 else 2300) ∧
      ∀ gas' gasLeft', gas ≤ gas' → gasLeft ≤ gasLeft' →
        price.stipend ≤ (callGas value gas' gasLeft' memoryCost extraGas).stipend) := by
  refine ⟨callGas_payable_iff, fun h => ⟨?_, ?_, fun _ _ hgas hleft =>
    stipend_callGas_mono hgas hleft h⟩⟩
  · rw [callGas_of_le h]
    unfold callGasUnlimited maxCallGas
    dsimp only
    omega
  · rw [callGas_of_le h]
    rfl

/-- All is asked for, a 64th of what remains is kept back, and the callee has the stipend too. -/
theorem call_keeps_64th_greedy : (700 + 9 ≤ 7109) ∧ (callGas 1 7000 7109 9 700).stipend = 8600 ∧
    100 ≤ 7109 - ((callGas 1 7000 7109 9 700).cost + 9) ∧
    8600 ≤ (callGas 1 7000 7200 9 700).stipend := by
  obtain ⟨hkept, hstipend, hmono⟩ := (call_keeps_64th 1 7000 7109 9 700).2 (by decide)
  exact ⟨by decide, hstipend, hkept, hstipend.ge.trans (hmono 7000 7200 (by decide) (by decide))⟩

end Gas

namespace Step
variable {env : Environment}

theorem addGas_rests (n : Nat) : Keeps Resting (-n) (addGas n) :=
  keeps_modifyFrame (fun _ => ⟨⟨rfl, rfl, id, rfl, rfl, rfl, rfl, rfl, rfl⟩, rfl, rfl, rfl, rfl, id⟩)
    fun f => by
      change ((f.gasLeft + n : Nat) : Int) + -n ≤ f.gasLeft
      omega

theorem addGas_quiet (n : Nat) : Keeps Quiet (-n) (addGas n) := (addGas_rests n).quiet

instance : Prepares env 0 decline := by unfold decline; infer_instance

instance (n : Nat) : Prepares env (-n) (do addGas n; decline) :=
  (Prepares.pay (addGas_quiet n).steady fun _ => (inferInstance : Prepares env 0 decline)).le
    (by omega)

theorem enter_prepared {c : Call} {m : Machine} (r : Ranges)
    (hf : c.transfersValue = true ∨ env.fork = .frontier →
      c.value.toNat ≤ m.world.state.balance c.caller) :
    Prepared env (-c.gas) m (enter c r env m) := by
  refine (Prepared.bind (b := -c.gas) (Made.kept.within env m)
    fun _ m₁ h₁ => ?_).le (by omega)
  have hs : m₁.world.state = m.world.state := by cases h₁; rfl
  rw [bind_of_ok frame_ok]
  split
  · exact Prepares.prepared m₁
  · next hd =>
    refine ⟨refl m₁, ?_, rfl, ?_, fun ht => ?_⟩
    · change (m₁.frame.gasLeft : Int) + c.gas + -c.gas ≤ m₁.frame.gasLeft
      omega
    · change m₁.frame.message.depth + 1 ≤ depthLimit
      omega
    · change c.value.toNat ≤ m₁.world.state.balance c.caller
      rw [hs]
      exact hf ht

instance (gas : Nat) (value : Word) (caller target codeAddress : Address)
    (transfersValue isStatic : Bool) (r : Ranges) : Prepares env (-gas)
      (enterWithValue ⟨gas, value, caller, target, codeAddress, transfersValue, isStatic⟩ r) := by
  refine ⟨fun m => ?_⟩
  unfold enterWithValue
  rw [bind_of_ok state_ok]
  split
  · exact Prepares.prepared m
  · next h => exact enter_prepared r fun _ => Nat.le_of_not_lt h

theorem callGasUnlimited_lt {value gas extra : Nat} (h : Gas.stipend value < extra) :
    (Gas.callGasUnlimited value gas extra).stipend < (Gas.callGasUnlimited value gas extra).cost :=
  Nat.add_lt_add_left h gas

theorem callGas_lt {value gas gasLeft memoryCost extra : Nat} (h : Gas.stipend value < extra) :
    (Gas.callGas value gas gasLeft memoryCost extra).stipend <
      (Gas.callGas value gas gasLeft memoryCost extra).cost := by
  unfold Gas.callGas
  split
  · exact callGasUnlimited_lt h
  · exact callGasUnlimited_lt h

theorem priceCall_lt (gas value memoryCost : Nat) (codeAddress : Address) (createCost : Nat) :
    Yields (fun price => price.stipend < price.cost)
      (priceCall gas value memoryCost codeAddress createCost) := by
  have hextra {access : Nat} (ha : 1 ≤ access) :
      Gas.stipend value < access + createCost + if value = 0 then 0 else Gas.callValue := by
    unfold Gas.stipend Gas.callStipend Gas.callValue
    split <;> omega
  refine Yields.bindOf (accountAccessCost_pos (fun fork => by cases fork <;> decide) codeAddress)
    fun access ha => .bind fun fork => .ite (fun _ => yields_pure ?_) fun _ => .bind fun _ =>
      yields_pure ?_
  · exact callGasUnlimited_lt (hextra ha)
  · exact callGas_lt (hextra ha)

/-- Once a call is paid, its gas can be given away or back, and something is left of the price. -/
instance (priority := high) {gas value memoryCost createCost extensionCost : Nat}
    {codeAddress : Address} {f : Gas.CallGas → Exec (Option Pending)}
    [hf : ∀ price : Gas.CallGas, Prepares env (-price.stipend) (f price)] : Prepares env 1 (do
      let price ← priceCall gas value memoryCost codeAddress createCost
      chargeGas (price.cost + extensionCost)
      f price) :=
  .skipOf Made.kept (priceCall_lt _ _ _ _ _) fun price hp =>
    (Prepares.pay (chargeGas_quiet _).steady fun _ => hf price).le (by omega)

instance : Prepares env 1 call := by dsimp only [call]; infer_instance
instance : Prepares env 1 callcode := by dsimp only [callcode]; infer_instance

theorem delegatecall_prepares (h : env.fork ≠ .frontier) : Prepares env 1 delegatecall := by
  have (gas : Nat) (value : Word) (caller target codeAddress : Address) (r : Ranges) :
      Prepares env (-gas) (enter ⟨gas, value, caller, target, codeAddress, false, false⟩ r) := by
    refine ⟨fun m => enter_prepared r fun ht => ?_⟩
    rcases ht with ht | ht
    · cases ht
    · exact absurd ht h
  dsimp only [delegatecall]
  infer_instance

instance : Prepares env 1 staticcall := by
  have (gas : Nat) (caller target codeAddress : Address) (r : Ranges) :
      Prepares env (-gas) (enter ⟨gas, 0, caller, target, codeAddress, true, true⟩ r) :=
    ⟨fun m => enter_prepared r fun _ => Nat.zero_le _⟩
  dsimp only [staticcall]
  infer_instance

instance (address : Address) : Made (.keeping Steady) (modifyState (·.incrementNonce address)) :=
  ⟨⟨fun _ m => ⟨⟨fun a => m.world.state.balance_incrementNonce address a, rfl, rfl, id, rfl, rfl,
    rfl⟩, by simp⟩⟩⟩

theorem withdrawCreateGas_of_ok {m m' : Machine} {gas : Nat}
    (h : withdrawCreateGas env m = .ok gas m') : gas ≤ m.frame.gasLeft ∧
      m' = { m with frame := { m.frame with gasLeft := m.frame.gasLeft - gas } } := by
  cases h
  refine ⟨?_, rfl⟩
  dsimp only [Gas.maxCallGas]
  split <;> omega

instance (priority := high) {f : Nat → Exec (Option Pending)}
    [hf : ∀ gas : Nat, Prepares env (-gas) (f gas)] : Prepares env 0 (withdrawCreateGas >>= f) := by
  refine ⟨fun m => ?_⟩
  have hrests := (Made.kept : Keeps Steady 0 withdrawCreateGas).within env m
  obtain ⟨gas, m₁, hw⟩ : ∃ gas m₁, withdrawCreateGas env m = .ok gas m₁ := ⟨_, _, rfl⟩
  obtain ⟨hle, rfl⟩ := withdrawCreateGas_of_ok hw
  refine (Prepared.bind (a := gas) (b := -gas) ?_ fun v m' h => ?_).le (by omega)
  · rw [hw] at hrests ⊢
    refine ⟨hrests.1, ?_⟩
    change ((m.frame.gasLeft - gas : Nat) : Int) + gas ≤ m.frame.gasLeft
    omega
  · rw [hw] at h
    cases h
    exact (hf gas).prepared _

def createTail (endowment : Word) (address : Address) (initCode : Bytes) (gas : Nat) :
    Exec (Option Pending) := do
  requireMutable
  setReturnData ByteArray.empty
  let m ← message
  let creator := (← state).account m.currentTarget
  if creator.balance.toNat < endowment.toNat || creator.nonce = maxNonce ||
      depthLimit < m.depth + 1 then
    addGas gas
    decline
  else if (← state).hasCodeOrNonce address then
    modifyState (·.incrementNonce m.currentTarget)
    decline
  else
    modifyState (·.incrementNonce m.currentTarget)
    return some { message := creationMessage (← frame) gas endowment address initCode }

instance (endowment : Word) (address : Address) (initCode : Bytes) (gas : Nat) :
    Prepares env (-gas) (createTail endowment address initCode gas) := by
  refine .skip fun _ => .skip fun _ => ⟨fun m => ?_⟩
  rw [bind_of_ok message_ok, bind_of_ok state_ok]
  split
  · exact Prepares.prepared m
  · next h =>
    simp only [Bool.or_eq_true, decide_eq_true_eq, not_or, Nat.not_lt] at h
    rw [bind_of_ok state_ok]
    split
    · exact ((inferInstance : Prepares env 0 _).prepared m).le (by omega)
    · refine (Prepared.bind (b := -gas) (Made.kept.within env m)
        fun _ m₁ h₁ => ?_).le (by omega)
      cases h₁
      refine ⟨refl _, ?_, rfl, h.2, fun _ => ?_⟩
      · change (m.frame.gasLeft : Int) + gas + -gas ≤ m.frame.gasLeft
        omega
      · change endowment.toNat ≤ (m.world.state.incrementNonce _).balance m.frame.message.currentTarget
        rw [State.balance_incrementNonce]
        exact h.1.1

instance (endowment : Word) (address : Address) (start size : Nat) :
    Prepares env 0 (createAt endowment address start size) := by
  have hrest (initCode : Bytes) : Prepares env 0
    (withdrawCreateGas >>= createTail endowment address initCode) := inferInstance
  unfold createTail at hrest
  dsimp only [createAt]
  infer_instance

instance : Prepares env 1 create := by dsimp only [create, createCost, Gas.create]; infer_instance
instance : Prepares env 1 create2 := by dsimp only [create2, createCost, Gas.create]; infer_instance

end Step
end ExecutionLayer.Evm
