import ExecutionLayer.Proofs.Evm.Containment
import ExecutionLayer.Transaction.Execution

/-! # The gas of transactions

The message of a transaction gets the gas that is left once the transaction itself is paid. Since
frames gain no gas, what is left of it in the end is not more than the transaction had.
-/
namespace ExecutionLayer
open Evm
variable {message : Message} {α : Type} {outcome : Outcome} {env : Environment}

/-- What a message takes over from the request that it was made for, and from the state. -/
structure Evm.Request.Describes (r : Request) (s : State) (message : Message) : Prop where
  caller : message.caller = r.caller
  target : message.target = r.target
  gas : message.gas = r.gas
  value : message.value = r.value
  shouldTransferValue : message.shouldTransferValue = r.shouldTransferValue.getD true
  depth : message.depth = 0
  deletedAbove : message.deletedAbove = ∅
  data : message.data = r.data ∨ message.data = ByteArray.empty
  created : message.target = none → message.code = r.data
  called : ∀ target, message.target = some target →
    message.currentTarget = target ∧ message.code = (s.account target).code

theorem Evm.Request.describes_of_ok {fork : Fork} {s : State} {r : Request}
    (h : r.message fork s = .ok message) : r.Describes s message := by
  obtain ⟨_, _, h⟩ := of_except_ok h
  cases ht : r.target with
  | none =>
    simp only [ht] at h
    split at h
    · cases h
    · cases h
      exact ⟨rfl, ht.symm, rfl, rfl, rfl, rfl, rfl, Or.inr rfl, fun _ => rfl, nofun⟩
  | some target =>
    simp only [ht] at h
    cases h
    refine ⟨rfl, ht.symm, rfl, rfl, rfl, rfl, rfl, Or.inl rfl, nofun, fun target' htarget => ?_⟩
    cases htarget
    exact ⟨rfl, rfl⟩

namespace Transaction
variable {tx : Transaction} {s s' : State}

theorem request_eq {gas : Nat} {r : Request} (h : tx.request env gas = .ok r) :
    r.caller = env.origin ∧ r.target = tx.recipient ∧ r.gas = gas ∧ r.value = tx.value ∧
      r.shouldTransferValue = none := by
  obtain ⟨_, _, h⟩ := of_except_ok h
  cases h
  exact ⟨rfl, rfl, rfl, rfl, rfl⟩

theorem ofExcept_eq_ok {r : Except Rejection α} {a : α}
    (h : BlockOp.ofExcept r s = .ok a s') : r = .ok a ∧ s' = s := by
  cases r with
  | ok b =>
    cases h
    exact ⟨rfl, rfl⟩
  | error e => cases h

theorem ofFault_eq_ok {r : Except Fault α} {a : α}
    (h : BlockOp.ofFault r s = .ok a s') : r = .ok a ∧ s' = s := by
  obtain ⟨h, hs⟩ := ofExcept_eq_ok h
  cases r with
  | ok b =>
    cases h
    exact ⟨rfl, hs⟩
  | error e => cases h

theorem messageGas_le {gas : Nat} (h : tx.messageGas env = .ok gas) : gas ≤ tx.gas := by
  obtain ⟨cost, _, h⟩ := of_except_ok h
  split at h
  · cases h
  · cases h
    exact Nat.sub_le _ _

structure Ready (env : Environment) (tx : Transaction) (s : State) (message : Message)
    (s' : State) : Prop where
  checked : tx.checkLate env s = .ok () s
  paid : tx.payInAdvance env s = .ok () s'
  caller : message.caller = env.origin
  target : message.target = tx.recipient
  gas : message.gas ≤ tx.gas
  value : message.value = tx.value
  shouldTransferValue : message.shouldTransferValue = true
  depth : message.depth = 0

theorem checkLate_eq_ok (h : tx.checkLate env s = .ok () s') : s' = s := by
  unfold checkLate at h
  split at h
  · obtain ⟨_, _, hg, h⟩ := of_seq_ok h
    cases hg
    exact (ofExcept_eq_ok h).2
  · cases h
    rfl

theorem ready_of_prepare (h : tx.prepare env s = .ok message s') : Ready env tx s message s' := by
  obtain ⟨_, s₁, hc, h₁⟩ := of_seq_ok h
  obtain ⟨gas, s₂, hg, h₂⟩ := of_seq_ok h₁
  obtain ⟨_, s₃, hp, h₃⟩ := of_seq_ok h₂
  obtain ⟨r, s₄, hr, h₄⟩ := of_seq_ok h₃
  obtain ⟨_, s₅, hs, h₅⟩ := of_seq_ok h₄
  cases hs
  obtain rfl := checkLate_eq_ok hc
  obtain ⟨hg', rfl⟩ := ofFault_eq_ok hg
  obtain ⟨hr', rfl⟩ := ofFault_eq_ok hr
  obtain ⟨hm, rfl⟩ := ofFault_eq_ok h₅
  have hd := Request.describes_of_ok hm
  obtain ⟨hcaller, htarget, hgas, hvalue, htransfer⟩ := request_eq hr'
  refine ⟨hc, hp, hd.caller.trans hcaller, hd.target.trans htarget, ?_, hd.value.trans hvalue, ?_,
    hd.depth⟩
  · rw [hd.gas, hgas]
    exact messageGas_le hg'
  · rw [hd.shouldTransferValue, htransfer]
    rfl

end Transaction

section TouchTarget
variable (frame : Frame) (s : State) (target : Option Address)

theorem Evm.Frame.touchTarget_eq : frame.touchTarget s target =
    { frame with touchedAccounts := (frame.touchTarget s target).touchedAccounts } := by
  unfold Frame.touchTarget
  split
  · rfl
  · split <;> rfl

theorem Evm.Frame.gasLeft_touchTarget : (frame.touchTarget s target).gasLeft = frame.gasLeft :=
  (congrArg Frame.gasLeft (frame.touchTarget_eq s target) :)

theorem Evm.Frame.refund_touchTarget : (frame.touchTarget s target).refund = frame.refund :=
  (congrArg Frame.refund (frame.touchTarget_eq s target) :)

theorem Evm.Frame.error_touchTarget : (frame.touchTarget s target).error = frame.error :=
  (congrArg Frame.error (frame.touchTarget_eq s target) :)

theorem Evm.Frame.accountsToDelete_touchTarget :
    (frame.touchTarget s target).accountsToDelete = frame.accountsToDelete :=
  (congrArg Frame.accountsToDelete (frame.touchTarget_eq s target) :)

end TouchTarget

theorem Evm.Outcome.of_ofFrame {f : Frame}
    (h : Outcome.ofFrame f = .ok outcome) : outcome.gasLeft = f.gasLeft ∧
      outcome.accountsToDelete = if f.error.isSome then ∅ else f.accountsToDelete := by
  obtain ⟨_, _, h⟩ := of_except_ok h
  cases h
  exact ⟨rfl, rfl⟩

theorem Evm.conclude_cases (message : Message) (frame : Frame) (env : Environment) (w : World) :
    (∃ f, conclude message frame env w = .error (.fault f) w) ∨
      ∃ outcome w', conclude message frame env w = .ok outcome w' ∧
        Outcome.ofFrame frame = .ok outcome ∧ w'.state = w.state := by
  unfold conclude
  cases ho : Outcome.ofFrame frame with
  | error f => exact Or.inl ⟨f, rfl⟩
  | ok outcome =>
    dsimp only
    split
    · exact Or.inl ⟨_, rfl⟩
    · rcases Exec.trace_cases (.transactionEnd (message.gas - frame.gasLeft) frame.output frame.error)
        env ⟨frame, w⟩ with ⟨t, ht, -⟩ | ⟨f, ht⟩
      · exact Or.inr ⟨outcome, _, bind_of_ok (attempt_of_ok ht) _, rfl, rfl⟩
      · exact Or.inl ⟨f, bind_of_error (attempt_of_stop (fun _ => by simp) ht) _⟩

theorem Evm.of_conclude_ok {frame : Frame} {w w' : World}
    (h : conclude message frame env w = .ok outcome w') :
    Outcome.ofFrame frame = .ok outcome ∧ w'.state = w.state := by
  rcases conclude_cases message frame env w with ⟨f, he⟩ | ⟨o, w₁, ho, hof, hs⟩
  · rw [he] at h
    cases h
  · rw [ho] at h
    cases h
    exact ⟨hof, hs⟩

theorem Evm.runCall_gasLeft_le {w w' : World} (h : runCall message env w = .ok outcome w') :
    outcome.gasLeft ≤ message.gas := by
  obtain ⟨_, _, hget, h⟩ := of_bind_ok h
  cases hget
  split at h
  · cases h
    exact Nat.zero_le _
  · obtain ⟨frame, w₁, hl, h⟩ := of_bind_ok h
    obtain ⟨_, _, hget, h⟩ := of_bind_ok h
    cases hget
    rw [(Outcome.of_ofFrame (of_conclude_ok h).1).1, Frame.gasLeft_touchTarget]
    exact (launch_returned hl).gasLeft

theorem of_runMachine_ok {op : WorldOp α} {v : α} {s s' : State}
    (h : BlockOp.runMachine env op s = .ok v s') :
    ∃ w, op env { state := s } = .ok v w ∧ s' = w.state := by
  unfold BlockOp.runMachine at h
  split at h
  · next hop =>
    cases h
    exact ⟨_, hop, rfl⟩
  · cases h

/-- No frame has more gas left than its message had, and so none of the gas that a transaction has
used is negative. -/
theorem gas_never_created (env : Environment) :
    (∀ message w frame w',
      runMessage message env w = .ok frame w' ∨ runCreate runMessage message env w = .ok frame w' →
        frame.gasLeft ≤ message.gas) ∧
    ∀ (tx : Transaction) s message s' outcome s'', tx.prepare env s = .ok message s' →
      BlockOp.runMachine env (runCall message) s' = .ok outcome s'' →
      outcome.gasLeft ≤ message.gas ∧ message.gas ≤ tx.gas := by
  refine ⟨fun message w frame w' h => ?_, fun tx s message s' outcome s'' hp hr => ?_⟩
  · rcases h with h | h
    · exact (runMessage_returned h).gasLeft
    · exact (runCreate_returned h).gasLeft
  · obtain ⟨w, hc, -⟩ := of_runMachine_ok hr
    exact ⟨runCall_gasLeft_le hc, (Transaction.ready_of_prepare hp).gas⟩

/-- A transaction to a contract that stores a word. -/
theorem gas_never_created_store :
    ∃ (tx : Transaction) (message : Message) (s' s'' : State) (outcome : Outcome)
      (frame : Frame) (w' : World),
      tx.prepare default (State.setCode {} 5 ⟨#[0x60, 1, 0x60, 2, 0x55]⟩) = .ok message s' ∧
      BlockOp.runMachine default (runCall message) s' = .ok outcome s'' ∧
      outcome.gasLeft ≤ message.gas ∧ message.gas ≤ tx.gas ∧
      runMessage message default { state := s' } = .ok frame w' ∧
      frame.gasLeft ≤ message.gas := by
  have hrun : (match Transaction.prepare default
        { (default : Transaction) with gas := 51000, recipient := some 5 }
        (State.setCode {} 5 ⟨#[0x60, 1, 0x60, 2, 0x55]⟩) with
      | .ok message s' =>
        match BlockOp.runMachine default (runCall message) s',
          runMessage message default { state := s' } with
        | .ok _ _, .ok _ _ => true
        | _, _ => false
      | .error _ _ => false) = true := by decide +kernel
  split at hrun
  · next message s' hp =>
    split at hrun
    · next outcome s'' frame w' hr hf =>
      obtain ⟨hg, hm⟩ := (gas_never_created default).2 _ _ _ _ _ _ hp hr
      exact ⟨_, message, s', s'', outcome, frame, w', hp, hr, hg, hm, hf,
        (gas_never_created default).1 _ _ _ _ (Or.inl hf)⟩
    · cases hrun
  · cases hrun

end ExecutionLayer
