import ExecutionLayer.Proofs.Transaction.Conservation

/-! # The parts of a transaction

What is known of each part of a transaction that is accepted: the checks, the payment in advance,
the message, its outcome and the settlement.
-/
namespace ExecutionLayer
open Evm

namespace Evm
variable {env : Environment} {message : Message} {outcome : Outcome} {w w' : World}

theorem touchedAccounts_of_ofFrame {f : Frame} (h : Outcome.ofFrame f = .ok outcome) :
    outcome.touchedAccounts = if f.error.isSome then ∅ else f.touchedAccounts := by
  obtain ⟨_, _, h⟩ := of_except_ok h
  cases h
  rfl

theorem refund_of_ofFrame {f : Frame} (h : Outcome.ofFrame f = .ok outcome) :
    outcome.error = f.error ∧ (f.error = none → (outcome.refund.toNat : Int) = f.refund) := by
  obtain ⟨refund, hrefund, h⟩ := of_except_ok h
  cases h
  refine ⟨rfl, fun he => ?_⟩
  rw [Frame.finalRefund, he, if_neg (by decide)] at hrefund
  split at hrefund
  · cases hrefund
  · next hnonneg =>
    unfold Word.ofNat? at hrefund
    split at hrefund
    · next hlt =>
      cases hrefund
      rw [BitVec.toNat_ofNat, Nat.mod_eq_of_lt (show f.refund.toNat < 2 ^ 256 from hlt)]
      exact Int.toNat_of_nonneg (Int.not_lt.mp hnonneg)
    · cases hrefund

/-- What a message from outside leaves that was run. -/
structure Concluded (message : Message) (frame : Frame) (w : World) (outcome : Outcome)
    (w' : World) : Prop where
  state : w'.state = w.state
  error : outcome.error = frame.error
  refund : frame.error = none → (outcome.refund.toNat : Int) = frame.refund
  accountsToDelete : outcome.accountsToDelete =
    if frame.error.isSome then ∅ else frame.accountsToDelete
  touchedAccounts : outcome.touchedAccounts = if frame.error.isSome then ∅
    else (frame.touchTarget w.state message.target).touchedAccounts

theorem of_runCall_ok (h : runCall message env w = .ok outcome w') :
    message.isTaken w.state = true ∧ outcome = .collision message ∧ w' = w ∨
      message.isTaken w.state = false ∧ ∃ frame w₁,
        launch runMessage message env w = .ok frame w₁ ∧
        Concluded message frame w₁ outcome w' := by
  cases ht : message.isTaken w.state with
  | true =>
    rw [runCall_of_taken ht] at h
    cases h
    exact Or.inl ⟨rfl, rfl, rfl⟩
  | false =>
    rw [runCall_of_free ht] at h
    obtain ⟨frame, w₁, hl, h₁⟩ := of_bind_ok h
    obtain ⟨_, _, hget, h₂⟩ := of_bind_ok h₁
    cases hget
    obtain ⟨ho, hstate⟩ := of_conclude_ok h₂
    have hdeleted := (Outcome.of_ofFrame ho).2
    have htouched := touchedAccounts_of_ofFrame ho
    obtain ⟨herror, hrefund⟩ := refund_of_ofFrame ho
    rw [Frame.error_touchTarget] at hdeleted htouched herror hrefund
    rw [Frame.accountsToDelete_touchTarget] at hdeleted
    rw [Frame.refund_touchTarget] at hrefund
    exact Or.inr ⟨rfl, frame, w₁, hl, hstate, herror, hrefund, hdeleted, htouched⟩

theorem isTaken_eq_false : message.isTaken w.state = false ↔
    (message.target = none → w.state.hasCodeOrNonce message.currentTarget = false) := by
  cases ht : message.target <;> simp [Message.isTaken, ht]

end Evm

namespace Transaction
variable {env : Environment} {tx : Transaction} {s s' : State} {gas : Nat}

theorem of_changeBalances_ok {f : State → Except Fault State}
    (h : BlockOp.changeBalances f s = .ok () s') : f s = .ok s' := by
  unfold BlockOp.changeBalances at h
  split at h
  · next hf =>
    cases h
    exact hf
  · cases h

theorem of_payInAdvance_ok (h : tx.payInAdvance env s = .ok () s') :
    ∃ x, s' = (s.incrementNonce env.origin).setBalance env.origin x := by
  obtain ⟨_, s₁, hnonce, h⟩ := of_seq_ok h
  cases hnonce
  have htake := of_changeBalances_ok h
  unfold takeFee at htake
  dsimp only at htake
  split at htake
  · cases htake
  · cases htake
    exact ⟨_, rfl⟩

theorem of_prepare_ok {message : Message} (h : tx.prepare env s = .ok message s') :
    ∃ r : Request, r.message env.fork s' = .ok message := by
  obtain ⟨_, s₁, _, h⟩ := of_seq_ok h
  obtain ⟨gas, s₂, _, h⟩ := of_seq_ok h
  obtain ⟨_, s₃, _, h⟩ := of_seq_ok h
  obtain ⟨r, s₄, _, h⟩ := of_seq_ok h
  obtain ⟨_, s₅, hget, h⟩ := of_seq_ok h
  cases hget
  obtain ⟨hm, rfl⟩ := ofFault_eq_ok h
  exact ⟨r, hm⟩

theorem of_settle_ok {outcome : Outcome} (h : tx.settle env outcome s = .ok gas s') :
    ∃ n s₁ fee s₂, s.addBalance env.origin n = .ok s₁ ∧ payCoinbase env fee s₁ = .ok s₂ ∧
      s' = clearUp env outcome s₂ := by
  unfold settle at h
  split at h
  · cases h
  · dsimp only at h
    split at h
    · cases h
    · obtain ⟨_, s₁, hadd, h⟩ := of_seq_ok h
      obtain ⟨_, s₂, hpay, h⟩ := of_seq_ok h
      cases h
      exact ⟨_, s₁, _, s₂, of_changeBalances_ok hadd, of_changeBalances_ok hpay, rfl⟩

structure Steps (env : Environment) (tx : Transaction) (s : State) (message : Message)
    (s₁ : State) (outcome : Outcome) (s₂ s' : State) : Prop where
  prepared : tx.prepare env s = .ok message s₁
  run : BlockOp.runMachine env (runCall message) s₁ = .ok outcome s₂
  settled : ∃ gas, tx.settle env outcome s₂ = .ok gas s'

theorem of_process_ok {result : Result} (h : tx.process env s = .ok result s') :
    ∃ message s₁ outcome s₂, Steps env tx s message s₁ outcome s₂ s' := by
  obtain ⟨message, s₁, hp, h⟩ := of_seq_ok h
  obtain ⟨outcome, s₂, hr, h⟩ := of_seq_ok h
  obtain ⟨gas, s₃, hs, h⟩ := of_seq_ok h
  cases h
  exact ⟨message, s₁, outcome, s₂, hp, hr, gas, hs⟩

theorem of_execute_ok {approved : Approved} {result : Result}
    (h : tx.execute env gas s = .ok (approved, result) s') :
    tx.approve env s gas = .ok approved ∧
      tx.process (approved.environment env) s = .ok result s' := by
  cases ha : tx.approve env s gas with
  | error e =>
    rw [execute_of_refuse ha] at h
    cases h
  | ok approved' =>
    rw [execute_of_approve ha] at h
    obtain ⟨result', s₁, hp, h⟩ := of_seq_ok h
    cases h
    exact ⟨rfl, hp⟩

theorem account_of_checkAccount {account : Account} {maxFee : Nat} {u : Unit}
    (h : tx.checkAccount account maxFee = .ok u) :
    account.nonce = tx.nonce.toNat ∧ account.code.size = 0 := by
  obtain ⟨_, hnonce, h⟩ := of_except_ok h
  obtain ⟨_, _, hcode⟩ := of_except_ok h
  exact ⟨of_decide_eq_true (Rejection.of_check_ok hnonce),
    of_decide_eq_true (Rejection.of_check_ok hcode)⟩

theorem account_of_checkLate (h : tx.checkLate env s = .ok () s') (hf : env.fork < Fork.cancun) :
    (s.account env.origin).nonce = tx.nonce.toNat ∧ (s.account env.origin).code.size = 0 := by
  unfold checkLate at h
  rw [if_pos hf] at h
  obtain ⟨_, _, hget, h⟩ := of_seq_ok h
  cases hget
  obtain ⟨_, _, haccount⟩ := of_except_ok (ofExcept_eq_ok h).1
  exact account_of_checkAccount haccount

theorem sender_of_checks {approved : Approved} (ha : tx.approve env s gas = .ok approved)
    (hc : tx.checkLate (approved.environment env) s = .ok () s) :
    (s.account approved.sender).nonce = tx.nonce.toNat ∧
      (s.account approved.sender).code.size = 0 := by
  obtain ⟨_, _, h₁⟩ := of_except_ok ha
  obtain ⟨_, _, h₂⟩ := of_except_ok h₁
  obtain ⟨sender, _, h₃⟩ := of_except_ok h₂
  obtain ⟨price, _, h₄⟩ := of_except_ok h₃
  obtain ⟨_, hfunds, h₅⟩ := of_except_ok h₄
  cases h₅
  by_cases hf : Fork.cancun ≤ env.fork
  · unfold checkFunds at hfunds
    rw [if_pos hf] at hfunds
    obtain ⟨fee, _, haccount⟩ := of_except_ok hfunds
    exact account_of_checkAccount haccount
  · exact account_of_checkLate hc (Nat.lt_of_not_le hf)

end Transaction

end ExecutionLayer
