import ExecutionLayer.Proofs.Transaction.Gas

/-! # What a transaction can pay

The checks before a transaction runs make sure that its sender can pay the gas, the blobs and the
value. The fee that is taken in advance is at most the one that the checks reckon with and at least
the base fee. No rejection by these checks is for an imbalance.
-/
namespace ExecutionLayer

def IsCalm {α : Type} (r : Except Rejection α) : Prop := ∀ f, r ≠ .error (.imbalance f)

section IsCalm
variable {α β : Type}

theorem isCalm_ok (a : α) : IsCalm (.ok a : Except Rejection α) := fun _ => by simp

theorem isCalm_invalid : IsCalm (.error .invalidBlock : Except Rejection α) := fun _ => by
  simp [Rejection.imbalance]

theorem IsCalm.bind {x : Except Rejection α} {f : α → Except Rejection β} (hx : IsCalm x)
    (hf : ∀ a, IsCalm (f a)) : IsCalm (x >>= f) := by
  cases x with
  | ok a => exact hf a
  | error e =>
    intro f h
    cases h
    exact hx f rfl

theorem IsCalm.ite {c : Prop} [Decidable c] {x y : Except Rejection α} (hx : IsCalm x)
    (hy : IsCalm y) : IsCalm (if c then x else y) := by
  split
  · exact hx
  · exact hy

theorem isCalm_check (c : Bool) : IsCalm (Rejection.check c) := by
  unfold Rejection.check
  exact .ite (isCalm_ok _) isCalm_invalid

theorem isCalm_ofFault (r : Except Fault α) : IsCalm (Rejection.ofFault r) := by
  cases r with
  | ok a => exact isCalm_ok a
  | error f =>
    intro f' h
    cases h

end IsCalm

namespace Transaction
open Evm
variable {env : Environment} {tx : Transaction} {s s' : State}

theorem isCalm_checkForm (fork : Fork) : IsCalm (tx.checkForm fork) :=
  .bind (isCalm_ofFault _) fun _ => isCalm_check _

theorem isCalm_checkAccount (account : Account) (maxFee : Nat) :
    IsCalm (tx.checkAccount account maxFee) :=
  .bind (isCalm_check _) fun _ => .bind (isCalm_check _) fun _ => isCalm_check _

theorem isCalm_checkBlobs (excess : Nat) : IsCalm (tx.checkBlobs excess) := by
  unfold checkBlobs
  split
  · exact .bind (isCalm_check _) fun _ => .bind (isCalm_check _) fun _ =>
      .bind (isCalm_check _) fun _ => .bind (isCalm_check _) fun _ => isCalm_ok _
  · exact isCalm_ok _

theorem isCalm_effectivePrice (fork : Fork) (base : Nat) : IsCalm (tx.effectivePrice fork base) := by
  unfold effectivePrice
  refine .ite (isCalm_ok _) ?_
  cases tx.kind with
  | legacy | accessList => exact .bind (isCalm_check _) fun _ => isCalm_ok _
  | feeMarket | blob =>
    exact .bind (isCalm_check _) fun _ => .bind (isCalm_check _) fun _ => isCalm_ok _

theorem isCalm_readProtected (chainId : Nat) (v : Word) : IsCalm (tx.readProtected chainId v) := by
  refine .bind (isCalm_ofFault _) fun _ => .bind (isCalm_ofFault _) fun _ => .ite ?_ ?_
  · exact .bind (isCalm_ofFault _) fun _ => isCalm_ok _
  · exact .bind (isCalm_ofFault _) fun _ => .bind (isCalm_check _) fun _ =>
      .bind (isCalm_ofFault _) fun _ => isCalm_ok _

theorem isCalm_sender (fork : Fork) (chainId : Nat) : IsCalm (tx.sender fork chainId) := by
  have hread : IsCalm (tx.readSignature fork chainId) := by
    unfold readSignature
    cases tx.kind with
    | legacy _ v =>
      exact .ite (isCalm_ofFault _) (.ite isCalm_invalid (isCalm_readProtected chainId v))
    | accessList | feeMarket | blob => exact isCalm_ofFault _
  exact .bind (isCalm_check _) fun _ => .bind hread fun _ => .bind (isCalm_ofFault _) fun _ =>
    isCalm_ok _

theorem isCalm_approve (gas : Nat) : IsCalm (tx.approve env s gas) := by
  have hfunds (a : Address) : IsCalm (tx.checkFunds env s a) :=
    .ite (.bind (isCalm_checkBlobs _) fun _ => isCalm_checkAccount _ _) (isCalm_ok _)
  exact .bind (.ite (isCalm_checkForm _) (isCalm_ok _)) fun _ => .bind (isCalm_check _) fun _ =>
    .bind (isCalm_sender _ _) fun _ => .bind (isCalm_effectivePrice _ _) fun _ =>
      .bind (hfunds _) fun _ => isCalm_ok _

theorem effectivePrice_bounds {fork : Fork} {base price : Nat}
    (h : tx.effectivePrice fork base = .ok price) :
    price ≤ tx.maxGasPrice ∧ (Fork.london ≤ fork → base ≤ price) := by
  unfold effectivePrice at h
  split at h
  · next hf =>
    cases h
    exact ⟨le_rfl, fun hl => absurd hf (Nat.not_lt_of_le hl)⟩
  · unfold maxGasPrice
    cases hk : tx.kind with
    | legacy p _ | accessList _ p _ _ =>
      simp only [hk] at h ⊢
      obtain ⟨_, hb, h⟩ := of_except_ok h
      cases h
      exact ⟨le_rfl, fun _ => of_decide_eq_true (Rejection.of_check_ok hb)⟩
    | feeMarket _ priority fee _ _ | blob _ priority fee _ _ _ _ =>
      simp only [hk] at h ⊢
      obtain ⟨_, _, h⟩ := of_except_ok h
      obtain ⟨_, hb, h⟩ := of_except_ok h
      cases h
      have hle : base ≤ fee := of_decide_eq_true (Rejection.of_check_ok hb)
      exact ⟨by omega, fun _ => by omega⟩

theorem blobFee_le {excess fee : Nat} (h : tx.checkBlobs excess = .ok fee) :
    tx.blobFee excess ≤ fee := by
  rw [blobFee_eq]
  unfold checkBlobs at h
  split at h
  · obtain ⟨_, _, h⟩ := of_except_ok h
    obtain ⟨_, _, h⟩ := of_except_ok h
    obtain ⟨_, _, h⟩ := of_except_ok h
    obtain ⟨_, hb, h⟩ := of_except_ok h
    cases h
    exact Nat.mul_le_mul_left _ (of_decide_eq_true (Rejection.of_check_ok hb))
  · next hk =>
    -- Without blobs there is nothing to pay for.
    have hz : tx.blobGas = 0 := by
      unfold blobGas blobHashes
      cases hkind : tx.kind with
      | blob chain priority maxFee l maxBlobFee hashes y => exact absurd hkind (hk _ _ _ _ _ _ _)
      | legacy | accessList | feeMarket => rfl
    rw [hz, Nat.zero_mul]
    exact Nat.zero_le _

theorem of_checkAccount_ok {account : Account} {maxFee : Nat} {u : Unit}
    (h : tx.checkAccount account maxFee = .ok u) :
    maxFee + tx.value.toNat ≤ account.balance.toNat := by
  obtain ⟨_, _, h⟩ := of_except_ok h
  obtain ⟨_, h, _⟩ := of_except_ok h
  exact of_decide_eq_true (Rejection.of_check_ok h)

/-- The sender of a transaction can pay for it, and the price of gas covers the base fee. -/
structure Affords (env : Environment) (tx : Transaction) (s : State) : Prop where
  funds : tx.gas * env.gasPrice + tx.blobDataFee env + tx.value.toNat ≤ s.balance env.origin
  baseFee_le : baseFee env ≤ env.gasPrice

theorem of_checkLate_ok (h : tx.checkLate env s = .ok () s') (hf : env.fork < Fork.cancun) :
    tx.gas * tx.maxGasPrice + tx.value.toNat ≤ s.balance env.origin := by
  unfold checkLate at h
  rw [if_pos hf] at h
  obtain ⟨_, _, hg, h⟩ := of_seq_ok h
  cases hg
  obtain ⟨_, _, h⟩ := of_except_ok (ofExcept_eq_ok h).1
  exact of_checkAccount_ok h

theorem affords_of_checks {gas : Nat} {approved : Approved}
    (ha : tx.approve env s gas = .ok approved)
    (hc : tx.checkLate (approved.environment env) s = .ok () s) :
    Affords (approved.environment env) tx s := by
  obtain ⟨_, _, h₁⟩ := of_except_ok ha
  obtain ⟨_, _, h₂⟩ := of_except_ok h₁
  obtain ⟨sender, _, h₃⟩ := of_except_ok h₂
  obtain ⟨price, hprice, h₄⟩ := of_except_ok h₃
  obtain ⟨_, hfunds, h₅⟩ := of_except_ok h₄
  cases h₅
  obtain ⟨hmax, hbase⟩ := effectivePrice_bounds hprice
  have hgas := Nat.mul_le_mul_left tx.gas hmax
  refine ⟨?_, ?_⟩
  · change tx.gas * price + tx.blobDataFee env + tx.value.toNat ≤ s.balance sender
    unfold blobDataFee
    split
    · next hf =>
      unfold checkFunds at hfunds
      rw [if_pos hf] at hfunds
      obtain ⟨fee, hblobs, haccount⟩ := of_except_ok hfunds
      have hle := of_checkAccount_ok haccount
      have hblob := blobFee_le hblobs
      change _ ≤ s.balance sender at hle
      omega
    · next hf =>
      have hle := of_checkLate_ok hc (Nat.lt_of_not_le hf)
      change _ ≤ s.balance sender at hle
      omega
  · change baseFee env ≤ price
    unfold baseFee
    split
    · next hf => exact hbase hf
    · exact Nat.zero_le _

structure PaidFor (env : Environment) (tx : Transaction) (s s' : State) : Prop where
  total : s'.total + (tx.gas * env.gasPrice + tx.blobDataFee env) = s.total
  value : tx.value.toNat ≤ s'.balance env.origin

theorem payInAdvance_of_affords (h : Affords env tx s) :
    ∃ s', tx.payInAdvance env s = .ok () s' ∧ PaidFor env tx s s' := by
  let s₁ := s.incrementNonce env.origin
  let fee := tx.gas * env.gasPrice + tx.blobDataFee env
  let s₂ := s₁.setBalance env.origin (.ofNat 256 (s₁.balance env.origin - fee))
  have hb : s₁.balance env.origin = s.balance env.origin := State.balance_incrementNonce _ _ _
  have htotal : s₁.total = s.total := State.total_congr fun a => State.balance_incrementNonce _ _ a
  have hle : fee + tx.value.toNat ≤ s₁.balance env.origin := by
    rw [hb]
    exact h.funds
  have hlt : s₁.balance env.origin - fee < Word.limit :=
    (Nat.sub_le _ _).trans_lt (s₁.account env.origin).balance.isLt
  have htake : takeFee env.origin fee s₁ = .ok s₂ := by
    unfold takeFee
    dsimp only
    rw [if_neg (by change ¬s₁.balance env.origin < fee; omega)]
    rfl
  refine ⟨s₂, ?_, ?_, ?_⟩
  · have hchange : BlockOp.changeBalances (takeFee env.origin fee) s₁ = .ok () s₂ := by
      simp only [BlockOp.changeBalances, htake]
    exact hchange
  · have ht : s₂.total + s₁.balance env.origin = s₁.total + (s₁.balance env.origin - fee) := by
      rw [State.total_setBalance, State.toNat_ofNat_of_lt hlt]
    change s₂.total + fee = s.total
    omega
  · rw [State.balance_setBalance, if_pos rfl, State.toNat_ofNat_of_lt hlt]
    omega

theorem ofExcept_ne {α : Type} {r : Except Rejection α} (h : IsCalm r) (f : Fault) :
    BlockOp.ofExcept r s ≠ .error (.imbalance f) s' := by
  intro he
  cases r with
  | ok a => cases he
  | error e =>
    cases he
    exact h f rfl

theorem ofFault_ne {α : Type} (r : Except Fault α) (f : Fault) :
    BlockOp.ofFault r s ≠ .error (.imbalance f) s' := ofExcept_ne (isCalm_ofFault r) f

theorem checkLate_ne (f : Fault) : tx.checkLate env s ≠ .error (.imbalance f) s' := by
  unfold checkLate
  intro h
  split at h
  · rcases of_seq_error h with h₁ | ⟨_, _, _, h₁⟩
    · cases h₁
    · exact ofExcept_ne (.bind (isCalm_checkForm _) fun _ => isCalm_checkAccount _ _) f h₁
  · cases h

theorem prepare_ne (ha : tx.checkLate env s = .ok () s → Affords env tx s) (f : Fault) :
    tx.prepare env s ≠ .error (.imbalance f) s' := by
  intro h
  rcases of_seq_error h with h₁ | ⟨_, s₁, hc, h₁⟩
  · exact checkLate_ne f h₁
  obtain rfl := checkLate_eq_ok hc
  rcases of_seq_error h₁ with h₂ | ⟨gas, s₂, hg, h₂⟩
  · exact ofFault_ne _ f h₂
  obtain ⟨-, rfl⟩ := ofFault_eq_ok hg
  obtain ⟨s₃, hp, -⟩ := payInAdvance_of_affords (ha hc)
  rw [seq_of_ok hp] at h₂
  rcases of_seq_error h₂ with h₃ | ⟨r, s₄, _, h₃⟩
  · exact ofFault_ne _ f h₃
  rcases of_seq_error h₃ with h₄ | ⟨_, s₅, _, h₄⟩
  · cases h₄
  · exact ofFault_ne _ f h₄

end Transaction

end ExecutionLayer
