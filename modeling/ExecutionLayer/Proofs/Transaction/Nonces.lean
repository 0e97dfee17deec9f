import ExecutionLayer.Proofs.Evm.Lasting
import ExecutionLayer.Proofs.Transaction.Parts
import ExecutionLayer.Proofs.Transaction.Replay

/-! # Nonces and code across transactions

A transaction counts up the nonce of its sender once, and no frame changes it again. All other
nonces and all code last until accounts are deleted in the end, and empty accounts have neither. A
transaction that has been accepted does not fit the nonce of its sender any more.
-/
namespace ExecutionLayer
open Evm

namespace Evm
variable {env : Environment} {message : Message} {outcome : Outcome} {w w' : World} {a : Address}

theorem runCall_lasts (h : runCall message env w = .ok outcome w') : w.state.Lasts w'.state := by
  rcases of_runCall_ok h with ⟨-, -, rfl⟩ | ⟨hfree, frame, w₁, hl, hc⟩
  · exact .refl _
  · rw [hc.state]
    exact launch_lasts hl (isTaken_eq_false.mp hfree)

theorem runCall_omitted {fork : Fork} {r : Request} (hr : r.message fork w.state = .ok message)
    (h : runCall message env w = .ok outcome w') (hs : w.state.IsSender a) :
    (w'.state.account a).nonce = (w.state.account a).nonce ∧ a ∉ outcome.accountsToDelete := by
  have hempty : a ∉ (∅ : AddressSet) := Std.ExtTreeSet.not_mem_empty
  have hdescribes := Request.describes_of_ok hr
  rcases of_runCall_ok h with ⟨-, rfl, rfl⟩ | ⟨hfree, frame, w₁, hl, hc⟩
  · exact ⟨rfl, hempty⟩
  · have hcreated : message.target = none → a ≠ message.currentTarget := by
      rintro ht rfl
      have hused := State.hasCodeOrNonce_iff.mpr (Or.inl hs.nonce)
      exact absurd (hused.symm.trans (isTaken_eq_false.mp hfree ht)) (by decide)
    have homits : message.Omits a := by
      refine ⟨fun hsize => ?_, hcreated, hdescribes.deletedAbove ▸ hempty⟩
      cases ht : message.target with
      | none => exact hcreated ht
      | some target =>
        obtain ⟨hcurrent, hown⟩ := hdescribes.called target ht
        rintro rfl
        rw [hown, ← hcurrent] at hsize
        exact hsize hs.code
    have homitted := launch_omitted hl hs homits
    rw [hc.state, hc.accountsToDelete]
    refine ⟨homitted.nonce, ?_⟩
    cases he : frame.error with
    | some e => exact hempty
    | none => exact homitted.deleted he

end Evm

namespace State
variable {s t u : State} {a b : Address}

structure SameMarks (a : Address) (s t : State) : Prop where
  nonce : (t.account a).nonce = (s.account a).nonce
  code : (t.account a).code = (s.account a).code

theorem SameMarks.refl (a : Address) (s : State) : SameMarks a s s := ⟨rfl, rfl⟩

theorem SameMarks.trans (h : SameMarks a s t) (h' : SameMarks a t u) : SameMarks a s u :=
  ⟨h'.nonce.trans h.nonce, h'.code.trans h.code⟩

theorem sameMarks_destroyAccount (h : s.existsAndIsEmpty b = true) (a : Address) :
    SameMarks a s (s.destroyAccount b) := by
  by_cases hab : b = a
  · subst hab
    obtain ⟨hnonce, hsize⟩ := marks_of_existsAndIsEmpty h
    have hcode : (s.account b).code = ByteArray.empty := ByteArray.size_eq_zero_iff.mp hsize
    refine ⟨?_, ?_⟩
    · rw [account_destroyAccount, if_pos rfl, hnonce]
      rfl
    · rw [account_destroyAccount, if_pos rfl, hcode]
      rfl
  · refine ⟨?_, ?_⟩ <;> rw [account_destroyAccount, if_neg hab]

theorem sameMarks_destroyEmpty (l : List Address) (s : State) (a : Address) :
    SameMarks a s (s.destroyEmpty l) := by
  unfold destroyEmpty
  induction l generalizing s with
  | nil => exact .refl _ _
  | cons b l ih =>
    rw [List.foldl_cons]
    split
    · next he => exact (sameMarks_destroyAccount he a).trans (ih _)
    · exact ih _

theorem sameMarks_foldl_destroyAccount {l : List Address} (h : a ∉ l) (s : State) :
    SameMarks a s (l.foldl destroyAccount s) := by
  induction l generalizing s with
  | nil => exact .refl _ _
  | cons b l ih =>
    obtain ⟨hb, hl⟩ := not_or.mp (mt List.mem_cons.mpr h)
    have hfirst : SameMarks a s (s.destroyAccount b) := by
      refine ⟨?_, ?_⟩ <;> rw [account_destroyAccount, if_neg (Ne.symm hb)]
    exact hfirst.trans (ih hl _)

theorem Pays.sameMarks {payer payee : Address} (h : Pays s payer payee t) (a : Address) :
    SameMarks a s t := ⟨h.nonce a, h.sameCode.code a⟩

end State

namespace Transaction
open State (SameMarks)
variable {env : Environment} {tx : Transaction} {s s' : State} {gas : Nat} {outcome : Outcome}
  {a : Address}

theorem sameMarks_setCoinbase (env : Environment) (x : Word) (s : State) (a : Address) :
    SameMarks a s (setCoinbase env x s) := by
  unfold setCoinbase
  split
  · exact (State.pays_setBalance s env.coinbase env.coinbase x).sameMarks a
  · split
    · next he => exact State.sameMarks_destroyAccount he a
    · exact .refl _ _

theorem sameMarks_clearUp (h : a ∉ outcome.accountsToDelete) (s : State) :
    SameMarks a s (clearUp env outcome s) := by
  have hdeleted := State.sameMarks_foldl_destroyAccount
    (mt Std.ExtTreeSet.mem_toList.mp h) s
  unfold clearUp
  dsimp only
  split
  · exact hdeleted.trans (State.sameMarks_destroyEmpty _ _ a)
  · exact hdeleted

theorem sameMarks_settle (h : tx.settle env outcome s = .ok gas s')
    (ha : a ∉ outcome.accountsToDelete) : SameMarks a s s' := by
  obtain ⟨n, s₁, fee, s₂, hadd, hpay, rfl⟩ := of_settle_ok h
  obtain ⟨x, -, hpay⟩ := of_except_ok hpay
  cases hpay
  exact ((State.pays_of_addBalance hadd env.origin).sameMarks a).trans
    ((sameMarks_setCoinbase env x s₁ a).trans (sameMarks_clearUp ha _))

def Deletes (env : Environment) (tx : Transaction) (s : State) (a : Address) : Prop :=
  ∃ message s₁ outcome s₂, tx.prepare env s = .ok message s₁ ∧
    BlockOp.runMachine env (runCall message) s₁ = .ok outcome s₂ ∧ a ∈ outcome.accountsToDelete

theorem payInAdvance_nonce (h : tx.payInAdvance env s = .ok () s') (a : Address) :
    (s'.account a).nonce =
      if env.origin = a then (s.account a).nonce + 1 else (s.account a).nonce := by
  obtain ⟨x, rfl⟩ := of_payInAdvance_ok h
  rw [State.nonce_setBalance, State.nonce_incrementNonce]

theorem payInAdvance_lasts (h : tx.payInAdvance env s = .ok () s') : s.Lasts s' := by
  obtain ⟨x, rfl⟩ := of_payInAdvance_ok h
  exact (State.lasts_incrementNonce s env.origin).trans
    (State.pays_setBalance _ env.origin env.origin x).lasts

theorem process_marks {result : Result} (h : tx.process env s = .ok result s') :
    ((s.account env.origin).code.size = 0 →
      (s'.account env.origin).nonce = (s.account env.origin).nonce + 1) ∧
    ∀ a, ¬tx.Deletes env s a → (s.account a).nonce ≤ (s'.account a).nonce ∧
      (s.hasCodeOrNonce a = true → (s'.account a).code = (s.account a).code) := by
  obtain ⟨message, s₁, outcome, s₂, hsteps⟩ := of_process_ok h
  obtain ⟨gas, hsettle⟩ := hsteps.settled
  obtain ⟨w, hrun, rfl⟩ := of_runMachine_ok hsteps.run
  have hpaid := (ready_of_prepare hsteps.prepared).paid
  have hlasts : s.Lasts w.state := (payInAdvance_lasts hpaid).trans (runCall_lasts hrun)
  refine ⟨fun hcode => ?_, fun a hkept => ?_⟩
  · have hnonce := payInAdvance_nonce hpaid env.origin
    rw [if_pos rfl] at hnonce
    obtain ⟨x, hs₁⟩ := of_payInAdvance_ok hpaid
    have hsender : s₁.IsSender env.origin := by
      refine ⟨by omega, ?_⟩
      rw [hs₁, (State.sameCode_incrementNonce.trans (State.sameCode_setBalance x)).code]
      exact hcode
    obtain ⟨r, hr⟩ := of_prepare_ok hsteps.prepared
    obtain ⟨hsame, hdeleted⟩ := runCall_omitted hr hrun hsender
    rw [(sameMarks_settle hsettle hdeleted).nonce, hsame, hnonce]
  · have hmarks := sameMarks_settle hsettle fun hmem =>
      hkept ⟨message, s₁, outcome, w.state, hsteps.prepared, hsteps.run, hmem⟩
    refine ⟨?_, fun ha => ?_⟩
    · rw [hmarks.nonce]
      exact hlasts.nonce a
    · rw [hmarks.code]
      exact hlasts.code a ha

/-- Since Spurious Dragon a transaction that is accepted leaves its sender the nonce that follows
its own. No other nonce becomes smaller and no code changes, unless the account is deleted because
a frame has marked it. Wherever code is deposited in the end of a creation, there was none, whatever
the code has done that ran before. And the transaction cannot be accepted again. -/
theorem nonces_and_code_last (env : Environment) (gas : Nat) (tx : Transaction) (s s' : State)
    (approved : Approved) (result : Result) (hfork : Fork.spuriousDragon ≤ env.fork)
    (h : tx.execute env gas s = .ok (approved, result) s') :
    (s'.account approved.sender).nonce = tx.nonce.toNat + 1 ∧
    (∀ a, ¬tx.Deletes (approved.environment env) s a →
      (s.account a).nonce ≤ (s'.account a).nonce) ∧
    (∀ a, (s.account a).code.size ≠ 0 → (s'.account a).code = (s.account a).code ∨
      tx.Deletes (approved.environment env) s a) ∧
    (∀ m pending m₁ w₁ frame w₂, fetch (approved.environment env) m = .ok (some pending) m₁ →
      pending.message.target = none →
      openCreation pending.message (approved.environment env) m₁.world = .ok () w₁ →
      runMessage pending.message (approved.environment env) w₁ = .ok frame w₂ →
      (w₂.state.account pending.message.currentTarget).code.size = 0) ∧
    ∀ env' gas' r s'', env'.fork = env.fork → env'.chainId = env.chainId →
      tx.execute env' gas' s' ≠ .ok r s'' := by
  obtain ⟨happrove, hprocess⟩ := of_execute_ok h
  obtain ⟨message, s₁, outcome, s₂, hsteps⟩ := of_process_ok hprocess
  obtain ⟨hnonce, hcode⟩ :=
    sender_of_checks happrove (ready_of_prepare hsteps.prepared).checked
  obtain ⟨hsender, hothers⟩ := process_marks hprocess
  have hnext : (s'.account approved.sender).nonce = tx.nonce.toNat + 1 :=
    (hsender hcode).trans (congrArg (· + 1) hnonce)
  refine ⟨hnext, fun a ha => (hothers a ha).1, fun a ha => ?_, ?_, ?_⟩
  · by_cases hd : tx.Deletes (approved.environment env) s a
    · exact Or.inr hd
    · exact Or.inl ((hothers a hd).2 (State.hasCodeOrNonce_iff.mpr (Or.inr ha)))
  · intro m pending m₁ w₁ frame w₂ hf ht ho hr
    rcases (fetch_effect hf).asks with ⟨hcalls, -⟩ | ⟨hcreates, hm₁⟩
    · rw [hcalls.target] at ht
      cases ht
    · have hfree : m.world.state.hasCodeOrNonce pending.message.currentTarget = false :=
        hcreates.free
      have hsize : (m.world.state.account pending.message.currentTarget).code.size = 0 := by
        by_contra hsize
        exact absurd ((State.hasCodeOrNonce_iff.mpr (Or.inr hsize)).symm.trans hfree) (by decide)
      have hstate : m₁.world.state = _ := congrArg Standing.state hm₁
      have hfork' : Fork.spuriousDragon ≤ (approved.environment env).fork := hfork
      rw [(code_before_deposit hfork' ho hr).1, hstate, State.sameCode_incrementNonce.code]
      exact hsize
  · rintro env' gas' ⟨approved', result'⟩ s'' hf hchain h'
    obtain ⟨happrove', hprocess'⟩ := of_execute_ok h'
    obtain ⟨message', s₁', outcome', s₂', hsteps'⟩ := of_process_ok hprocess'
    have hnonce' :=
      (sender_of_checks happrove' (ready_of_prepare hsteps'.prepared).checked).1
    have hsame : approved'.sender = approved.sender := by
      have hs := of_approveBy_ok happrove
      have hs' := of_approveBy_ok happrove'
      rw [hf, hchain, hs] at hs'
      exact (Except.ok.inj hs').symm
    rw [hsame, hnext] at hnonce'
    omega

/-- A transfer to code that reverts uses up its nonce all the same. -/
theorem nonces_and_code_last_revert :
    let env : Environment := { (default : Environment) with fork := .byzantium }
    let s := beforeTransfer ⟨#[0x60, 0x00, 0x60, 0x00, 0xfd]⟩ 1
    Fork.spuriousDragon ≤ env.fork ∧ ∃ approved result s',
      transfer.execute env 100000 s = .ok (approved, result) s' ∧ result.error.isSome = true ∧
        (s'.account approved.sender).nonce = 1 ∧
        ∀ gas r s'', transfer.execute env gas s' ≠ .ok r s'' := by
  intro env s
  have hfork : Fork.spuriousDragon ≤ env.fork := by decide
  have hrun : (match transfer.execute env 100000 s with
      | .ok (_, result) _ => result.error.isSome
      | .error _ _ => false) = true := by decide +kernel
  split at hrun
  · next approved result s' h =>
    obtain ⟨hnonce, -, -, -, hagain⟩ :=
      nonces_and_code_last env 100000 transfer s s' approved result hfork h
    exact ⟨hfork, approved, result, s', h, hrun, hnonce, fun gas r s'' =>
      hagain env gas r s'' rfl rfl⟩
  · cases hrun

end Transaction

end ExecutionLayer
