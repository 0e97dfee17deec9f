import ExecutionLayer.Proofs.Chain.BlockHash
import ExecutionLayer.Proofs.Chain.Ommers
import ExecutionLayer.Proofs.Evm.Touched
import ExecutionLayer.Proofs.Transaction.Nonces

/-! # No account is left empty

Since Spurious Dragon touched accounts that are empty are destroyed when a transaction ends. All
accounts that may have become empty are among them, so a state without empty accounts is followed by
such states.
-/
namespace ExecutionLayer
open Evm
open State (EmptiesOnly)

namespace Evm
variable {env : Environment} {message : Message} {frame : Frame} {outcome : Outcome} {w w' : World}
  {s : State} {a : Address}

theorem mem_touchTarget (h : a ∈ frame.touchedAccounts) (s : State) (target : Option Address) :
    a ∈ (frame.touchTarget s target).touchedAccounts := by
  cases target with
  | none => exact h
  | some target =>
    unfold Frame.touchTarget
    dsimp only
    split
    · exact Std.ExtTreeSet.mem_insert.mpr (Or.inr h)
    · exact h

theorem target_mem_touchTarget (h : s.existsAndIsEmpty a = true) :
    a ∈ (frame.touchTarget s (some a)).touchedAccounts := by
  unfold Frame.touchTarget
  dsimp only
  rw [if_pos h]
  exact Std.ExtTreeSet.mem_insert_self

theorem runCall_emptiesOnly (hfork : Fork.spuriousDragon ≤ env.fork)
    (h : runCall message env w = .ok outcome w') (hb : message.IsBacked env w.state)
    (hcode : ∀ target, message.target = some target →
      message.currentTarget = target ∧ message.code = (w.state.account target).code) :
    EmptiesOnly (· ∈ outcome.touchedAccounts) w.state w'.state := by
  have hsettled : message.target ≠ none → message.IsSettled w.state := by
    intro ht hsize
    obtain ⟨target, ht⟩ := Option.ne_none_iff_exists'.mp ht
    obtain ⟨hcurrent, hown⟩ := hcode target ht
    rw [hown] at hsize
    rw [hcurrent]
    exact State.hasCodeOrNonce_iff.mpr (Or.inr hsize)
  rcases of_runCall_ok h with ⟨-, -, rfl⟩ | ⟨-, frame, w₁, hl, hc⟩
  · exact .refl _
  · rw [hc.state]
    intro a ha
    refine (launch_emptiesOnly hfork hl hb hsettled a ha).imp_right fun ⟨he, htouched⟩ => ?_
    rw [hc.touchedAccounts, he, if_neg (by decide)]
    rcases htouched with hmem | hcurrent
    · exact mem_touchTarget hmem _ _
    · rw [message_of_launch hl] at hcurrent
      cases ht : message.target with
      | none =>
        rw [hcurrent] at ha
        exact absurd ha (State.not_empty_of_hasCodeOrNonce (launch_hasNonce hfork hl ht he))
      | some target =>
        rw [hcurrent, (hcode target ht).1] at ha
        rw [hcurrent, (hcode target ht).1]
        exact target_mem_touchTarget ha

end Evm

structure BlockOp.Tidies {α : Type} (op : BlockOp α) : Prop where
  tidy : ∀ {s s' : State} {a : α}, op s = .ok a s' → s.Tidy → s'.Tidy

namespace BlockOp
variable {α β : Type} {x : BlockOp α} {f : α → BlockOp β}

theorem Tidies.bind (hx : Tidies x) (hf : ∀ a, Tidies (f a)) : Tidies (x >>= f) := by
  refine ⟨fun h hs => ?_⟩
  obtain ⟨a, s₁, ha, hb⟩ := of_seq_ok h
  exact (hf a).tidy hb (hx.tidy ha hs)

theorem Tidies.ite {c : Prop} [Decidable c] {y : BlockOp α} (hx : c → Tidies x) (hy : Tidies y) :
    Tidies (if c then x else y) := by
  split
  · next hc => exact hx hc
  · exact hy

theorem tidies_pure (a : α) : Tidies (pure a : BlockOp α) := by
  refine ⟨fun h hs => ?_⟩
  cases h
  exact hs

theorem tidies_get : Tidies (get : BlockOp State) := by
  refine ⟨fun h hs => ?_⟩
  cases h
  exact hs

theorem tidies_throw (r : Rejection) : Tidies (throw r : BlockOp α) := ⟨nofun⟩

theorem tidies_ofExcept (r : Except Rejection α) : Tidies (ofExcept r) := by
  cases r with
  | ok a => exact tidies_pure a
  | error r => exact tidies_throw r

theorem tidies_ofFault_bind {r : Except Fault α} (hf : ∀ a, r = .ok a → Tidies (f a)) :
    Tidies (ofFault r >>= f) := by
  cases r with
  | ok a => exact hf a rfl
  | error e => exact ⟨nofun⟩

theorem tidies_step {g : State → Except Fault State}
    (hg : ∀ {s t}, g s = .ok t → s.Tidy → t.Tidy) : Tidies (step g) := by
  refine ⟨fun {s s' _} h hs => ?_⟩
  obtain ht := of_step_ok h
  exact hg ht hs

theorem Tidies.forM {g : β → BlockOp Unit} {l : List β} (hg : ∀ b ∈ l, Tidies (g b)) :
    Tidies (l.forM g) := by
  induction l with
  | nil => exact tidies_pure ()
  | cons b l ih =>
    exact (hg b List.mem_cons_self).bind fun _ => ih fun b hb => hg b (List.mem_cons_of_mem _ hb)

theorem Tidies.foldlM {g : β → α → BlockOp β} (hg : ∀ b a, Tidies (g b a)) (l : List α) (b : β) :
    Tidies (l.foldlM g b) := by
  induction l generalizing b with
  | nil => exact tidies_pure b
  | cons a l ih => exact (hg b a).bind fun b => ih b

end BlockOp

namespace Transaction
variable {env : Environment} {tx : Transaction} {s s' : State}

theorem setCoinbase_emptiesOnly {P : Address → Prop} (hfork : Fork.spuriousDragon ≤ env.fork)
    (x : Word) (s : State) : EmptiesOnly P s (setCoinbase env x s) := by
  unfold setCoinbase
  by_cases hx : x = 0
  · have hnot : ¬env.fork < Fork.spuriousDragon := Nat.not_lt.mpr hfork
    rw [if_neg (by simp [hx, hnot])]
    split
    · exact fun a ha => Or.inl (State.of_existsAndIsEmpty_destroyAccount ha).1
    · exact .refl s
  · rw [if_pos (by simpa using Or.inl hx)]
    exact State.emptiesOnly_setBalance hx s _

theorem clearUp_tidy {outcome : Outcome} (hfork : Fork.spuriousDragon ≤ env.fork)
    (h : EmptiesOnly (· ∈ outcome.touchedAccounts) s s') (hs : s.Tidy) :
    (clearUp env outcome s').Tidy := by
  unfold clearUp
  dsimp only
  rw [if_pos hfork]
  have htouched : EmptiesOnly (· ∈ outcome.touchedAccounts.toList) s s' :=
    h.mono fun _ => Std.ExtTreeSet.mem_toList.mpr
  exact (htouched.trans (State.emptiesOnly_foldl_destroyAccount _ _)).tidy_destroyEmpty hs

theorem sender_emptiesOnly {P : Address → Prop} {a : Address} (h : s.Pays a a s')
    (ha : s.hasCodeOrNonce a = true) : EmptiesOnly P s s' := by
  intro b hb
  refine (h.emptiesOnly ha b hb).imp_right ?_
  rintro rfl
  exact absurd hb (State.not_empty_of_hasCodeOrNonce (h.lasts.hasCodeOrNonce ha))

theorem process_tidies (hfork : Fork.spuriousDragon ≤ env.fork) :
    BlockOp.Tidies (tx.process env) := by
  refine ⟨fun {s s' _} h hs => ?_⟩
  obtain ⟨message, s₁, outcome, s₂, hsteps⟩ := of_process_ok h
  have hready := ready_of_prepare hsteps.prepared
  obtain ⟨r, hr⟩ := of_prepare_ok hsteps.prepared
  obtain ⟨w, hrun, rfl⟩ := of_runMachine_ok hsteps.run
  obtain ⟨x, hs₁⟩ := of_payInAdvance_ok hready.paid
  have hnonce : (s.incrementNonce env.origin).hasCodeOrNonce env.origin = true := by
    rw [State.hasCodeOrNonce_iff, State.nonce_incrementNonce, if_pos rfl]
    exact Or.inl (by omega)
  have hpaid := State.pays_setBalance (s.incrementNonce env.origin) env.origin env.origin x
  rw [← hs₁] at hpaid
  have hsender : s₁.hasCodeOrNonce env.origin = true := hpaid.lasts.hasCodeOrNonce hnonce
  have htidy : s₁.Tidy :=
    ((State.emptiesOnly_incrementNonce s env.origin).trans (sender_emptiesOnly hpaid hnonce)).tidy hs
  have htouched : EmptiesOnly (· ∈ outcome.touchedAccounts) s₁ w.state :=
    runCall_emptiesOnly hfork hrun (fun _ => by rw [hready.caller]; exact hsender)
      (Request.describes_of_ok hr).called
  obtain ⟨gas, hsettle⟩ := hsteps.settled
  obtain ⟨n, s₃, fee, s₄, hadd, hpay, rfl⟩ := of_settle_ok hsettle
  obtain ⟨y, -, hpay⟩ := of_except_ok hpay
  cases hpay
  have hrefund : EmptiesOnly (· ∈ outcome.touchedAccounts) w.state s₃ :=
    sender_emptiesOnly (State.pays_of_addBalance hadd env.origin)
      ((runCall_lasts hrun).hasCodeOrNonce hsender)
  exact clearUp_tidy hfork
    ((htouched.trans hrefund).trans (setCoinbase_emptiesOnly hfork y s₃)) htidy

theorem execute_tidies (hfork : Fork.spuriousDragon ≤ env.fork) (gas : Nat) :
    BlockOp.Tidies (tx.execute env gas) := by
  refine ⟨fun {s s' r} h hs => ?_⟩
  obtain ⟨approved, result⟩ := r
  have hfork' : Fork.spuriousDragon ≤ (approved.environment env).fork := hfork
  exact (process_tidies hfork').tidy (of_execute_ok h).2 hs

end Transaction

namespace Body
open BlockOp
variable {env : Environment}

theorem applyTransaction_tidies (hfork : Fork.spuriousDragon ≤ env.fork) (p : Progress)
    (e : Envelope) : Tidies (applyTransaction env p e) := by
  have hreceipt (error : Option Halt) : Tidies (receiptResult env.fork error) :=
    .ite (fun _ => tidies_get.bind fun _ => (tidies_ofExcept _).bind fun _ => tidies_pure _)
      (tidies_pure _)
  refine (tidies_ofExcept _).bind fun tx => (Transaction.execute_tidies hfork _).bind
    fun (_, result) => ?_
  exact .ite (fun _ => (tidies_throw _).bind fun _ => (hreceipt _).bind fun _ => tidies_pure _)
    ((hreceipt _).bind fun _ => tidies_pure _)

theorem storeBeaconRoot_tidies (hfork : Fork.spuriousDragon ≤ env.fork) (root : Hash) :
    Tidies (storeBeaconRoot env root) := by
  refine ⟨fun {s s' _} h hs => ?_⟩
  obtain ⟨_, s₁, hget, h₁⟩ := of_seq_ok h
  cases hget
  obtain ⟨outcome, s₂, hrun, h₂⟩ := of_seq_ok h₁
  cases h₂
  obtain ⟨w, hcall, rfl⟩ := of_runMachine_ok hrun
  have htouched := runCall_emptiesOnly ?_ hcall ?_ ?_
  · have hlist : EmptiesOnly (· ∈ outcome.touchedAccounts.toList) s w.state :=
      htouched.mono fun _ => Std.ExtTreeSet.mem_toList.mpr
    exact hlist.tidy_destroyEmpty hs
  · exact hfork
  · rintro (hsends | hfrontier)
    · cases hsends
    · have hfrontier : env.fork = .frontier := hfrontier
      rw [hfrontier] at hfork
      exact absurd hfork (by decide)
  · intro target ht
    cases ht
    exact ⟨rfl, rfl⟩

theorem le_reward (fork : Fork) : 8 ≤ reward fork := by
  unfold reward ether
  split
  · decide
  · split <;> decide

theorem ommerReward_ne_zero {fork : Fork} {number ommerNumber n : Nat}
    (h : ommerReward fork number ommerNumber = .ok n)
    (hage : number - ommerNumber ≤ Chain.maxOmmerDepth) : n ≠ 0 := by
  unfold ommerReward at h
  split at h
  · cases h
  · have hage : number - ommerNumber ≤ 6 := hage
    have hn : (8 - (number - ommerNumber)) * reward fork / 8 = n := Except.ok.inj h
    have hpos : 1 * 8 ≤ (8 - (number - ommerNumber)) * reward fork :=
      Nat.mul_le_mul (by omega) (le_reward fork)
    omega

theorem payRewards_tidies {ommers : List Header}
    (h : ∀ ommer ∈ ommers, env.number - ommer.number ≤ Chain.maxOmmerDepth) :
    Tidies (payRewards env ommers) := by
  have hpay {a : Address} {n : Nat} (hn : n ≠ 0) : Tidies (step (·.addBalance a n)) :=
    tidies_step fun hadd => (State.emptiesOnly_addBalance hadd hn).tidy
  have hown : reward env.fork + ommers.length * (reward env.fork / 32) ≠ 0 := by
    have hreward := le_reward env.fork
    omega
  exact (hpay hown).bind fun _ => .forM fun ommer hmem => tidies_ofFault_bind fun n hn =>
    hpay (ommerReward_ne_zero hn (h ommer hmem))

theorem payWithdrawal_tidies (w : Withdrawal) : Tidies (payWithdrawal w) := by
  refine ⟨fun {s s' _} h hs => ?_⟩
  obtain ⟨_, s₁, hstep, h₁⟩ := of_seq_ok h
  cases h₁
  obtain ⟨x, -, hadd⟩ := of_except_ok (of_step_ok hstep)
  have hpays := State.pays_of_addBalance hadd w.address
  have honly : EmptiesOnly (· ∈ [w.address]) s s₁ :=
    State.emptiesOnly_of_others (fun a ha => hpays.others a ha ha) fun _ => List.mem_singleton_self _
  exact honly.tidy_destroyEmpty hs

theorem closeBody_tidies {content : Content} (p : Progress)
    (h : env.fork < Fork.paris →
      ∀ ommer ∈ content.ommers, env.number - ommer.number ≤ Chain.maxOmmerDepth) :
    Tidies (closeBody env content p) := by
  rw [closeBody_eq]
  exact (Tidies.ite (fun hf => payRewards_tidies (h hf)) (tidies_pure _)).bind fun _ =>
    (Tidies.ite (fun _ => Tidies.forM fun w _ => payWithdrawal_tidies w) (tidies_pure _)).bind
      fun _ => tidies_get.bind fun _ => (tidies_ofExcept _).bind fun _ => tidies_pure _

theorem apply_tidies (content : Content) (hfork : Fork.spuriousDragon ≤ env.fork)
    (h : env.fork < Fork.paris →
      ∀ ommer ∈ content.ommers, env.number - ommer.number ≤ Chain.maxOmmerDepth) :
    Tidies (apply env content) := by
  rw [apply_eq]
  exact (Tidies.ite (fun _ => storeBeaconRoot_tidies hfork _) (tidies_pure _)).bind fun _ =>
    (Tidies.foldlM (applyTransaction_tidies hfork) _ _).bind fun p =>
      (Tidies.ite (fun _ => tidies_ofExcept _) (tidies_pure _)).bind fun _ => closeBody_tidies p h

end Body

namespace Chain
variable {fork : Fork} {work : WorkCheck} {c c' : Chain} {block : Block}

theorem body_of_apply_ok (h : apply fork work block c = .ok () c') : ∃ summary,
    Body.apply (environment fork c block.header) (content block) c.state = .ok summary c'.state :=
  (of_apply_ok h).2.1

theorem age_of_checkBlock (h : checkBlock fork work c.blocks block = .ok ())
    (hf : fork < Fork.paris) :
    ∀ ommer ∈ block.ommers, block.header.number - ommer.number ≤ maxOmmerDepth := by
  obtain ⟨_, -, -, hommers⟩ := of_checkBlock_ok h
  rw [if_pos hf] at hommers
  obtain ⟨_, -, hommers⟩ := of_except_ok hommers
  dsimp only at hommers
  split at hommers
  · next hnil =>
    rw [List.isEmpty_iff] at hnil
    simp [hnil]
  · obtain ⟨_, -, hommers⟩ := of_except_ok hommers
    obtain ⟨_, -, hommers⟩ := of_except_ok hommers
    obtain ⟨_, -, hplaces⟩ := of_except_ok hommers
    exact fun ommer hmem => (of_checkOmmerPlace (of_forM_ok hplaces _ hmem)).2.2

/-- Since Spurious Dragon, where no account is empty, none is after a transaction that has been
processed, nor after a block that has been accepted. -/
theorem no_account_left_empty :
    (∀ (env : Environment) (tx : Transaction) (s s' : State) (result : Transaction.Result),
      Fork.spuriousDragon ≤ env.fork → s.Tidy → tx.process env s = .ok result s' → s'.Tidy) ∧
    ∀ (fork : Fork) (work : WorkCheck) (block : Block) (c c' : Chain),
      Fork.spuriousDragon ≤ fork → c.state.Tidy → apply fork work block c = .ok () c' →
        c'.state.Tidy := by
  refine ⟨fun env tx s s' result hfork hs h => (Transaction.process_tidies hfork).tidy h hs,
    fun fork work block c c' hfork hs h => ?_⟩
  obtain ⟨summary, hbody⟩ := body_of_apply_ok h
  have hfork' : Fork.spuriousDragon ≤ (environment fork c block.header).fork := hfork
  have hages := age_of_checkBlock (of_apply_ok h).1
  exact (Body.apply_tidies (content block) hfork' hages).tidy hbody hs

def fundedState : State := State.setBalance {} 0xa94f5374fce5edbc8e2a8697c15331677e6ebf0b (10 ^ 20)

theorem fundedState_tidy : fundedState.Tidy :=
  (State.emptiesOnly_setBalance (by decide) _ _).tidy fun _ => rfl

/-- A transaction that calls an account that is not there and sends nothing, and a block in which
nothing happens. -/
theorem no_account_left_empty_called :
    let tx := { Transaction.transfer with value := 0 }
    let env := (⟨0xa94f5374fce5edbc8e2a8697c15331677e6ebf0b, 10, []⟩ :
      Transaction.Approved).environment { (default : Environment) with fork := .byzantium }
    (∃ result s', tx.process env fundedState = .ok result s' ∧ s'.Tidy) ∧
      apply .paris .none (idleBlock 1) (idleChain 0) = .ok () (idleChain 1) ∧
        (idleChain 1).state.Tidy := by
  intro tx env
  have hrun : (match tx.process env fundedState with
      | .ok _ _ => true
      | .error _ _ => false) = true := by decide +kernel
  have happly := apply_idleBlock .none (n := 0) (by decide)
  refine ⟨?_, happly, no_account_left_empty.2 .paris .none (idleBlock 1) (idleChain 0) (idleChain 1)
    (by decide) (fun _ => rfl) happly⟩
  split at hrun
  · next result s' h =>
    exact ⟨result, s', h, no_account_left_empty.1 env tx fundedState s' result (by decide)
      fundedState_tidy h⟩
  · cases hrun

end Chain

end ExecutionLayer
