import ExecutionLayer.Proofs.Chain.Tidiness
import ExecutionLayer.Proofs.Evm.Ownership
import ExecutionLayer.Proofs.Transaction.Refunds

/-! # Storage belongs to accounts

At every point of every transaction and after every block, each address that has storage has an
account, no map of slots is empty and no slot holds zero. So a store always finds its account, and
the state has a root whenever no snapshot is open.
-/
namespace ExecutionLayer
open Evm

def State.StaysOwned (s t : State) : Prop := s.Owned → t.Owned

instance : IsPreorder State State.StaysOwned where
  refl _ := id
  trans _ _ _ h h' hs := h' (h hs)

open State (Upholds StaysOwned)

namespace BlockOp
variable {α β : Type}

theorem carries_ofExcept (r : Except Rejection α) : Carries StaysOwned (ofExcept r) := by
  cases r with
  | ok a => exact carries_pure a
  | error e => exact carries_throw e

theorem carries_ofFault (r : Except Fault α) : Carries StaysOwned (ofFault r) := carries_ofExcept _

theorem step_apply (f : State → Except Fault State) (s : State) : step f s = match f s with
    | .ok t => .ok () t
    | .error e => .error (.fault e) s := by
  have hget : (get : BlockOp State) s = .ok s s := rfl
  unfold step
  rw [seq_of_ok hget]
  cases f s <;> rfl

theorem carries_step {f : State → Except Fault State} (h : ∀ {s t}, f s = .ok t → Upholds s t) :
    Carries StaysOwned (step f) := by
  refine ⟨fun s => ?_⟩
  rw [step_apply]
  split
  · next hf => exact (h hf).owned
  · exact id

theorem carries_changeBalances {f : State → Except Fault State}
    (h : ∀ {s t}, f s = .ok t → StaysOwned s t) : Carries StaysOwned (changeBalances f) := by
  refine ⟨fun s => ?_⟩
  unfold changeBalances
  split
  · next hf => exact h hf
  · exact id

theorem carries_runMachine (env : Environment) {op : WorldOp α} (h : Sustains World.Upholds op) :
    Carries StaysOwned (runMachine env op) := by
  refine ⟨fun s => ?_⟩
  have hup : World.Upholds { state := s } _ := h.ends env { state := s }
  unfold runMachine
  cases hr : op env { state := s } with
  | ok | error =>
    rw [hr] at hup
    exact hup.owned

end BlockOp

theorem Evm.runCall_sustains (message : Message) : Sustains World.Upholds (runCall message) := by
  have hget : Sustains World.Upholds (get : WorldOp World) := ⟨fun _ => carries_get⟩
  have hconclude (frame : Frame) : Sustains World.Upholds (conclude message frame) := by
    unfold conclude
    split
    · exact sustains_throw _
    · have hend (event : Trace.Event) :
          Sustains World.Upholds (WorldOp.attempt frame (Exec.trace event)) :=
        ⟨fun env => ⟨fun w => attempt_upholds ((Exec.trace_quiet event).calm.ends env _)⟩⟩
      exact .when (sustains_throw _) (fun _ => rfl) ((hend _).bind fun _ => sustains_pure _)
  have hlaunch : Sustains World.Upholds (launch runMessage message) :=
    ⟨fun env => ⟨launch_upholds env message⟩⟩
  refine hget.bind fun w => ?_
  split
  · exact sustains_pure _
  · exact hlaunch.bind fun frame => hget.bind fun _ => hconclude _

namespace Transaction
open BlockOp
variable {env : Environment} {tx : Transaction} {s : State}

theorem takeFee_upholds {a : Address} {fee : Nat} {t : State} (h : takeFee a fee s = .ok t) :
    Upholds s t := by
  unfold takeFee at h
  dsimp only at h
  split at h
  · cases h
  · cases h
    exact State.upholds_modifyAccount s a _

theorem prepare_carries : Carries StaysOwned (tx.prepare env) := by
  have hlate : Carries StaysOwned (tx.checkLate env) :=
    .ite (carries_get.bind fun _ => carries_ofExcept _) (carries_pure _)
  have hpay : Carries StaysOwned (tx.payInAdvance env) :=
    (carries_modify fun s => (State.upholds_modifyAccount s _ _).owned).bind fun _ =>
      carries_changeBalances fun h => (takeFee_upholds h).owned
  exact hlate.bind fun _ => (carries_ofFault _).bind fun _ => hpay.bind fun _ =>
    (carries_ofFault _).bind fun _ => carries_get.bind fun _ => carries_ofFault _

theorem payCoinbase_staysOwned {fee : Nat} {t : State} (h : payCoinbase env fee s = .ok t) :
    StaysOwned s t := by
  obtain ⟨x, -, h⟩ := of_except_ok h
  cases h
  unfold setCoinbase
  split
  · exact (State.upholds_modifyAccount s _ _).owned
  · split
    · exact fun hs => hs.destroyAccount _
    · exact id

theorem clearUp_staysOwned (outcome : Outcome) : StaysOwned s (clearUp env outcome s) := by
  intro hs
  have hdeleted := hs.foldl_destroyAccount outcome.accountsToDelete.toList
  unfold clearUp
  dsimp only
  split
  · exact hdeleted.destroyEmpty _
  · exact hdeleted

theorem settle_carries (outcome : Outcome) : Carries StaysOwned (tx.settle env outcome) := by
  refine .when (carries_throw _) (fun _ => rfl) (.when (carries_throw _) (fun _ => rfl) ?_)
  exact (carries_changeBalances fun h => (State.upholds_of_addBalance h).owned).bind fun _ =>
    (carries_changeBalances payCoinbase_staysOwned).bind fun _ =>
      (carries_modify fun _ => clearUp_staysOwned outcome).bind fun _ => carries_pure _

theorem process_carries : Carries StaysOwned (tx.process env) :=
  prepare_carries.bind fun message => (carries_runMachine env (runCall_sustains message)).bind
    fun outcome => (settle_carries outcome).bind fun _ => carries_pure _

/-- The states that a settlement may go through: gas is paid back, the coinbase is paid, and
accounts are deleted one by one. -/
inductive Settling (env : Environment) (outcome : Outcome) (s : State) : State → Prop
  | start : Settling env outcome s s
  | refunded {t u : State} {n : Nat} : Settling env outcome s t →
      t.addBalance env.origin n = .ok u → Settling env outcome s u
  | paid {t u : State} {fee : Nat} : Settling env outcome s t → payCoinbase env fee t = .ok u →
      Settling env outcome s u
  | deleted {t : State} {a : Address} : Settling env outcome s t → a ∈ outcome.accountsToDelete →
      Settling env outcome s (t.destroyAccount a)
  | emptied {t : State} {a : Address} : Settling env outcome s t → a ∈ outcome.touchedAccounts →
      Settling env outcome s (t.destroyEmpty [a])

theorem Settling.owned {outcome : Outcome} {t : State} (h : Settling env outcome s t)
    (hs : s.Owned) : t.Owned := by
  induction h with
  | start => exact hs
  | refunded _ hadd ih => exact (State.upholds_of_addBalance hadd).owned ih
  | paid _ hpay ih => exact payCoinbase_staysOwned hpay ih
  | deleted _ _ ih => exact ih.destroyAccount _
  | emptied _ _ ih => exact ih.destroyEmpty _

/-- The states that a transaction goes through: that in which it is prepared, those between the
instructions of all its frames and wherever one of these instructions stops, those of the
settlement, and those in which its message and itself end. -/
inductive Passes (env : Environment) (tx : Transaction) (s : State) : State → Prop
  | start : Passes env tx s s
  | prepared : Passes env tx s (endOf (tx.prepare env s))
  | visited {m : Machine} : tx.Visits env s (fun _ _ => True) m → Passes env tx s m.world.state
  | fetched {m : Machine} : tx.Visits env s (fun _ _ => True) m →
      Passes env tx s (endOf (fetch env m)).world.state
  | stepped {m : Machine} : tx.Visits env s (fun _ _ => True) m →
      Passes env tx s (endOf (stepInstruction runMessage env m)).world.state
  | run {message : Message} {s₁ : State} : tx.prepare env s = .ok message s₁ →
      Passes env tx s (endOf (BlockOp.runMachine env (runCall message) s₁))
  | settling {message : Message} {s₁ s₂ t : State} {outcome : Outcome} :
      tx.prepare env s = .ok message s₁ →
      BlockOp.runMachine env (runCall message) s₁ = .ok outcome s₂ →
      Settling env outcome s₂ t → Passes env tx s t
  | done : Passes env tx s (endOf (tx.process env s))

theorem prepare_owned {message : Message} {s₁ : State} (hs : s.Owned)
    (h : tx.prepare env s = .ok message s₁) : s₁.Owned := prepare_carries.of_ok h hs

theorem Visits.owns {K : Message → Evm.World → Prop} {m : Machine} (h : tx.Visits env s K m)
    (hs : s.Owned) : m.Owns ∧ m.world.tracer = none := by
  obtain ⟨message, s₁, m₀, hprepare, -, -, hopens, hreaches⟩ := h
  exact ⟨hreaches.owns (hopens.owns (prepare_owned hs hprepare)),
    hreaches.untraced (hopens.untraced rfl)⟩

theorem Passes.owned {t : State} (h : Passes env tx s t) (hs : s.Owned) : t.Owned := by
  have hrun (message : Message) : Carries StaysOwned (BlockOp.runMachine env (runCall message)) :=
    carries_runMachine env (runCall_sustains message)
  cases h with
  | start => exact hs
  | prepared => exact prepare_carries.carried s hs
  | visited hm => exact (hm.owns hs).1.owned
  | fetched hm => exact (fetch_sustains.ends env _).owned (hm.owns hs).1.owned
  | stepped hm => exact (stepInstruction_sustains.ends env _).owned (hm.owns hs).1.owned
  | run hprepare => exact (hrun _).carried _ (prepare_owned hs hprepare)
  | settling hprepare hmachine hsettling =>
    exact hsettling.owned ((hrun _).of_ok hmachine (prepare_owned hs hprepare))
  | done => exact process_carries.carried s hs

theorem execute_carries (gas : Nat) : Carries StaysOwned (tx.execute env gas) :=
  carries_get.bind fun _ => (carries_ofExcept _).bind fun _ => process_carries.bind fun _ =>
    carries_pure _

end Transaction

namespace Body
open BlockOp
variable {env : Environment}

theorem applyTransaction_carries (p : Progress) (e : Envelope) :
    Carries StaysOwned (applyTransaction env p e) := by
  have hreceipt (error : Option Halt) : Carries StaysOwned (receiptResult env.fork error) :=
    .ite (carries_get.bind fun _ => (carries_ofExcept _).bind fun _ => carries_pure _)
      (carries_pure _)
  refine (carries_ofExcept _).bind fun tx => (Transaction.execute_carries _).bind
    fun (_, result) => ?_
  exact .when (carries_throw _) (fun _ => rfl) ((hreceipt _).bind fun _ => carries_pure _)

theorem storeBeaconRoot_carries (root : Hash) : Carries StaysOwned (storeBeaconRoot env root) :=
  carries_get.bind fun _ => (carries_runMachine _ (runCall_sustains _)).bind fun _ =>
    carries_modify fun _ hs => hs.destroyEmpty _

theorem payRewards_carries (ommers : List Header) : Carries StaysOwned (payRewards env ommers) :=
  (carries_step State.upholds_of_addBalance).bind fun _ => .forM (fun _ =>
    (carries_ofFault _).bind fun _ => carries_step State.upholds_of_addBalance) ommers

theorem payWithdrawal_carries (w : Withdrawal) : Carries StaysOwned (payWithdrawal w) :=
  (carries_step State.upholds_of_withdraw).bind fun _ =>
    carries_modify fun _ hs => hs.destroyEmpty _

theorem closeBody_carries (content : Content) (p : Progress) :
    Carries StaysOwned (closeBody env content p) :=
  .when (payRewards_carries _) (fun _ => rfl) <| .when (.forM payWithdrawal_carries _)
    (fun _ => rfl) <| carries_get.bind fun _ => (carries_ofFault _).bind fun _ => carries_pure _

theorem apply_carries (content : Content) : Carries StaysOwned (apply env content) := by
  rw [apply_eq]
  exact (Carries.ite (storeBeaconRoot_carries _) (carries_pure _)).bind fun _ =>
    (Carries.foldlM applyTransaction_carries _ _).bind fun p =>
      (Carries.ite (carries_ofExcept _) (carries_pure _)).bind fun _ => closeBody_carries content p

end Body

namespace State
variable {s : State} {e : Bytes × List UInt8}

theorem root_of_closed (h : s.snapshots = []) (hash : Bytes → Hash) :
    s.root hash = .ok (s.hashAll hash) := by
  unfold root
  rw [h]
  rfl

theorem accountPairs_ne_nil {hash : Bytes → Hash} (h : e ∈ s.accountPairs hash) : e.2 ≠ [] := by
  obtain ⟨f, -, rfl⟩ := List.mem_map.mp h
  exact Rlp.encode_ne_nil _

theorem slotPairs_ne_nil {slots : Slots} (h : e ∈ slotPairs slots) : e.2 ≠ [] :=
  (placeable_slotPairs slots).nonempty e h

theorem owned_of_empty (h : s.storage = ∅) : s.Owned := by
  refine ⟨fun a ha => ?_, fun a slots hslots => ?_, fun a key => ?_⟩
  · rw [h] at ha
    exact absurd ha Std.ExtTreeMap.not_mem_empty
  · rw [h, Std.ExtTreeMap.getElem?_empty] at hslots
    cases hslots
  · rw [h, Storage.slot?_empty]
    nofun

end State

namespace Chain

/-- Where each address that has storage has an account, no map of slots is empty and no slot holds
zero, this stays so at every point of every transaction and after every block that is accepted.
Hence no store misses its account, and if no snapshot is open, the root can be formed: each account
and each slot has an entry to place. -/
theorem storage_stays_owned :
    (∀ (env : Environment) (tx : Transaction) (s t : State), s.Owned → tx.Passes env s t →
      t.Owned) ∧
    (∀ (env : Environment) (tx : Transaction) (s : State) (m : Machine), s.Owned →
      tx.Visits env s (fun _ _ => True) m →
        (∀ key value, ∃ t,
          m.world.state.setStorage m.frame.message.currentTarget key value = .ok t) ∧
        ∀ m', Step.sstore env m ≠ .error (.fault .brokenInvariant) m') ∧
    (∀ (fork : Fork) (work : WorkCheck) (block : Block) (c c' : Chain), c.state.Owned →
      apply fork work block c = .ok () c' → c'.state.Owned) ∧
    ∀ s : State, s.Owned → s.snapshots = [] → (∃ root, s.root keccak256 = .ok root) ∧
      (∀ e ∈ s.accountPairs keccak256, e.2 ≠ []) ∧
      ∀ (a : Address) (slots : Slots), s.storage[a]? = some slots →
        ∀ e ∈ State.slotPairs slots, e.2 ≠ [] := by
  refine ⟨fun env tx s t hs h => h.owned hs, fun env tx s m hs hm => ?_,
    fun fork work block c c' hs h => ?_, fun s _ hclosed => ⟨⟨_, State.root_of_closed hclosed _⟩,
      fun e he => State.accountPairs_ne_nil he, fun a slots _ e he => State.slotPairs_ne_nil he⟩⟩
  · obtain ⟨howns, huntraced⟩ := hm.owns hs
    exact ⟨fun key value => ⟨_, State.setStorage_of_exists howns.target key value⟩,
      fun m' => Step.sstore_ne_brokenInvariant howns huntraced⟩
  · obtain ⟨summary, hbody⟩ := body_of_apply_ok h
    exact (Body.apply_carries _).of_ok hbody hs

def beforeStore : State := Transaction.beforeTransfer ⟨#[0x60, 7, 0x60, 1, 0x55]⟩ 1

/-- The transfer makes its recipient store a word. Two instructions later it comes to the store, and
in the end the word is there. -/
theorem storage_stays_owned_stored :
    let env := (⟨0xa94f5374fce5edbc8e2a8697c15331677e6ebf0b, 10, []⟩ :
      Transaction.Approved).environment { (default : Environment) with fork := .istanbul }
    (∃ t, Transaction.transfer.Passes env beforeStore t ∧ t.getStorage 0x900 1 = 7 ∧ t.Owned) ∧
    (∃ m, Transaction.transfer.Visits env beforeStore (fun _ _ => True) m ∧
      m.opcode? env = some .sstore ∧
      (∃ t, m.world.state.setStorage m.frame.message.currentTarget 1 7 = .ok t) ∧
      ∀ m', Step.sstore env m ≠ .error (.fault .brokenInvariant) m') ∧
    (idleChain 1).state.Owned ∧ ∃ root, beforeStore.root keccak256 = .ok root := by
  intro env
  have hs : beforeStore.Owned := State.owned_of_empty rfl
  obtain ⟨hpoints, hstores, hblocks, hroots⟩ := storage_stays_owned
  refine ⟨?_, ?_, ?_, (hroots beforeStore hs rfl).1⟩
  · have hrun : okWith (fun _ t => t.getStorage 0x900 1 == 7)
        (Transaction.transfer.process env beforeStore) = true := by decide +kernel
    obtain ⟨result, t, hprocess, hvalue⟩ := of_okWith hrun
    have hpasses : Transaction.transfer.Passes env beforeStore t := by
      have hdone : Transaction.transfer.Passes env beforeStore
        (endOf (Transaction.transfer.process env beforeStore)) := .done
      rw [hprocess] at hdone
      exact hdone
    exact ⟨t, hpasses, by simpa using hvalue, hpoints env _ beforeStore t hs hpasses⟩
  · have hrun : okWith (fun message s₁ => !message.isTaken s₁ && (message.precompile? env).isNone &&
        okWith (fun _ w => (advance env 2 ⟨.ofMessage message, w⟩).any fun m =>
          decide (m.opcode? env = some .sstore)) (openFrame message env { state := s₁ }))
        (Transaction.transfer.prepare env beforeStore) = true := by decide +kernel
    obtain ⟨message, s₁, hprepare, hrun⟩ := of_okWith hrun
    simp only [Bool.and_eq_true, Bool.not_eq_true', Option.isNone_iff_eq_none] at hrun
    obtain ⟨⟨hfree, hcode⟩, hrun⟩ := hrun
    obtain ⟨_, w, hopen, hrun⟩ := of_okWith hrun
    obtain ⟨m, hadvance, hopcode⟩ := (Option.any_eq_true _ _).mp hrun
    have hvisits : Transaction.transfer.Visits env beforeStore (fun _ _ => True) m :=
      ⟨message, s₁, ⟨.ofMessage message, w⟩, hprepare, hfree, trivial, ⟨hcode, hopen, rfl⟩,
        .of_advance hadvance⟩
    obtain ⟨hfinds, hne⟩ := hstores env _ beforeStore m hs hvisits
    exact ⟨m, hvisits, of_decide_eq_true hopcode, hfinds 1 7, hne⟩
  · exact hblocks .paris .none (idleBlock 1) (idleChain 0) (idleChain 1) (State.owned_of_empty rfl)
      (apply_idleBlock .none (by decide))

end Chain

end ExecutionLayer
