import ExecutionLayer.Proofs.Evm.Containment
import ExecutionLayer.Proofs.Evm.Refund

/-! # What instructions do

By itself an instruction that succeeds stores a word, counts up a nonce or gives a balance away, all
of this at its own account, and may ask for a call or a creation. What frames do to the world is
shown from these few cases.
-/
set_option synthInstance.maxSize 100000
namespace ExecutionLayer.Evm
open Exec Step Relation
variable {m m' : Machine} {α : Type} {env : Environment}

/-- The part of a machine that others see when the frame has succeeded. -/
structure Standing where
  state : State
  transient : Transient
  message : Message
  accountsToDelete : AddressSet
  touchedAccounts : AddressSet

def Standing.current (c : Standing) : Address := c.message.currentTarget

def Machine.standing (m : Machine) : Standing :=
  ⟨m.world.state, m.world.transient, m.frame.message, m.frame.accountsToDelete,
    m.frame.touchedAccounts⟩

def Alike (m m' : Machine) : Prop := m'.standing = m.standing

instance : IsPreorder Machine Alike where
  refl _ := rfl
  trans _ _ _ h h' := Eq.trans h' h

theorem Quiet.alike (h : Quiet m m') : Alike m m' := by
  unfold Alike Machine.standing
  rw [h.state, h.transient, h.message, h.accountsToDelete, h.touchedAccounts]

instance : AllowsQuiet Alike := ⟨Quiet.alike⟩

theorem Keeps.alike {cost : Int} {op : Exec α} (h : Keeps Quiet cost op) :
    Sustains Alike op := h.sustained.mono Quiet.alike

theorem Made.alike {op : Exec α} [Made (.keeping Quiet) op] : Sustains Alike op := Made.kept.alike

theorem alike_of_ok {op : Exec α} {v : α}
    (hop : Sustains Alike op) (h : op env m = .ok v m') : m'.standing = m.standing := hop.of_ok h

/-- A call on behalf of the current account. A delegated call has another caller, but sends no
value. -/
structure Calls (env : Environment) (c : Standing) (message : Message) : Prop where
  target : message.target = some message.currentTarget
  deletedAbove : message.deletedAbove = addressUnion c.message.deletedAbove c.accountsToDelete
  parties : message.caller = c.current ∧ (message.currentTarget = c.current ∨
      message.code = (c.state.account message.currentTarget).code) ∨
    message.currentTarget = c.current ∧ message.shouldTransferValue = false ∧
      env.fork ≠ .frontier

/-- A creation by the current account, at an address where nothing is. -/
structure Creates (c : Standing) (message : Message) : Prop where
  target : message.target = none
  caller : message.caller = c.current
  free : c.state.hasCodeOrNonce message.currentTarget = false
  deletedAbove : message.deletedAbove = addressUnion c.message.deletedAbove c.accountsToDelete

structure Bequeaths (c : Standing) (beneficiary : Address) (c' : Standing) : Prop where
  pays : c.state.Pays c.current beneficiary c'.state
  transient : c'.transient = c.transient
  message : c'.message = c.message
  deleted : ∀ a ∈ c'.accountsToDelete,
    a = c.current ∨ a ∈ c.accountsToDelete ∨ a ∈ c.message.deletedAbove
  touched : c'.touchedAccounts = if c'.state.existsAndIsEmpty beneficiary
    then c.touchedAccounts.insert beneficiary else c.touchedAccounts

/-- What an instruction does by itself, and the message that it asks to be run. -/
inductive Effect (env : Environment) (c : Standing) : Option Message → Standing → Prop
  | calm : Effect env c none c
  | store (key value : Word) : Effect env c none { c with state :=
      { c.state with storage := c.state.storage.set c.current key value } }
  | storeTransient (key value : Word) :
      Effect env c none { c with transient := c.transient.set c.current key value }
  | collide : Effect env c none { c with state := c.state.incrementNonce c.current }
  | destroy {beneficiary : Address} {c' : Standing} : Bequeaths c beneficiary c' →
      Effect env c none c'
  | call {message : Message} : Calls env c message → Effect env c (some message) c
  | create {message : Message} : Creates c message →
      Effect env c (some message) { c with state := c.state.incrementNonce c.current }

theorem Effect.asks {c c' : Standing} {message : Message}
    (h : Effect env c (some message) c') : Calls env c message ∧ c' = c ∨
      Creates c message ∧ c' = { c with state := c.state.incrementNonce c.current } := by
  cases h with
  | call h => exact Or.inl ⟨h, rfl⟩
  | create h => exact Or.inr ⟨h, rfl⟩

/-- An operation that has one of the effects in a frame whose message is as `P` says. -/
class Acts (env : Environment) (P : Message → Prop) (op : Exec (Option Pending)) : Prop where
  effect : ∀ {m p m'}, P m.frame.message → op env m = .ok p m' →
    Effect env m.standing (p.map (·.message)) m'.standing

section Acts
variable {P : Message → Prop}

theorem Acts.after {x : Exec α} {f : α → Exec (Option Pending)} (hx : Sustains Alike x)
    (hf : ∀ v, Acts env P (f v)) : Acts env P (x >>= f) := by
  refine ⟨fun {m p m'} hP h => ?_⟩
  obtain ⟨v, m₁, hv, h⟩ := of_bind_ok h
  have hs := alike_of_ok hx hv
  have hmessage : m₁.frame.message = m.frame.message := congrArg Standing.message hs
  rw [← hs]
  exact (hf v).effect (hmessage ▸ hP) h

instance {x : Exec α} {f : α → Exec (Option Pending)} [hx : Made (.sustaining Alike) x]
    [hf : ∀ v, Acts env P (f v)] : Acts env P (x >>= f) := .after hx.sustained hf

def Known (P : Message → Prop) (message message' : Message) : Prop := P message' ∧ message' = message

/-- What is read from the message holds as long as the frame runs. -/
instance (priority := high) {f : Message → Exec (Option Pending)}
    [hf : ∀ message, Acts env (Known P message) (f message)] : Acts env P (message >>= f) :=
  ⟨fun {m _ _} hP h => (hf m.frame.message).effect ⟨hP, rfl⟩ h⟩

instance {c : Prop} [Decidable c] {x y : Exec (Option Pending)} [hx : Acts env P x]
    [hy : Acts env P y] : Acts env P (if c then x else y) := by
  split
  · exact hx
  · exact hy

instance : Acts env P (pure none) := by
  refine ⟨fun _ h => ?_⟩
  cases h
  exact .calm

end Acts

namespace Step
variable {P : Message → Prop}

instance : Acts env P decline := by unfold decline; infer_instance

def Call.Suits (env : Environment) (c : Call) (message : Message) : Prop :=
  c.caller = message.currentTarget ∧
      (c.target = message.currentTarget ∨ c.codeAddress = c.target) ∨
    c.target = message.currentTarget ∧ c.transfersValue = false ∧ env.fork ≠ .frontier

theorem enter_acts {c : Call} (r : Ranges) (hc : ∀ message, P message → c.Suits env message) :
    Acts env P (enter c r) := by
  refine .after Made.alike fun _ => ⟨fun {m p m'} hP h => ?_⟩
  rw [bind_of_ok frame_ok] at h
  split at h
  · exact Acts.effect hP h
  · cases h
    refine .call ⟨rfl, rfl, ?_⟩
    rcases hc _ hP with ⟨hcaller, hcode⟩ | hdelegated
    · refine Or.inl ⟨hcaller, hcode.imp_right fun hcode => ?_⟩
      change (m.world.state.account c.codeAddress).code = (m.world.state.account c.target).code
      rw [hcode]
    · exact Or.inr hdelegated

section Calls
variable {gas : Nat} {value : Word} {caller target code : Address} {transfers isStatic : Bool}
  {r : Ranges} {message : Message}

instance : Acts env (Known P message)
    (enter ⟨gas, value, message.currentTarget, target, target, transfers, isStatic⟩ r) :=
  enter_acts r fun _ h => Or.inl ⟨congrArg Message.currentTarget h.2.symm, Or.inr rfl⟩

instance : Acts env (Known P message) (enter
    ⟨gas, value, message.currentTarget, message.currentTarget, code, transfers, isStatic⟩ r) :=
  enter_acts r fun _ h => Or.inl
    ⟨congrArg Message.currentTarget h.2.symm, Or.inl (congrArg Message.currentTarget h.2.symm)⟩

instance [hfork : Fact (env.fork ≠ .frontier)] : Acts env (Known P message)
    (enter ⟨gas, value, caller, message.currentTarget, code, false, isStatic⟩ r) :=
  enter_acts r fun _ h => Or.inr ⟨congrArg Message.currentTarget h.2.symm, rfl, hfork.out⟩

instance [Acts env P (enter ⟨gas, value, caller, target, code, transfers, isStatic⟩ r)] :
    Acts env P (enterWithValue ⟨gas, value, caller, target, code, transfers, isStatic⟩ r) := by
  unfold enterWithValue
  infer_instance

end Calls

instance (endowment : Word) (address : Address) (initCode : Bytes) (gas : Nat) :
    Acts env P (createTail endowment address initCode gas) := by
  refine .after Made.alike fun _ => .after Made.alike fun _ =>
    ⟨fun {m p m'} hP h => ?_⟩
  rw [bind_of_ok message_ok, bind_of_ok state_ok] at h
  split at h
  · exact Acts.effect hP h
  · rw [bind_of_ok state_ok] at h
    split at h
    · obtain ⟨_, m₁, hcount, hdecline⟩ := of_bind_ok h
      cases hcount
      obtain ⟨_, m₂, hpush, hrest⟩ := of_bind_ok hdecline
      obtain ⟨_, m₃, hnext, hnone⟩ := of_bind_ok hrest
      have hp := EStateM.Result.ok.inj hnone
      rw [← hp.1, ← hp.2, alike_of_ok Made.alike hnext, alike_of_ok Made.alike hpush]
      exact .collide
    · next hfree =>
      cases h
      have hfree : m.world.state.hasCodeOrNonce address = false := by simpa using hfree
      exact .create ⟨rfl, rfl, hfree, rfl⟩

instance (endowment : Word) (address : Address) (start size : Nat) :
    Acts env P (createAt endowment address start size) := by
  have hrest (initCode : Bytes) : Acts env P
    (withdrawCreateGas >>= createTail endowment address initCode) := inferInstance
  unfold createTail at hrest
  dsimp only [createAt]
  infer_instance

theorem addRefund_alike (amount : Int) : Sustains Alike (addRefund amount) :=
  ⟨fun _ => carries_modify fun _ => rfl⟩

theorem sstore_acts : Acts env P (do sstore; return none) := by
  unfold sstore
  simp only [bind_assoc]
  refine .after Made.alike fun key => .after Made.alike fun new =>
    .after Made.alike fun _ => .after (addRefund_alike _) fun _ =>
      .after Made.alike fun _ => .after Made.alike fun _ =>
        ⟨fun {m p m'} _ h => ?_⟩
  rw [bind_of_ok message_ok] at h
  obtain ⟨_, m₁, hset, hrest⟩ := of_bind_ok h
  obtain ⟨_, m₂, hnext, hnone⟩ := of_bind_ok hrest
  have hp := EStateM.Result.ok.inj hnone
  rw [← hp.1, ← hp.2, alike_of_ok Made.alike hnext, setStorage_of_ok hset]
  exact .store key new

theorem tstore_acts : Acts env P (do tstore; return none) := by
  unfold tstore
  simp only [bind_assoc]
  refine .after Made.alike fun key => .after Made.alike fun new =>
    .after Made.alike fun _ => .after Made.alike fun _ =>
      ⟨fun {m p m'} _ h => ?_⟩
  rw [bind_of_ok message_ok] at h
  obtain ⟨_, m₁, hset, hrest⟩ := of_bind_ok h
  cases hset
  obtain ⟨_, m₂, hnext, hnone⟩ := of_bind_ok hrest
  have hp := EStateM.Result.ok.inj hnone
  rw [← hp.1, ← hp.2, alike_of_ok Made.alike hnext]
  exact .storeTransient key new

instance (topicCount : Nat) : Made (.sustaining Alike) (log topicCount) :=
  log_made (L := .sustaining Alike) (fun _ => ⟨fun _ => carries_modify fun _ => rfl⟩) topicCount

theorem mem_addressUnion {a : Address} {s t : AddressSet} :
    a ∈ addressUnion s t ↔ a ∈ s ∨ a ∈ t := by
  have hlist (l : List Address) (s : AddressSet) :
      a ∈ l.foldl (fun s x => s.insert x) s ↔ a ∈ s ∨ a ∈ l := by
    induction l generalizing s with
    | nil => simp
    | cons b l ih =>
      rw [List.foldl_cons, ih, Std.ExtTreeSet.mem_insert, Std.compare_eq_iff_eq, List.mem_cons,
        eq_comm]
      tauto
  rw [addressUnion, Std.ExtTreeSet.foldl_eq_foldl_toList, hlist, Std.ExtTreeSet.mem_toList]

/-- At most the accounts that are deleted above have been marked for deletion. -/
structure Counts (m m' : Machine) : Prop where
  rest : m'.standing = { m.standing with accountsToDelete := m'.frame.accountsToDelete }
  deleted : ∀ a ∈ m'.frame.accountsToDelete,
    a ∈ m.frame.accountsToDelete ∨ a ∈ m.frame.message.deletedAbove

theorem Counts.message (h : Counts m m') : m'.frame.message = m.frame.message :=
  congrArg Standing.message h.rest

instance : IsPreorder Machine Counts where
  refl _ := ⟨rfl, fun _ => Or.inl⟩
  trans _ _ _ h h' := by
    refine ⟨?_, fun a ha => ?_⟩
    · rw [h'.rest, h.rest]
    · rcases h'.deleted a ha with ha | ha
      · exact h.deleted a ha
      · rw [h.message] at ha
        exact Or.inr ha

theorem counts_of_alike (h : Alike m m') : Counts m m' := by
  have hdeleted : m'.frame.accountsToDelete = m.frame.accountsToDelete :=
    congrArg Standing.accountsToDelete h
  refine ⟨?_, fun a ha => Or.inl (hdeleted ▸ ha)⟩
  rw [hdeleted, h]
  rfl

instance : AllowsQuiet Counts := ⟨fun h => counts_of_alike h.alike⟩

instance : Made (.sustaining Counts) payDestruction := by
  have : Made (.sustaining Counts) (modifyFrame fun f =>
      { f with accountsToDelete := addressUnion f.accountsToDelete f.message.deletedAbove }) :=
    ⟨⟨fun _ => carries_modify fun _ => ⟨rfl, fun _ => mem_addressUnion.mp⟩⟩⟩
  have (amount : Int) : Made (.sustaining Counts) (addRefund amount) :=
    ⟨⟨fun _ => carries_modify fun _ => counts_of_alike rfl⟩⟩
  dsimp only [payDestruction, refundDestruction]
  infer_instance

theorem giveAway_of_ok {account beneficiary : Address}
    (h : giveAway account beneficiary env m = .ok () m') :
    m.world.state.Pays account beneficiary m'.world.state ∧
      m'.standing = { m.standing with
        state := m'.world.state, accountsToDelete := m'.frame.accountsToDelete } ∧
      ∀ a ∈ m'.frame.accountsToDelete, a = account ∨ a ∈ m.frame.accountsToDelete := by
  have hmark (a : Address) (ha : a ∈ m.frame.accountsToDelete.insert account) :
      a = account ∨ a ∈ m.frame.accountsToDelete := by
    rw [Std.ExtTreeSet.mem_insert, Std.compare_eq_iff_eq] at ha
    exact ha.imp_left Eq.symm
  unfold giveAway at h
  rw [bind_of_ok fork_ok] at h
  split at h
  · rw [destroyIfCreated_apply] at h
    split at h
    · next t hmove =>
      have hpays := State.pays_of_moveEther hmove
      split at h
      · cases h
        exact ⟨hpays.trans (State.pays_setBalance t account beneficiary 0), rfl, hmark⟩
      · cases h
        exact ⟨hpays, rfl, fun _ => Or.inr⟩
    · cases h
  · rw [destroy_apply] at h
    split at h
    · next t hadd =>
      cases h
      exact ⟨(State.pays_of_addBalance hadd account).trans
        (State.pays_setBalance t account beneficiary 0), rfl, hmark⟩
    · cases h

theorem touchIfEmpty_of_ok {a : Address}
    (h : touchIfEmpty a env m = .ok () m') : m'.standing = { m.standing with
      touchedAccounts := if m.world.state.existsAndIsEmpty a
        then m.frame.touchedAccounts.insert a else m.frame.touchedAccounts } := by
  unfold touchIfEmpty at h
  rw [bind_of_ok state_ok] at h
  by_cases he : m.world.state.existsAndIsEmpty a
  · rw [if_pos he] at h
    cases h
    rw [if_pos he]
    rfl
  · rw [if_neg he] at h
    cases h
    rw [if_neg he]
    rfl

theorem selfdestruct_acts : Acts env P (do selfdestruct; return none) := by
  refine ⟨fun {m p m'} _ h => ?_⟩
  obtain ⟨_, m₀, hdestroy, hnone⟩ := of_bind_ok h
  have hp := EStateM.Result.ok.inj hnone
  obtain ⟨beneficiary, m₁, hpay, hdestroy⟩ := of_bind_ok hdestroy
  rw [bind_of_ok message_ok] at hdestroy
  obtain ⟨_, m₂, hgive, hdestroy⟩ := of_bind_ok hdestroy
  obtain ⟨_, m₃, htouch, hfinish⟩ := of_bind_ok hdestroy
  have hcounts : Counts m m₁ := Made.sustained.of_ok hpay
  obtain ⟨hpays, hrest, hdeleted⟩ := giveAway_of_ok hgive
  have hstate : m₁.world.state = m.world.state := congrArg Standing.state hcounts.rest
  rw [← hp.1, ← hp.2, alike_of_ok Made.alike hfinish, touchIfEmpty_of_ok htouch]
  rw [hcounts.message, hstate] at hpays
  have htouched : m₂.frame.touchedAccounts = m.frame.touchedAccounts :=
    (congrArg Standing.touchedAccounts hrest).trans (congrArg Standing.touchedAccounts hcounts.rest)
  have htransient : m₂.world.transient = m.world.transient :=
    (congrArg Standing.transient hrest).trans (congrArg Standing.transient hcounts.rest)
  have message_ok : m₂.frame.message = m.frame.message :=
    (congrArg Standing.message hrest).trans hcounts.message
  refine .destroy ⟨hpays, htransient, message_ok, fun a ha => ?_, ?_⟩
  · rcases hdeleted a ha with ha | ha
    · exact Or.inl (ha.trans (congrArg Message.currentTarget hcounts.message))
    · exact Or.inr (hcounts.deleted a ha)
  · dsimp only
    rw [htouched]
    rfl

theorem executeAlone_acts (op : Opcode) : Acts env P (do executeAlone op; return none) := by
  have hm (h : ¬op.Writes) : Acts env P (do move op; return none) :=
    .after (move_quiet h).alike fun _ => inferInstance
  cases op
  case sstore => exact sstore_acts
  case tstore => exact tstore_acts
  case selfdestruct => exact selfdestruct_acts
  case log | stop | jump | jumpi | jumpdest | ret | revert =>
    dsimp only [executeAlone, move, jump, jumpi, jumpdest]
    infer_instance
  all_goals exact hm id

theorem execute_acts {op : Opcode} (hfork : op.since ≤ env.fork) : Acts env P (execute op) := by
  have ha : Acts env P (do executeAlone op; return none) := executeAlone_acts op
  cases op
  case create | create2 | call | callcode | staticcall =>
    dsimp only [execute, create, create2, call, callcode, staticcall]
    infer_instance
  case delegatecall =>
    have : Fact (env.fork ≠ .frontier) := ⟨fun h => by
      rw [h] at hfork
      exact absurd hfork (by decide)⟩
    dsimp only [execute, delegatecall]
    infer_instance
  all_goals exact ha

end Step

theorem fetch_effect {p : Option Pending} (h : fetch env m = .ok p m') :
    Effect env m.standing (p.map (·.message)) m'.standing := by
  obtain ⟨op, hop, h⟩ := of_fetch_ok h
  exact (Acts.after (P := fun _ => True) (trace_quiet _).alike fun _ =>
    execute_acts (since_le_of_opcode? hop)).effect trivial h

end ExecutionLayer.Evm
