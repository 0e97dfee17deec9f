import ExecutionLayer.Proofs.Evm.Child
import ExecutionLayer.Proofs.State.Payment

/-! # Single instructions

What an instruction does to its frame and to the world, up to the frame that it asks for, and what
is done when that frame has been run. An instruction that does not end the frame takes some gas,
whatever it gets back.
-/
set_option synthInstance.maxSize 100000
namespace ExecutionLayer.Evm
open Exec Step
variable {cost : Int} {α : Type} {m m' : Machine} {env : Environment} {op : Opcode}

/-- The world is the same, up to the trace, and the frame answers to the same message. -/
structure Still (m m' : Machine) : Prop where
  state : m'.world.state = m.world.state
  transient : m'.world.transient = m.world.transient
  untraced : m.world.tracer = none → m'.world.tracer = none
  message : m'.frame.message = m.frame.message
  error : m'.frame.error = m.frame.error

instance : IsPreorder Machine Still where
  refl _ := ⟨rfl, rfl, id, rfl, rfl⟩
  trans _ _ _ h h' :=
    ⟨h'.state.trans h.state, h'.transient.trans h.transient, h'.untraced ∘ h.untraced,
      h'.message.trans h.message, h'.error.trans h.error⟩

instance : AllowsQuiet Still := ⟨fun h => ⟨h.state, h.transient, h.untraced, h.message, h.error⟩⟩

theorem Keeps.still {op : Exec α} (h : Keeps Quiet cost op) : Keeps Still cost op :=
  h.mono AllowsQuiet.quiet le_rfl

/-- The snapshots are the same, and the frame answers to the same message. -/
structure Local (m m' : Machine) : Prop where
  snapshots : m'.world.state.snapshots = m.world.state.snapshots
  transientSnapshots : m'.world.transient.snapshots = m.world.transient.snapshots
  untraced : m.world.tracer = none → m'.world.tracer = none
  message : m'.frame.message = m.frame.message
  error : m'.frame.error = m.frame.error

instance : IsPreorder Machine Local where
  refl _ := ⟨rfl, rfl, id, rfl, rfl⟩
  trans _ _ _ h h' :=
    ⟨h'.snapshots.trans h.snapshots, h'.transientSnapshots.trans h.transientSnapshots,
      h'.untraced ∘ h.untraced, h'.message.trans h.message, h'.error.trans h.error⟩

theorem Steady.toLocal (h : Steady m m') : Local m m' :=
  ⟨h.snapshots, h.transientSnapshots, h.untraced, h.message, h.error⟩

theorem Still.toLocal (h : Still m m') : Local m m' :=
  ⟨by rw [h.state], by rw [h.transient], h.untraced, h.message, h.error⟩

instance : AllowsQuiet Local := ⟨fun h => h.steady.toLocal⟩

/-! ## Destruction -/

section Destruction
variable {account beneficiary : Address}

theorem changeBalances_of_ok {op : StateOp Unit} {t : State} (h : op m.world.state = .ok () t) :
    onWorld (.changeBalances op) env m =
      .ok () { m with world := { m.world with state := t } } := by
  simp only [onWorld, WorldOp.changeBalances, WorldOp.onState, h]

theorem changeBalances_of_error {op : StateOp Unit} {f : Fault} {t : State}
    (h : op m.world.state = .error f t) :
    onWorld (.changeBalances op) env m =
      .error (.imbalance f) { m with world := { m.world with state := t } } := by
  simp only [onWorld, WorldOp.changeBalances, WorldOp.onState, h]

instance : Made (.keeping Still) refundDestruction := by
  have (g : Frame → AddressSet) : Made (.keeping Still) (modifyFrame fun f =>
      { f with accountsToDelete := g f }) :=
    ⟨keeps_modifyFrame (fun _ => ⟨rfl, rfl, id, rfl, rfl⟩) (by simp)⟩
  have (amount : Int) : Made (.keeping Still) (addRefund amount) :=
    ⟨keeps_modifyFrame (fun _ => ⟨rfl, rfl, id, rfl, rfl⟩) (by simp)⟩
  dsimp only [refundDestruction]
  infer_instance

instance : Made (.keeping Still) payDestruction := by unfold payDestruction; infer_instance

instance (address : Address) : Made (.keeping Still) (touchIfEmpty address) := by
  have : Made (.keeping Still) (modifyFrame fun f =>
      { f with touchedAccounts := f.touchedAccounts.insert address }) :=
    ⟨keeps_modifyFrame (fun _ => ⟨rfl, rfl, id, rfl, rfl⟩) (by simp)⟩
  unfold touchIfEmpty
  infer_instance

/-- What is changed by a destruction once it is paid: accounts, and the accounts to delete. -/
structure GivenAway (m m' : Machine) : Prop where
  state : m'.world.state = { m.world.state with accounts := m'.world.state.accounts }
  sameCode : State.SameCode m.world.state m'.world.state
  transient : m'.world.transient = m.world.transient
  tracer : m'.world.tracer = m.world.tracer
  frame : m'.frame = { m.frame with accountsToDelete := m'.frame.accountsToDelete }

theorem GivenAway.toLocal (h : GivenAway m m') : Local m m' :=
  ⟨(congrArg State.snapshots h.state :), congrArg Transient.snapshots h.transient,
    fun ht => h.tracer.trans ht, (congrArg Frame.message h.frame :),
    (congrArg Frame.error h.frame :)⟩

theorem destroy_apply : destroy account beneficiary env m =
    match m.world.state.addBalance beneficiary (m.world.state.balance account) with
    | .ok t => .ok () {
        frame := { m.frame with accountsToDelete := m.frame.accountsToDelete.insert account }
        world := { m.world with state := t.setBalance account 0 } }
    | .error f => .error (.imbalance f) m := by
  unfold destroy
  rw [bind_of_ok state_ok]
  cases h : m.world.state.addBalance beneficiary (m.world.state.balance account) with
  | ok t =>
    have hs : State.step (·.addBalance beneficiary (m.world.state.balance account)) m.world.state =
        .ok () t := by rw [State.step, h]
    exact (bind_of_ok (changeBalances_of_ok hs) _).trans rfl
  | error f =>
    have hs : State.step (·.addBalance beneficiary (m.world.state.balance account)) m.world.state =
        .error f m.world.state := by rw [State.step, h]
    exact bind_of_error (changeBalances_of_error hs) _

theorem destroyIfCreated_apply : destroyIfCreated account beneficiary env m =
    match State.moveEther account beneficiary (m.world.state.account account).balance
      m.world.state with
    | .ok _ t =>
      if t.created.contains account then .ok () {
        frame := { m.frame with accountsToDelete := m.frame.accountsToDelete.insert account }
        world := { m.world with state := t.setBalance account 0 } }
      else .ok () { m with world := { m.world with state := t } }
    | .error f t => .error (.imbalance f) { m with world := { m.world with state := t } } := by
  have hstate (m : Machine) : state env m = .ok m.world.state m := rfl
  unfold destroyIfCreated
  rw [bind_of_ok (hstate m)]
  cases h : State.moveEther account beneficiary (m.world.state.account account).balance
      m.world.state with
  | ok _ t =>
    rw [bind_of_ok (changeBalances_of_ok h), bind_of_ok (hstate _)]
    by_cases hc : t.created.contains account
    · simp only [hc, ↓reduceIte]
      rfl
    · simp only [hc, ↓reduceIte, Bool.false_eq_true]
      rfl
  | error f t => rw [bind_of_error (changeBalances_of_error h)]

theorem giveAway_cases (env : Environment) (m : Machine) (account beneficiary : Address) :
    (∃ m', giveAway account beneficiary env m = .ok () m' ∧ GivenAway m m') ∨
      ∃ f m', giveAway account beneficiary env m = .error (.imbalance f) m' := by
  unfold giveAway
  rw [bind_of_ok fork_ok]
  split
  · rw [destroyIfCreated_apply]
    cases h : State.moveEther account beneficiary (m.world.state.account account).balance
        m.world.state with
    | ok _ t =>
      have ht := State.moveEther_accounts h
      have hc := State.sameCode_of_moveEther h
      have hd : t.setBalance account 0 =
          { m.world.state with accounts := (t.setBalance account 0).accounts } := by
        conv_lhs => rw [ht]
        rw [ht]
        rfl
      by_cases hcreated : t.created.contains account
      · simp only [hcreated, ↓reduceIte]
        exact Or.inl ⟨_, rfl, hd, hc.trans (State.sameCode_setBalance 0), rfl, rfl, rfl⟩
      · simp only [hcreated, ↓reduceIte, Bool.false_eq_true]
        exact Or.inl ⟨_, rfl, ht, hc, rfl, rfl, rfl⟩
    | error f t => exact Or.inr ⟨f, _, rfl⟩
  · rw [destroy_apply]
    cases h : m.world.state.addBalance beneficiary (m.world.state.balance account) with
    | ok t =>
      obtain ⟨y, rfl⟩ := State.of_addBalance_ok h
      exact Or.inl ⟨_, rfl, rfl, (State.sameCode_setBalance y).trans (State.sameCode_setBalance 0),
        rfl, rfl, rfl⟩
    | error f => exact Or.inr ⟨f, _, rfl⟩

end Destruction

/-! ## Up to the frame that is asked for -/

def Machine.opcode? (env : Environment) (m : Machine) : Option Opcode :=
  Opcode.decode env.fork (m.frame.code.get m.frame.pc)

theorem fetch_of_none (h : m.opcode? env = none) :
    fetch env m = .error (.halt (.invalidOpcode (m.frame.code.get m.frame.pc))) m := by
  unfold fetch
  rw [bind_of_ok get_ok, bind_of_ok fork_ok]
  rw [Machine.opcode?] at h
  rw [h]
  rfl

theorem fetch_of_some (h : m.opcode? env = some op) :
    fetch env m = (trace (.opStart op) >>= fun _ => execute op) env m := by
  unfold fetch
  rw [bind_of_ok get_ok, bind_of_ok fork_ok]
  rw [Machine.opcode?] at h
  rw [h]

theorem of_fetch_ok {p : Option Pending} (h : fetch env m = .ok p m') : ∃ op,
    m.opcode? env = some op ∧ (trace (.opStart op) >>= fun _ => execute op) env m = .ok p m' := by
  cases hop : m.opcode? env with
  | none =>
    rw [fetch_of_none hop] at h
    cases h
  | some op => exact ⟨op, rfl, (fetch_of_some hop).symm.trans h⟩

theorem of_opcode? (h : m.opcode? env = some op) :
    Opcode.ofByte? (m.frame.code.get m.frame.pc) = some op ∧ op.since ≤ env.fork := by
  unfold Machine.opcode? Opcode.decode at h
  split at h
  · next hop =>
    split at h
    · next hle =>
      cases h
      exact ⟨hop, hle⟩
    · cases h
  · cases h

theorem since_le_of_opcode? (h : m.opcode? env = some op) : op.since ≤ env.fork := (of_opcode? h).2

theorem executeAlone_steady (hstop : op ≠ .stop) (hret : op ≠ .ret)
    (hrevert : op ≠ .revert) (hdestroy : op ≠ .selfdestruct) : Keeps Steady 1 (executeAlone op) := by
  have hm := move_steady op
  cases op
  case stop => exact absurd rfl hstop
  case ret => exact absurd rfl hret
  case revert => exact absurd rfl hrevert
  case selfdestruct => exact absurd rfl hdestroy
  case jump | jumpi | jumpdest =>
    dsimp only [executeAlone]
    exact Pays.keeps
  all_goals exact hm

theorem execute_prepares (hfork : op.since ≤ env.fork) (hstop : op ≠ .stop) (hret : op ≠ .ret)
    (hrevert : op ≠ .revert) (hdestroy : op ≠ .selfdestruct) : Prepares env 1 (execute op) := by
  have ha : Prepares env 1 (do executeAlone op; return none) :=
    (Prepares.pay (executeAlone_steady hstop hret hrevert hdestroy) fun _ =>
      (inferInstance : Prepares env 0 (pure none))).le (by omega)
  cases op
  case create | create2 | call | callcode | staticcall =>
    dsimp only [execute]
    infer_instance
  case delegatecall =>
    refine delegatecall_prepares fun h => ?_
    rw [h] at hfork
    exact absurd hfork (by decide)
  all_goals exact ha

def Fetched (env : Environment) (m : Machine) : EStateM.Result Stop Machine (Option Pending) → Prop
  | .ok none m' => Local m m' ∧
      (m'.frame.gasLeft < m.frame.gasLeft ∨
        m'.frame.running = false ∧ m'.frame.gasLeft ≤ m.frame.gasLeft)
  | .ok (some pending) m' => Local m m' ∧
      m'.frame.gasLeft + pending.message.gas < m.frame.gasLeft ∧ Asked env m' pending.message
  | .error (.halt h) m' => Local m m' ∧ (h = .revert → m'.frame.gasLeft ≤ m.frame.gasLeft)
  | .error _ _ => True

theorem Prepared.fetched {r : EStateM.Result Stop Machine (Option Pending)} (h : Prepared env 1 m r)
    : Fetched env m r := by
  rcases r with ⟨_ | pending, m'⟩ | ⟨h' | f | f, m'⟩
  · exact ⟨h.1.toLocal, Or.inl (by have := h.2; omega)⟩
  · exact ⟨h.1.toLocal, by have := h.2.1; omega, h.2.2⟩
  · exact ⟨h.1.toLocal, fun hr => absurd hr h.2⟩
  · trivial
  · trivial

def Ended (m : Machine) : EStateM.Result Stop Machine Unit → Prop
  | .ok _ m' => Local m m' ∧ m'.frame.running = false ∧ m'.frame.gasLeft ≤ m.frame.gasLeft
  | .error (.halt h) m' => Local m m' ∧ (h = .revert → m'.frame.gasLeft ≤ m.frame.gasLeft)
  | .error _ _ => True

theorem Ended.of_local {r : EStateM.Result Stop Machine Unit} (hl : Local m m')
    (hg : m'.frame.gasLeft ≤ m.frame.gasLeft) (h : Ended m' r) : Ended m r := by
  rcases r with ⟨_, m''⟩ | ⟨h' | e | e, m''⟩
  · exact ⟨IsTrans.trans _ _ _ hl h.1, h.2.1, h.2.2.trans hg⟩
  · exact ⟨IsTrans.trans _ _ _ hl h.1, fun hh => (h.2 hh).trans hg⟩
  · trivial
  · trivial

theorem Ended.of_within {x : Exec α} {f : α → Exec Unit} (hx : Within Local 0 m (x env m))
    (hf : ∀ v m', x env m = .ok v m' → Ended m' (f v env m')) : Ended m ((x >>= f) env m) := by
  cases h : x env m with
  | ok v m' =>
    rw [h] at hx
    rw [bind_of_ok h]
    exact (hf v m' h).of_local hx.1 (by have := hx.2; omega)
  | error stop m' =>
    rw [h] at hx
    rw [bind_of_error h]
    rcases stop with h' | e | e
    · exact ⟨hx.1, fun hh => absurd hh hx.2⟩
    · trivial
    · trivial

theorem Ended.fetched {x : Exec Unit} (h : Ended m (x env m)) :
    Fetched env m ((x >>= fun _ => pure none) env m) := by
  rcases hx : x env m with ⟨_, m'⟩ | ⟨h' | e | e, m'⟩
  · rw [hx] at h
    rw [bind_of_ok hx]
    exact ⟨h.1, Or.inr h.2⟩
  · rw [hx] at h
    rw [bind_of_error hx]
    exact h
  all_goals
    rw [bind_of_error hx]
    trivial

theorem finish_ended (env : Environment) (m : Machine) : Ended m (finish env m) :=
  ⟨⟨rfl, rfl, id, rfl, rfl⟩, rfl, le_rfl⟩

theorem stop_ended (env : Environment) (m : Machine) : Ended m (stop env m) :=
  ⟨⟨rfl, rfl, id, rfl, rfl⟩, rfl, le_rfl⟩

theorem Keeps.toLocal {op : Exec α} (h : Keeps Still cost op) :
    Keeps Local cost op := h.mono Still.toLocal le_rfl

theorem ret_ended (env : Environment) (m : Machine) : Ended m (ret env m) :=
  .of_within (Made.kept.within env m) fun _ m' _ => finish_ended env m'

theorem revert_ended (env : Environment) (m : Machine) : Ended m (revert env m) :=
  .of_within (Made.kept.within env m) fun _ _ _ => ⟨refl _, fun _ => le_rfl⟩

theorem selfdestruct_ended (env : Environment) (m : Machine) : Ended m (selfdestruct env m) := by
  refine .of_within ((Made.kept : Keeps Still 0 payDestruction).toLocal.within env m)
    fun beneficiary m₁ _ => .of_within (keeps_message.within env m₁) fun message m₂ _ => ?_
  rcases giveAway_cases env m₂ message.currentTarget beneficiary with ⟨m₃, h, hm₃⟩ | ⟨f, m₃, h⟩
  · rw [bind_of_ok h]
    refine Ended.of_local hm₃.toLocal (congrArg Frame.gasLeft hm₃.frame).le ?_
    exact .of_within ((Made.kept : Keeps Still 0 (touchIfEmpty beneficiary)).toLocal.within env m₃)
      fun _ m' _ => finish_ended env m'
  · rw [bind_of_error h]
    trivial

theorem fetch_fetched (env : Environment) (m : Machine) : Fetched env m (fetch env m) := by
  cases hop : m.opcode? env with
  | none =>
    rw [fetch_of_none hop]
    exact ⟨refl m, fun h => by cases h⟩
  | some op =>
    rw [fetch_of_some hop]
    have hends (x : Exec Unit) (hx : ∀ m, Ended m (x env m)) :
        Fetched env m ((trace (.opStart op) >>= fun _ => x >>= fun _ => pure none) env m) := by
      rw [← bind_assoc]
      exact Ended.fetched (.of_within (Made.kept.within env m) fun _ m' _ => hx m')
    by_cases hstop : op = .stop
    · subst hstop
      exact hends stop (stop_ended env)
    by_cases hret : op = .ret
    · subst hret
      exact hends ret (ret_ended env)
    by_cases hrevert : op = .revert
    · subst hrevert
      exact hends revert (revert_ended env)
    by_cases hdestroy : op = .selfdestruct
    · subst hdestroy
      exact hends selfdestruct (selfdestruct_ended env)
    exact ((Prepares.skip fun _ =>
      execute_prepares (since_le_of_opcode? hop) hstop hret hrevert hdestroy).prepared m).fetched

structure Asking (env : Environment) (m : Machine) (asked : Message) (m' : Machine) : Prop
    extends Local m m' where
  gas : m'.frame.gasLeft + asked.gas < m.frame.gasLeft
  depth : asked.depth = m.frame.message.depth + 1
  le_limit : asked.depth ≤ depthLimit
  funded : asked.Funded env m'.world.state

theorem asking_of_fetch {pending : Pending} (h : fetch env m = .ok (some pending) m') :
    Asking env m pending.message m' := by
  have hf := fetch_fetched env m
  rw [h] at hf
  obtain ⟨hl, hgas, hasked⟩ := hf
  exact ⟨hl, hgas, by rw [hasked.depth, hl.message], hasked.le_limit, hasked.funded⟩

/-! ## When the frame has been run -/

theorem addressUnion_empty (a : AddressSet) : addressUnion a ∅ = a := rfl

theorem absorb_still (child : Frame) : Keeps Still (-child.gasLeft) (absorb child) := by
  refine keeps_fork.skip fun fork => keeps_state.skip fun s => ?_
  refine keeps_modifyFrame (fun _ => ⟨rfl, rfl, id, rfl, rfl⟩) fun f => ?_
  change ((f.gasLeft + child.gasLeft : Nat) : Int) + -child.gasLeft ≤ f.gasLeft
  omega

theorem absorbFailure_still (child : Frame) : Keeps Still (-child.gasLeft) (absorbFailure child) := by
  refine keeps_state.skip fun s => ?_
  refine keeps_modifyFrame (fun _ => ⟨rfl, rfl, id, rfl, rfl⟩) fun f => ?_
  change ((f.gasLeft + child.gasLeft : Nat) : Int) + -child.gasLeft ≤ f.gasLeft
  omega

def Step.Pending.respond (pending : Pending) (child : Frame) : Exec Unit := do
  match pending.message.target with
  | none =>
    setReturnData (if child.error.isSome then child.output else ByteArray.empty)
    push (if child.error.isSome then 0 else pending.message.currentTarget.toWord)
  | some _ =>
    setReturnData child.output
    push (.ofBool child.error.isNone)
    writeMemory pending.outputStart (child.output.part 0 pending.outputSize)
  next

theorem resume_eq (pending : Pending) (child : Frame) : pending.resume child =
    if child.error.isSome then absorbFailure child >>= fun _ => pending.respond child
    else absorb child >>= fun _ => pending.respond child := rfl

instance {L : Logic} [L.Moving] (pending : Pending) (child : Frame) :
    Made L (pending.respond child) := by
  unfold Pending.respond
  split <;> infer_instance

theorem of_resume_ok {env : Environment} {m m' : Machine} {pending : Pending} {child : Frame}
    (h : pending.resume child env m = .ok () m') : ∃ m₁, Quiet m₁ m' ∧
    (child.error.isSome = true ∧ absorbFailure child env m = .ok () m₁ ∨
      child.error = none ∧ absorb child env m = .ok () m₁) := by
  rw [resume_eq] at h
  split at h
  · next he =>
    obtain ⟨_, m₁, ha, h⟩ := of_bind_ok h
    exact ⟨m₁, quiet_of_ok h, Or.inl ⟨he, ha⟩⟩
  · next he =>
    obtain ⟨_, m₁, ha, h⟩ := of_bind_ok h
    exact ⟨m₁, quiet_of_ok h, Or.inr ⟨by simpa using he, ha⟩⟩

theorem resume_keeps {R : Machine → Machine → Prop} [IsPreorder Machine R] {child : Frame}
    (hR : ∀ (m : Machine) (pc : Nat) (stack : Array Word) (memory returnData : Bytes),
      R m { m with frame := { m.frame with pc, stack, memory, returnData } })
    (hfail : child.error.isSome → Keeps R cost (absorbFailure child))
    (hok : ¬child.error.isSome → Keeps R cost (absorb child)) (pending : Pending) :
    Keeps R cost (pending.resume child) := by
  have hset (b : Bytes) : Keeps R 0 (setReturnData b) :=
    keeps_modifyFrame (fun m => hR m _ _ _ _) (by simp)
  have hpush (x : Word) : Keeps R 0 (push x) :=
    keeps_frame.skip fun _ => .ite (keeps_halt (by decide))
      (keeps_modifyFrame (fun m => hR m _ _ _ _) (by simp))
  have hwrite (start : Nat) (b : Bytes) : Keeps R 0 (writeMemory start b) :=
    keeps_modifyFrame (fun m => hR m _ _ _ _) (by simp)
  have hnext : Keeps R 0 next := by
    unfold next advance
    exact keeps_modifyFrame (fun m => hR m _ _ _ _) (by simp)
  have hrespond : Keeps R 0 (pending.respond child) := by
    unfold Pending.respond
    split
    · exact (hset _).skip fun _ => (hpush _).skip fun _ => hnext
    · exact (hset _).skip fun _ => (hpush _).skip fun _ => (hwrite _ _).skip fun _ => hnext
  rw [resume_eq]
  split
  · next h => exact (hfail h).pay fun _ => hrespond
  · next h => exact (hok h).pay fun _ => hrespond

theorem resume_still (pending : Pending) (child : Frame) :
    Keeps Still (-child.gasLeft) (pending.resume child) :=
  resume_keeps (fun _ _ _ _ _ => ⟨rfl, rfl, id, rfl, rfl⟩)
    (fun _ => absorbFailure_still child) (fun _ => absorb_still child) pending

/-- What a frame keeps when one that it asked for has failed. -/
structure Spared (m m' : Machine) : Prop where
  state : m'.world.state = m.world.state
  transient : m'.world.transient = m.world.transient
  logs : m'.frame.logs = m.frame.logs
  refund : m'.frame.refund = m.frame.refund
  accountsToDelete : m'.frame.accountsToDelete = m.frame.accountsToDelete
  accessedAddresses : m'.frame.accessedAddresses = m.frame.accessedAddresses
  accessedSlots : m'.frame.accessedSlots = m.frame.accessedSlots
  touchedAccounts : ∀ a, a ≠ stickyAddress →
    (a ∈ m'.frame.touchedAccounts ↔ a ∈ m.frame.touchedAccounts)

instance : IsPreorder Machine Spared where
  refl _ := ⟨rfl, rfl, rfl, rfl, rfl, rfl, rfl, fun _ _ => Iff.rfl⟩
  trans _ _ _ h h' :=
    ⟨h'.state.trans h.state, h'.transient.trans h.transient, h'.logs.trans h.logs,
      h'.refund.trans h.refund, h'.accountsToDelete.trans h.accountsToDelete,
      h'.accessedAddresses.trans h.accessedAddresses, h'.accessedSlots.trans h.accessedSlots,
      fun a ha => (h'.touchedAccounts a ha).trans (h.touchedAccounts a ha)⟩

theorem absorbFailure_spared (child : Frame) :
    Keeps Spared (-child.gasLeft) (absorbFailure child) := by
  refine ⟨fun env m => ?_⟩
  unfold absorbFailure
  rw [bind_of_ok state_ok]
  refine ⟨⟨rfl, rfl, rfl, rfl, rfl, rfl, rfl, fun a ha => ?_⟩, ?_⟩
  · dsimp only
    split
    · rw [Std.ExtTreeSet.mem_insert]
      exact or_iff_right fun h => ha (Std.LawfulEqCmp.eq_of_compare h).symm
    · exact Iff.rfl
  · change ((m.frame.gasLeft + child.gasLeft : Nat) : Int) + -child.gasLeft ≤ m.frame.gasLeft
    omega

theorem resume_spared {child : Frame} (h : child.error.isSome) (pending : Pending) :
    Keeps Spared (-child.gasLeft) (pending.resume child) :=
  resume_keeps (fun _ _ _ _ _ => ⟨rfl, rfl, rfl, rfl, rfl, rfl, rfl, fun _ _ => Iff.rfl⟩)
    (fun _ => absorbFailure_spared child) (fun hn => absurd h hn) pending

end ExecutionLayer.Evm
