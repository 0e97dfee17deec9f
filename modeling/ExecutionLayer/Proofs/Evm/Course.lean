import ExecutionLayer.Proofs.Evm.Effect
import ExecutionLayer.Proofs.Evm.Reach

/-! # The course of a frame

A message that succeeds has been opened, has gone from instruction to instruction, and has been
closed. Each of these parts is said here in terms of what it changes, so that what holds of a whole
message follows from one lemma for each part.
-/
namespace ExecutionLayer.Evm
open Exec Step Relation

variable {env : Environment} {message : Message} {w w' : World} {m m' : Machine} {frame : Frame}

def Standing.resumed (fork : Fork) (c : Standing) (child : Frame) : Standing :=
  if child.error.isSome then
    { c with touchedAccounts :=
        if child.touchedAccounts.contains stickyAddress ||
          (child.message.currentTarget = stickyAddress && c.state.existsAndIsEmpty stickyAddress)
        then c.touchedAccounts.insert stickyAddress else c.touchedAccounts }
  else
    { c with
      accountsToDelete := if fork = .daoFork then c.accountsToDelete
        else addressUnion c.accountsToDelete child.accountsToDelete
      touchedAccounts :=
        if c.state.existsAndIsEmpty child.message.currentTarget
        then (addressUnion c.touchedAccounts child.touchedAccounts).insert
          child.message.currentTarget
        else addressUnion c.touchedAccounts child.touchedAccounts }

@[simp] theorem state_resumed (fork : Fork) (c : Standing) (child : Frame) :
    (c.resumed fork child).state = c.state := by
  unfold Standing.resumed
  split <;> rfl

@[simp] theorem transient_resumed (fork : Fork) (c : Standing) (child : Frame) :
    (c.resumed fork child).transient = c.transient := by
  unfold Standing.resumed
  split <;> rfl

theorem resume_of_ok {pending : Pending} {child : Frame}
    (h : pending.resume child env m = .ok () m') :
    m'.standing = m.standing.resumed env.fork child := by
  obtain ⟨m₁, hq, ⟨he, ha⟩ | ⟨he, ha⟩⟩ := of_resume_ok h
  · cases ha
    rw [Standing.resumed, if_pos he, hq.alike]
    rfl
  · cases ha
    rw [Standing.resumed, he, hq.alike]
    rfl

/-- An instruction asks for a frame, which runs, and takes over from it. -/
structure Attends (env : Environment) (m : Machine) (pending : Pending) (m₁ : Machine)
    (child : Frame) (w : World) (m' : Machine) : Prop where
  fetched : fetch env m = .ok (some pending) m₁
  launched : launch runMessage pending.message env m₁.world = .ok child w
  resumed : m'.standing = Standing.resumed env.fork
    { m₁.standing with state := w.state, transient := w.transient } child

section Attends
variable {pending : Pending} {m₁ : Machine} {child : Frame}

theorem Attends.state (h : Attends env m pending m₁ child w m') : m'.world.state = w.state := by
  have hs := congrArg Standing.state h.resumed
  rw [state_resumed] at hs
  exact hs

theorem Attends.transient (h : Attends env m pending m₁ child w m') :
    m'.world.transient = w.transient := by
  have ht := congrArg Standing.transient h.resumed
  rw [transient_resumed] at ht
  exact ht

theorem Attends.depth (h : Attends env m pending m₁ child w m') :
    pending.message.depth = m.frame.message.depth + 1 := (asking_of_fetch h.fetched).depth

theorem Attends.effect (h : Attends env m pending m₁ child w m') :
    Effect env m.standing (some pending.message) m₁.standing := fetch_effect h.fetched

end Attends

theorem StepsTo.cases (h : StepsTo runMessage env m m') :
    Effect env m.standing none m'.standing ∨
      ∃ pending m₁ child w, Attends env m pending m₁ child w m' := by
  cases h.done with
  | alone hf ht =>
    refine Or.inl ?_
    rw [alike_of_ok Made.alike ht]
    exact fetch_effect hf
  | called hf hl hr ht =>
    refine Or.inr ⟨_, _, _, _, hf, hl, ?_⟩
    rw [alike_of_ok Made.alike ht, resume_of_ok hr]
    rfl

theorem of_runFrame_ok (h : runFrame runMessage message env w = .ok frame w')
    (he : frame.error = none) :
    ∃ m, ReflTransGen (StepsTo runMessage env) ⟨.ofMessage message, w⟩ m ∧
      (message.precompile? env = none ∨ m = ⟨.ofMessage message, w⟩) ∧ Alike m ⟨frame, w'⟩ := by
  obtain ⟨m, hr, hq, hp⟩ := of_runBody_ok (of_runFrame_kept h he)
  exact ⟨m, hr, hp, hq.alike⟩

theorem message_of_runFrame (h : runFrame runMessage message env w = .ok frame w') :
    frame.message = message := by
  have hr := runBody_ran (w := w) (containsBelow env message.depth)
  rcases runFrame_ok_cases h with hb | ⟨e, m, m', hb, rfl, -⟩
  · rw [hb] at hr
    exact hr.1.message
  · rw [hb] at hr
    have hfail : (m.frame.fail env.fork e).message = m.frame.message := by
      cases e <;> rfl
    exact hfail.trans hr.1.message

theorem of_openMessage_ok (h : openMessage message env w = .ok () w') :
    ∃ s, w' = { w.begin with state := s } ∧
      (s = w.begin.state.touch message.currentTarget ∨
        (message.shouldTransferValue = true ∨ env.fork = .frontier) ∧ message.value ≠ 0 ∧
          (w.begin.state.touch message.currentTarget).Pays message.caller
            message.currentTarget s) := by
  have hopening := openMessage_opening env message w
  rw [h] at hopening
  cases hopening with
  | plain => exact ⟨_, rfl, Or.inl rfl⟩
  | paid hsends hvalue hm => exact ⟨_, rfl, Or.inr ⟨hsends, hvalue, State.pays_of_moveEther hm⟩⟩

theorem depth_of_runMessage (h : runMessage message env w = .ok frame w') :
    message.depth ≤ depthLimit := by
  by_contra hd
  rw [runMessage_of_lt (Nat.lt_of_not_le hd)] at h
  cases h

theorem of_runMessage_ok (h : runMessage message env w = .ok frame w') :
    ∃ w₁ w₂, openMessage message env w = .ok () w₁ ∧
      runFrame runMessage message env w₁ = .ok frame w₂ ∧
      (frame.error = none → SameContent w₂ w') := by
  rw [runMessage_eq (depth_of_runMessage h)] at h
  obtain ⟨_, w₁, hopen, h⟩ := of_bind_ok h
  obtain ⟨frame', w₂, hrun, h⟩ := of_bind_ok h
  obtain ⟨_, w₃, hclose, h⟩ := of_bind_ok h
  cases h
  refine ⟨w₁, w₂, hopen, hrun, fun he => commit_sameContent ?_⟩
  have hcommit := of_step_ok hclose
  rw [he] at hcommit
  exact hcommit

theorem of_runCreate_ok (h : runCreate runMessage message env w = .ok frame w') :
    ∃ w₁ frame₁ w₂, openCreation message env w = .ok () w₁ ∧
      runMessage message env w₁ = .ok frame₁ w₂ ∧
      (frame = frame₁ ∧ frame.error.isSome ∨
        frame₁.error = none ∧ Deposits env message.currentTarget frame₁ w₂ frame w') := by
  obtain ⟨_, w₁, hopen, h⟩ := of_bind_ok h
  obtain ⟨frame₁, w₂, hrun, h⟩ := of_bind_ok h
  refine ⟨w₁, frame₁, w₂, hopen, hrun, ?_⟩
  split at h
  · next he =>
    obtain ⟨_, w₃, _, h⟩ := of_bind_ok h
    cases h
    exact Or.inl ⟨rfl, he⟩
  · next he =>
    exact Or.inr ⟨by simpa using he, of_depositCode_ok h⟩

theorem message_of_runMessage (h : runMessage message env w = .ok frame w') :
    frame.message = message := by
  obtain ⟨w₁, w₂, -, hrun, -⟩ := of_runMessage_ok h
  exact message_of_runFrame hrun

theorem message_of_launch (h : launch runMessage message env w = .ok frame w') :
    frame.message = message := by
  cases ht : message.target with
  | none =>
    rw [launch_of_none ht] at h
    obtain ⟨w₁, frame₁, w₂, -, hrun, ⟨rfl, -⟩ | ⟨-, hd⟩⟩ := of_runCreate_ok h
    · exact message_of_runMessage hrun
    · exact hd.message.trans (message_of_runMessage hrun)
  | some _ =>
    rw [launch_of_some ht] at h
    exact message_of_runMessage h

theorem depth_of_launch (h : launch runMessage message env w = .ok frame w') :
    message.depth ≤ depthLimit := by
  cases ht : message.target with
  | none =>
    rw [launch_of_none ht] at h
    obtain ⟨w₁, frame₁, w₂, -, hrun, -⟩ := of_runCreate_ok h
    exact depth_of_runMessage hrun
  | some _ =>
    rw [launch_of_some ht] at h
    exact depth_of_runMessage h

/-- The course of a message that succeeds, from the world in which its code begins to the machine
with which it ends. -/
structure Course (env : Environment) (message : Message) (w : World) (frame : Frame)
    (w' w₁ : World) (m : Machine) : Prop where
  error : frame.error = none
  opened : openFrame message env w = .ok () w₁
  steps : ReflTransGen (StepsTo runMessage env) ⟨.ofMessage message, w₁⟩ m
  content : SameContent m.world w' ∨ message.target = none ∧ ∃ code,
    SameContent { m.world with state := m.world.state.setCode message.currentTarget code } w'
  accountsToDelete : frame.accountsToDelete = m.frame.accountsToDelete
  touchedAccounts : frame.touchedAccounts = m.frame.touchedAccounts

theorem launch_cases (h : launch runMessage message env w = .ok frame w') :
    frame.error.isSome ∧ SameContent w w' ∨ ∃ w₁ m, Course env message w frame w' w₁ m := by
  cases he : frame.error with
  | some e => exact Or.inl ⟨rfl, (launch_returned h).unchanged (by rw [he]; rfl)⟩
  | none =>
    rw [launch_eq (depth_of_launch h)] at h
    obtain ⟨_, w₁, hopen, h⟩ := of_bind_ok h
    obtain ⟨frame₁, w₂, hrun, hclose⟩ := of_bind_ok h
    have hclosed := of_closeFrame_ok hclose he
    obtain ⟨m, hsteps, -, halike⟩ := of_runFrame_ok hrun hclosed.error
    have hsame : SameContent m.world w₂ :=
      ⟨congrArg (·.state.accounts) halike, congrArg (·.state.storage) halike,
        congrArg (·.transient.storage) halike⟩
    refine Or.inr ⟨w₁, m, he, hopen, hsteps, ?_,
      hclosed.accountsToDelete.trans (congrArg Standing.accountsToDelete halike),
      hclosed.touchedAccounts.trans (congrArg Standing.touchedAccounts halike)⟩
    rcases hclosed.content with hcontent | ⟨ht, code, hcontent⟩
    · exact Or.inl (hsame.trans hcontent)
    · exact Or.inr ⟨ht, code, hsame.setCode hcontent⟩

theorem Course.code {w₁ : World} (h : Course env message w frame w' w₁ m) :
    m = ⟨.ofMessage message, w₁⟩ ∨ message.code.size ≠ 0 := by
  rcases h.steps.cases_head with rfl | ⟨m₁, hstep, -⟩
  · exact Or.inl rfl
  · exact Or.inr (Nat.ne_of_gt (Nat.zero_lt_of_lt hstep.active.2))

def Below (env : Environment) (P : Message → World → Frame → World → Prop) (depth : Nat) : Prop :=
  ∀ message w frame w', message.depth = depth + 1 →
    launch runMessage message env w = .ok frame w' → P message w frame w'

theorem launch_ok_induction {P : Message → World → Frame → World → Prop}
    (h : ∀ message w frame w', Below env P message.depth →
      launch runMessage message env w = .ok frame w' → P message w frame w')
    (hrun : launch runMessage message env w = .ok frame w') : P message w frame w' := by
  induction hk : depthLimit - message.depth using Nat.strong_induction_on
    generalizing message w frame w' with
  | _ k ih =>
    refine h message w frame w' (fun message' w₁ frame' w₂ hd hrun' => ?_) hrun
    have hlimit := depth_of_launch hrun'
    exact ih (depthLimit - message'.depth) (by omega) hrun' rfl

end ExecutionLayer.Evm
