import ExecutionLayer.Proofs.Evm.Containment

/-! # Reachable machines

From a machine execution goes on to the next instruction of the frame, and into the frames that its
instructions ask for. A fault or an imbalance ends everything: it is the result of each run in which
the machine is reached where it occurs.
-/
namespace ExecutionLayer.Evm
open Exec Step Relation

def openFrame (message : Message) : WorldOp Unit :=
  match message.target with
  | none => do
    openCreation message
    openMessage message
  | some _ => openMessage message

def closeFrame (message : Message) (frame : Frame) : WorldOp Frame := do
  WorldOp.step fun w => if frame.error.isSome then w.rollback else w.commit
  match message.target with
  | none =>
    if frame.error.isSome then
      WorldOp.step (·.rollback)
      return frame
    else depositCode message frame
  | some _ => return frame

section Frames
variable {env : Environment} {message : Message} {w w' : World} {m m' : Machine} {frame : Frame}
  {a : Address} {code : Bytes}

theorem launch_eq (hd : message.depth ≤ depthLimit) : launch runMessage message =
    openFrame message >>= fun _ => runFrame runMessage message >>= closeFrame message := by
  unfold openFrame closeFrame
  cases ht : message.target with
  | none =>
    rw [launch_of_none ht]
    unfold runCreate
    rw [runMessage_eq hd]
    unfold runInSnapshot
    simp only [bind_assoc, pure_bind]
  | some a =>
    rw [launch_of_some ht, runMessage_eq hd]
    rfl

theorem SameContent.setCode {w₁ : World} (h : SameContent w w₁)
    (h' : SameContent { w₁ with state := w₁.state.setCode a code } w') :
    SameContent { w with state := w.state.setCode a code } w' := by
  refine ⟨h'.accounts.trans ?_, h'.storage.trans h.storage, h'.transient.trans h.transient⟩
  change (w₁.state.setCode a code).accounts = (w.state.setCode a code).accounts
  unfold State.setCode State.modifyAccount State.setAccount State.account State.account?
  rw [h.accounts]

structure Deposits (env : Environment) (address : Address) (frame : Frame) (w : World)
    (frame' : Frame) (w' : World) : Prop where
  message : frame'.message = frame.message
  refund : frame'.refund = frame.refund
  accountsToDelete : frame'.accountsToDelete = frame.accountsToDelete
  touchedAccounts : frame'.touchedAccounts = frame.touchedAccounts
  content : frame'.error = none →
    (∃ code, SameContent { w with state := w.state.setCode address code } w') ∨
      env.fork = .frontier ∧ SameContent w w'

theorem of_depositCode_ok {frame' : Frame} (h : depositCode message frame env w = .ok frame' w') :
    Deposits env message.currentTarget frame w frame' w' := by
  obtain ⟨m, w₁, close, hq, -, hdeposit, hclose⟩ := depositCode_ok_cases h
  have hsame : SameContent w m.world := ⟨congrArg State.accounts hq.state,
    congrArg State.storage hq.state, congrArg Transient.storage hq.transient⟩
  cases hdeposit with
  | made =>
    exact ⟨hq.message, hq.refund, hq.accountsToDelete, hq.touchedAccounts, fun _ =>
      Or.inl ⟨m.frame.output, hsame.setCode (commit_sameContent hclose)⟩⟩
  | omitted hfrontier =>
    exact ⟨hq.message, hq.refund, hq.accountsToDelete, hq.touchedAccounts, fun _ =>
      Or.inr ⟨hfrontier, hsame.trans (commit_sameContent hclose)⟩⟩
  | failed e =>
    have hfail : (m.frame.fail env.fork e).message = m.frame.message ∧
        (m.frame.fail env.fork e).refund = m.frame.refund ∧
        (m.frame.fail env.fork e).accountsToDelete = m.frame.accountsToDelete ∧
        (m.frame.fail env.fork e).touchedAccounts = m.frame.touchedAccounts := by
      cases e <;> exact ⟨rfl, rfl, rfl, rfl⟩
    refine ⟨hfail.1.trans hq.message, hfail.2.1.trans hq.refund,
      hfail.2.2.1.trans hq.accountsToDelete, hfail.2.2.2.trans hq.touchedAccounts, fun hn => ?_⟩
    rw [error_fail] at hn
    cases hn

/-- A frame that is kept when it is closed leaves what its code has left, and the code of an account
that it has created. -/
structure Closes (message : Message) (frame : Frame) (w : World) (frame' : Frame) (w' : World) :
    Prop where
  error : frame.error = none
  content : SameContent w w' ∨ message.target = none ∧
    ∃ code, SameContent { w with state := w.state.setCode message.currentTarget code } w'
  message : frame'.message = frame.message
  refund : frame'.refund = frame.refund
  accountsToDelete : frame'.accountsToDelete = frame.accountsToDelete
  touchedAccounts : frame'.touchedAccounts = frame.touchedAccounts

theorem of_closeFrame_ok {frame' : Frame} (h : closeFrame message frame env w = .ok frame' w')
    (he : frame'.error = none) : Closes message frame w frame' w' := by
  obtain ⟨_, w₁, hstep, h⟩ := of_bind_ok h
  have hcommit (hf : frame.error = none) : SameContent w w₁ := by
    have hclosed := of_step_ok hstep
    rw [hf] at hclosed
    exact commit_sameContent hclosed
  cases ht : message.target with
  | some _ =>
    rw [ht] at h
    cases h
    exact ⟨he, Or.inl (hcommit he), rfl, rfl, rfl, rfl⟩
  | none =>
    rw [ht] at h
    dsimp only at h
    split at h
    · next hf =>
      obtain ⟨_, w₂, -, h⟩ := of_bind_ok h
      cases h
      rw [he] at hf
      cases hf
    · next hf =>
      have hn : frame.error = none := by simpa using hf
      have hd := of_depositCode_ok h
      refine ⟨hn, ?_, hd.message, hd.refund, hd.accountsToDelete, hd.touchedAccounts⟩
      rcases hd.content he with ⟨code, hcontent⟩ | ⟨-, hcontent⟩
      · exact Or.inr ⟨ht, code, (hcommit hn).setCode hcontent⟩
      · exact Or.inl ((hcommit hn).trans hcontent)

theorem of_openFrame_ok (h : openFrame message env w = .ok () w') :
    ∃ w₁, (message.target = none ∧ openCreation message env w = .ok () w₁ ∨
        message.target ≠ none ∧ w₁ = w) ∧ openMessage message env w₁ = .ok () w' := by
  unfold openFrame at h
  cases ht : message.target with
  | none =>
    rw [ht] at h
    obtain ⟨_, w₁, hc, ho⟩ := of_bind_ok h
    exact ⟨w₁, Or.inl ⟨rfl, hc⟩, ho⟩
  | some _ =>
    rw [ht] at h
    exact ⟨w, Or.inr ⟨by simp, rfl⟩, h⟩

/-- The first machine of the code that a message runs. -/
structure Opens (env : Environment) (message : Message) (w : World) (m : Machine) : Prop where
  code : message.precompile? env = none
  opened : openFrame message env w = .ok () m.world
  frame : m.frame = .ofMessage message

theorem Opens.untraced (ho : Opens env message w m) (hu : w.tracer = none) :
    m.world.tracer = none := by
  obtain ⟨w₁, ⟨-, hc⟩ | ⟨-, rfl⟩, hm⟩ := of_openFrame_ok ho.opened
  · cases hc
    exact (begun_of_openMessage hm).untraced hu
  · exact (begun_of_openMessage hm).untraced hu

theorem launch_of_stop (ho : Opens env message w m) (hd : message.depth ≤ depthLimit) {e : Stop}
    (he : ∀ h, e ≠ .halt h) (hr : runCode runMessage (fuelFor message.gas) env m = .error e m') :
    launch runMessage message env w = .error e m'.world := by
  have hm : m = ⟨.ofMessage message, m.world⟩ := by rw [← ho.frame]
  have hb : runBody runMessage message env ⟨.ofMessage message, m.world⟩ = .error e m' := by
    rw [runBody_of_none ho.code, ← hm]
    exact hr
  rw [launch_eq hd, bind_of_ok ho.opened, bind_of_error (runFrame_of_stop he hb)]

end Frames

/-- Execution comes from one machine to another, through frames of which `K` holds. -/
inductive Reaches (env : Environment) (K : Message → World → Prop) : Machine → Machine → Prop
  | refl (m : Machine) : Reaches env K m m
  | next {m m₁ m' : Machine} : StepsTo runMessage env m m₁ → Reaches env K m₁ m' →
      Reaches env K m m'
  | enter {m m₁ m₂ m' : Machine} {pending : Pending} : m.IsActive →
      fetch env m = .ok (some pending) m₁ → K pending.message m₁.world →
      Opens env pending.message m₁.world m₂ → Reaches env K m₂ m' → Reaches env K m m'

def advance (env : Environment) : Nat → Machine → Option Machine
  | 0, m => some m
  | n + 1, m =>
    if m.frame.running ∧ m.frame.pc < m.frame.code.size then
      match stepInstruction runMessage env m with
      | .ok _ m' => advance env n m'
      | .error _ _ => none
    else none

theorem Reaches.of_advance {env : Environment} {K : Message → World → Prop} {n : Nat}
    {m m' : Machine} (h : advance env n m = some m') : Reaches env K m m' := by
  induction n generalizing m with
  | zero =>
    cases h
    exact .refl _
  | succ n ih =>
    unfold advance at h
    split at h
    · next hactive =>
      split at h
      · next m₁ hstep => exact .next ⟨hactive, hstep⟩ (ih h)
      · cases h
    · cases h

structure Raises (env : Environment) (e : Stop) (m : Machine) : Prop where
  active : m.IsActive
  runs : ∀ fuel, fuelFor m.frame.gasLeft ≤ fuel →
    ∃ m', runCode runMessage fuel env m = .error e m'

section Raises
variable {env : Environment} {K : Message → World → Prop} {m m' : Machine} {e : Stop}

theorem Reaches.of_steps (h : ReflTransGen (StepsTo runMessage env) m m') {m'' : Machine}
    (h' : Reaches env K m' m'') : Reaches env K m m'' := by
  induction h using ReflTransGen.head_induction_on with
  | refl => exact h'
  | head hs _ ih => exact .next hs ih

theorem Reaches.untraced (h : Reaches env K m m') (hu : m.world.tracer = none) :
    m'.world.tracer = none := by
  induction h with
  | refl => exact hu
  | next hs _ ih => exact ih ((hs.stepped (containsBelow env _)).1.untraced hu)
  | enter _ hf _ ho _ ih => exact ih (ho.untraced ((asking_of_fetch hf).untraced hu))

theorem Reaches.gasLeft_le (h : Reaches env K m m') : m'.frame.gasLeft ≤ m.frame.gasLeft := by
  induction h with
  | refl => exact le_rfl
  | next hs _ ih =>
    have hlt := (hs.stepped (containsBelow env _)).2
    omega
  | @enter _ _ m₂ _ _ _ hf _ ho _ ih =>
    have hgas := congrArg Frame.gasLeft ho.frame
    have hlt := (asking_of_fetch hf).gas
    change m₂.frame.gasLeft = _ at hgas
    dsimp only [Frame.ofMessage] at hgas
    omega

theorem Raises.of_step (ha : m.IsActive)
    (hs : stepInstruction runMessage env m = .error e m') : Raises env e m := by
  refine ⟨ha, fun fuel hfuel => ?_⟩
  obtain ⟨k, rfl⟩ : ∃ k, fuel = k + 1 := ⟨fuel - 1, by unfold fuelFor at hfuel; omega⟩
  rw [runCode_of_active ha, bind_of_error hs]
  exact ⟨m', rfl⟩

theorem Raises.of_next (hs : StepsTo runMessage env m m') (hr : Raises env e m') :
    Raises env e m := by
  refine ⟨hs.active, fun fuel hfuel => ?_⟩
  obtain ⟨k, rfl⟩ : ∃ k, fuel = k + 1 := ⟨fuel - 1, by unfold fuelFor at hfuel; omega⟩
  rw [runCode_of_active hs.active, bind_of_ok hs.step]
  -- The frame goes on, so that its last step was not free.
  have hlt : m'.frame.gasLeft < m.frame.gasLeft := by
    rcases (hs.stepped (containsBelow env _)).2 with hlt | ⟨hn, -⟩
    · exact hlt
    · have hrun := hr.active.1
      rw [hn] at hrun
      cases hrun
  exact hr.runs k (by unfold fuelFor at hfuel ⊢; omega)

theorem Raises.launch {message : Message} {w : World} (hr : Raises env e m)
    (he : ∀ h, e ≠ .halt h) (ho : Opens env message w m) (hd : message.depth ≤ depthLimit) :
    ∃ w', launch runMessage message env w = .error e w' := by
  have hgas : m.frame.gasLeft = message.gas := by rw [ho.frame]; rfl
  obtain ⟨m', hrun⟩ := hr.runs (fuelFor message.gas) (by rw [hgas])
  exact ⟨_, launch_of_stop ho hd he hrun⟩

theorem stepInstruction_of_launch {m₁ : Machine} {pending : Pending} {w : World}
    (hf : fetch env m = .ok (some pending) m₁)
    (hl : launch runMessage pending.message env m₁.world = .error e w) :
    stepInstruction runMessage env m = .error e { m₁ with world := w } := by
  unfold stepInstruction
  rw [bind_of_ok hf, attend_of_error hl]

theorem Raises.of_enter {m₁ m₂ : Machine} {pending : Pending} (ha : m.IsActive)
    (hf : fetch env m = .ok (some pending) m₁) (ho : Opens env pending.message m₁.world m₂)
    (he : ∀ h, e ≠ .halt h) (hr : Raises env e m₂) : Raises env e m := by
  obtain ⟨w, hl⟩ := hr.launch he ho (asking_of_fetch hf).le_limit
  exact .of_step ha (stepInstruction_of_launch hf hl)

/-- A stop that no frame takes in is the result wherever its place is reached from. -/
theorem Reaches.raises (h : Reaches env K m m') (he : ∀ h, e ≠ .halt h) (hr : Raises env e m') :
    Raises env e m := by
  induction h with
  | refl => exact hr
  | next hs _ ih => exact .of_next hs (ih hr)
  | enter ha hf _ ho _ ih => exact .of_enter ha hf ho he (ih hr)

end Raises

end ExecutionLayer.Evm
