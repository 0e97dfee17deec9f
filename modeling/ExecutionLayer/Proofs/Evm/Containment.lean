import ExecutionLayer.Proofs.Evm.Run

/-! # What a frame leaves behind

A frame, however many frames run below it, has no more gas left than its message had, and leaves the
snapshots as they were. If it has failed, accounts and storage are what they were before. All three
are shown together: a frame whose children keep to this finds its own snapshot on top.
-/
namespace ExecutionLayer.Evm
open Exec Step Relation
variable {w' : World} {message : Message} {frame : Frame} {m' : Machine}
  {r : EStateM.Result Stop Machine Unit} {body : Exec Unit} {e : Stop} {env : Environment}

/-- Accounts, storage and transient storage are the same. -/
structure SameContent (w w' : World) : Prop where
  accounts : w'.state.accounts = w.state.accounts
  storage : w'.state.storage = w.state.storage
  transient : w'.transient.storage = w.transient.storage

theorem SameContent.trans {w w' w'' : World} (h : SameContent w w') (h' : SameContent w' w'') :
    SameContent w w'' :=
  ⟨h'.accounts.trans h.accounts, h'.storage.trans h.storage, h'.transient.trans h.transient⟩

structure Returned (message : Message) (w : World) (frame : Frame) (w' : World) : Prop where
  gasLeft : frame.gasLeft ≤ message.gas
  snapshots : w'.state.snapshots = w.state.snapshots
  transientSnapshots : w'.transient.snapshots = w.transient.snapshots
  untraced : w.tracer = none → w'.tracer = none
  unchanged : frame.error.isSome → SameContent w w'

/-- The result of running a message. A halt stays within the frame. -/
def Contained (message : Message) (w : World) : EStateM.Result Stop World Frame → Prop
  | .ok frame w' => Returned message w frame w'
  | .error (.halt _) _ => False
  | .error _ _ => True

/-! ## Snapshots -/

theorem commit_sameContent {w w' : World} (h : w.commit = .ok w') : SameContent w w' := by
  obtain ⟨s, hs, h⟩ := of_except_ok h
  obtain ⟨t, ht, h⟩ := of_except_ok h
  cases h
  unfold State.commit at hs
  unfold Transient.commit at ht
  split at hs
  · cases hs
  · split at ht
    · cases ht
    · cases hs
      cases ht
      exact ⟨rfl, rfl, rfl⟩

/-- A snapshot of the first world is the latest one of the second. -/
structure Begun (w w' : World) : Prop where
  snapshots : w'.state.snapshots = w.begin.state.snapshots
  transientSnapshots : w'.transient.snapshots = w.begin.transient.snapshots
  untraced : w.tracer = none → w'.tracer = none

theorem begun_begin (w : World) : Begun w w.begin := ⟨rfl, rfl, id⟩

section Begun
variable {w : World}

theorem Begun.commit (h : Begun w w') : w'.commit = .ok { w' with
    state := w'.state.closeSnapshot w.state.snapshots
    transient := { w'.transient with snapshots := w.transient.snapshots } } := by
  have hs : w'.state.commit = .ok (w'.state.closeSnapshot w.state.snapshots) := by
    rw [State.commit, h.snapshots]
    rfl
  have ht : w'.transient.commit =
      .ok { w'.transient with snapshots := w.transient.snapshots } := by
    rw [Transient.commit, h.transientSnapshots]
    rfl
  unfold World.commit
  rw [hs, ht]
  rfl

theorem Begun.rollback (h : Begun w w') : w'.rollback = .ok { w' with
    state := { w'.state with
      accounts := w.state.accounts, storage := w.state.storage }.closeSnapshot w.state.snapshots
    transient := w.transient } := by
  have hs : w'.state.rollback = .ok ({ w'.state with
      accounts := w.state.accounts
      storage := w.state.storage }.closeSnapshot w.state.snapshots) := by
    rw [State.rollback, h.snapshots]
    rfl
  have ht : w'.transient.rollback = .ok w.transient := by
    rw [Transient.rollback, h.transientSnapshots]
    rfl
  unfold World.rollback
  rw [hs, ht]
  rfl

theorem Begun.rolledBack (h : Begun w w') (hg : frame.gasLeft ≤ message.gas) :
    ∃ w'', w'.rollback = .ok w'' ∧ Returned message w frame w'' :=
  ⟨_, h.rollback, hg, rfl, rfl, h.untraced, fun _ => ⟨rfl, rfl, rfl⟩⟩

theorem Begun.committed (h : Begun w w') (hg : frame.gasLeft ≤ message.gas)
    (he : frame.error = none) : ∃ w'', w'.commit = .ok w'' ∧ Returned message w frame w'' := by
  have hn : ¬frame.error.isSome := by simp [he]
  exact ⟨_, h.commit, hg, rfl, rfl, h.untraced, fun h => absurd h hn⟩

theorem Begun.returned (h : Begun w w') (hg : frame.gasLeft ≤ message.gas) :
    ∃ w'', (if frame.error.isSome then w'.rollback else w'.commit) = .ok w'' ∧
      Returned message w frame w'' := by
  cases he : frame.error with
  | some _ => exact h.rolledBack hg
  | none => exact h.committed hg he

theorem Begun.of_returned {w'' : World} (h : Begun w w')
    (hr : Returned message w' frame w'') : Begun w w'' :=
  ⟨hr.snapshots.trans h.snapshots, hr.transientSnapshots.trans h.transientSnapshots,
    hr.untraced ∘ h.untraced⟩

theorem Begun.of_local {m m' : Machine} (h : Begun w m.world) (hl : Local m m') :
    Begun w m'.world :=
  ⟨hl.snapshots.trans h.snapshots, hl.transientSnapshots.trans h.transientSnapshots,
    hl.untraced ∘ h.untraced⟩

end Begun

/-- How a message is opened. Its value is moved if it is one that sends it. -/
inductive Opening (env : Environment) (message : Message) (w : World) :
    EStateM.Result Stop World Unit → Prop
  | plain : Opening env message w (.ok () (w.begin.modifyState (·.touch message.currentTarget)))
  | paid {s : State} : message.shouldTransferValue = true ∨ env.fork = .frontier →
      message.value ≠ 0 →
      State.moveEther message.caller message.currentTarget message.value
        (w.begin.state.touch message.currentTarget) = .ok () s →
      Opening env message w (.ok () { w.begin with state := s })
  | failed {f : Fault} {s : State} : message.shouldTransferValue = true ∨ env.fork = .frontier →
      State.moveEther message.caller message.currentTarget message.value
        (w.begin.state.touch message.currentTarget) = .error f s →
      Opening env message w (.error (.imbalance f) { w.begin with state := s })

theorem openMessage_opening (env : Environment) (message : Message) (w : World) :
    Opening env message w (openMessage message env w) := by
  have hopen : openMessage message env w =
      transferValue message env (w.begin.modifyState (·.touch message.currentTarget)) := rfl
  rw [hopen, transferValue, bind_of_ok WorldOp.fork_ok]
  split
  · next hc =>
    simp only [Bool.and_eq_true, Bool.or_eq_true, decide_eq_true_eq] at hc
    cases hm : State.moveEther message.caller message.currentTarget message.value
        (w.begin.state.touch message.currentTarget) with
    | ok _ s =>
      simp only [WorldOp.changeBalances, WorldOp.onState, World.modifyState, hm]
      exact .paid hc.1 hc.2 hm
    | error f s =>
      simp only [WorldOp.changeBalances, WorldOp.onState, World.modifyState, hm]
      exact .failed hc.1 hm
  · exact .plain

theorem openMessage_cases (env : Environment) (message : Message) (w : World) :
    (∃ w', openMessage message env w = .ok () w' ∧ Begun w w') ∨
      ∃ f w', openMessage message env w = .error (.imbalance f) w' := by
  have htouch : (w.begin.state.touch message.currentTarget).snapshots = w.begin.state.snapshots := by
    unfold State.touch
    split <;> rfl
  have h := openMessage_opening env message w
  generalize openMessage message env w = r at h
  cases h with
  | plain => exact Or.inl ⟨_, rfl, htouch, rfl, id⟩
  | paid _ _ hm =>
    have hs := congrArg State.snapshots (State.moveEther_accounts hm)
    exact Or.inl ⟨_, rfl, hs.trans htouch, rfl, id⟩
  | failed => exact Or.inr ⟨_, _, rfl⟩

theorem begun_of_openMessage {w : World} (h : openMessage message env w = .ok () w') :
    Begun w w' := by
  obtain ⟨w₁, h₁, hb⟩ | ⟨f, w₁, h₁⟩ := openMessage_cases env message w
  all_goals
    rw [h₁] at h
    cases h
  exact hb

/-! ## Instructions -/

def Stepped (m : Machine) : EStateM.Result Stop Machine Unit → Prop
  | .ok _ m' => Local m m' ∧
      (m'.frame.gasLeft < m.frame.gasLeft ∨
        m'.frame.running = false ∧ m'.frame.gasLeft ≤ m.frame.gasLeft)
  | .error (.halt h) m' => Local m m' ∧ (h = .revert → m'.frame.gasLeft ≤ m.frame.gasLeft)
  | .error _ _ => True

def ContainsBelow (env : Environment) (depth : Nat) : Prop :=
  ∀ message w, message.depth = depth + 1 → message.depth ≤ depthLimit →
    Contained message w (launch runMessage message env w)

section Instructions
variable {m : Machine}

theorem attend_none_stepped {m₁ : Machine} (hl : Local m m₁)
    (hg : m₁.frame.gasLeft < m.frame.gasLeft ∨
      m₁.frame.running = false ∧ m₁.frame.gasLeft ≤ m.frame.gasLeft) :
    Stepped m (attend runMessage none env m₁) := by
  rcases trace_cases .opEnd env m₁ with ⟨t, h, ht⟩ | ⟨f, h⟩
  · rw [attend, h]
    exact ⟨IsTrans.trans _ _ _ hl ⟨rfl, rfl, ht, rfl, rfl⟩, hg⟩
  · rw [attend, h]
    trivial

theorem attend_some_stepped {m₁ : Machine} {pending : Pending} (hl : Local m m₁)
    (hg : m₁.frame.gasLeft + pending.message.gas < m.frame.gasLeft)
    (hc : Contained pending.message m₁.world (launch runMessage pending.message env m₁.world)) :
    Stepped m (attend runMessage (some pending) env m₁) := by
  rcases hr : launch runMessage pending.message env m₁.world with ⟨child, w⟩ | ⟨h | f | f, w⟩
  · rw [hr] at hc
    rw [attend_of_ok hr]
    have hw : Local m₁ { m₁ with world := w } :=
      ⟨hc.snapshots, hc.transientSnapshots, hc.untraced, rfl, rfl⟩
    have hm := IsTrans.trans _ _ _ hl hw
    have hgas := hc.gasLeft
    have hs := ((resume_still pending child).pay fun _ => (trace_quiet .opEnd).still).toLocal.within
      env { m₁ with world := w }
    rcases hx : (pending.resume child >>= fun _ => trace .opEnd) env { m₁ with world := w } with
      ⟨_, m'⟩ | ⟨h | f | f, m'⟩
    · rw [hx] at hs
      refine ⟨IsTrans.trans _ _ _ hm hs.1, Or.inl ?_⟩
      have := hs.2
      dsimp only at this
      omega
    · rw [hx] at hs
      exact ⟨IsTrans.trans _ _ _ hm hs.1, fun hrev => absurd hrev hs.2⟩
    · trivial
    · trivial
  · rw [hr] at hc
    exact absurd hc id
  all_goals
    rw [attend_of_error hr]
    trivial

theorem stepInstruction_stepped (hc : ContainsBelow env m.frame.message.depth) :
    Stepped m (stepInstruction runMessage env m) := by
  have hf := fetch_fetched env m
  unfold stepInstruction
  rcases hp : fetch env m with ⟨_ | pending, m₁⟩ | ⟨h | f | f, m₁⟩
  · rw [hp] at hf
    rw [bind_of_ok hp]
    exact attend_none_stepped hf.1 hf.2
  · have ha := asking_of_fetch hp
    rw [bind_of_ok hp]
    exact attend_some_stepped ha.toLocal ha.gas (hc _ _ ha.depth ha.le_limit)
  · rw [hp] at hf
    rw [bind_of_error hp]
    exact hf
  all_goals
    rw [bind_of_error hp]
    trivial

theorem StepsTo.stepped (h : StepsTo runMessage env m m')
    (hc : ContainsBelow env m.frame.message.depth) : Local m m' ∧
      (m'.frame.gasLeft < m.frame.gasLeft ∨
        m'.frame.running = false ∧ m'.frame.gasLeft ≤ m.frame.gasLeft) := by
  have hs := stepInstruction_stepped hc
  rw [h.step] at hs
  exact hs

/-! ## Frames -/

theorem steps_local (h : ReflTransGen (StepsTo runMessage env) m m')
    (hc : ContainsBelow env m.frame.message.depth) :
    Local m m' ∧ m'.frame.gasLeft ≤ m.frame.gasLeft := by
  induction h with
  | refl => exact ⟨refl m, le_rfl⟩
  | tail hr hs ih =>
    obtain ⟨hl, hg⟩ := ih
    obtain ⟨hl', hg'⟩ := hs.stepped (by rwa [hl.message])
    exact ⟨IsTrans.trans _ _ _ hl hl', by omega⟩

def Ran (m : Machine) : EStateM.Result Stop Machine Unit → Prop
  | .ok _ m' => Local m m' ∧ m'.frame.gasLeft ≤ m.frame.gasLeft
  | .error (.halt h) m' => Local m m' ∧ (h = .revert → m'.frame.gasLeft ≤ m.frame.gasLeft)
  | .error _ _ => True

theorem Ran.of_local (hl : Local m m')
    (hg : m'.frame.gasLeft ≤ m.frame.gasLeft) (h : Ran m' r) : Ran m r := by
  rcases r with ⟨_, m''⟩ | ⟨h' | f | f, m''⟩
  · exact ⟨IsTrans.trans _ _ _ hl h.1, h.2.trans hg⟩
  · exact ⟨IsTrans.trans _ _ _ hl h.1, fun hh => (h.2 hh).trans hg⟩
  · trivial
  · trivial

theorem Ran.of_within (h : Within Quiet 0 m r) : Ran m r := by
  rcases r with ⟨_, m'⟩ | ⟨h' | f | f, m'⟩
  · exact ⟨h.1.steady.toLocal, by have := h.2; omega⟩
  · exact ⟨h.1.steady.toLocal, fun hh => absurd hh h.2⟩
  · trivial
  · trivial

theorem Stepped.ran (h : Stepped m r) : Ran m r := by
  rcases r with ⟨_, m'⟩ | ⟨h' | f | f, m'⟩
  · exact ⟨h.1, by have := h.2; omega⟩
  · exact h
  · trivial
  · trivial

theorem runCode_ran (hc : ContainsBelow env m.frame.message.depth) (fuel : Nat) :
    Ran m (runCode runMessage fuel env m) := by
  obtain ⟨m', hr, he⟩ := runCode_ends runMessage env fuel m
  obtain ⟨hl, hg⟩ := steps_local hr hc
  refine .of_local hl hg ?_
  generalize runCode runMessage fuel env m = r at he
  cases he with
  | done => exact .of_within ((trace_quiet .codeEnd).within env m')
  | stopped _ hs =>
    have hm := stepInstruction_stepped (m := m') (by rwa [hl.message])
    rw [hs] at hm
    exact hm.ran
  | exhausted => trivial

theorem runBody_ran {w : World} (hc : ContainsBelow env message.depth) :
    Ran ⟨.ofMessage message, w⟩ (runBody runMessage message env ⟨.ofMessage message, w⟩) := by
  cases hp : message.precompile? env with
  | some contract =>
    exact .of_within (runBody_quiet _ _ hp)
  | none =>
    rw [runBody_of_none hp]
    exact runCode_ran hc _

end Instructions

section Frames
variable {runner : Runner} {w : World} {m : Machine}

theorem attempt_of_ok (h : body env ⟨frame, w⟩ = .ok () m) :
    WorldOp.attempt frame body env w = .ok (m.frame, none) m.world := by
  simp only [WorldOp.attempt, h]

theorem attempt_of_halt {h : Halt} (hb : body env ⟨frame, w⟩ = .error (.halt h) m) :
    WorldOp.attempt frame body env w = .ok (m.frame, some h) m.world := by
  simp only [WorldOp.attempt, hb]

theorem attempt_of_stop (he : ∀ h, e ≠ .halt h) (hb : body env ⟨frame, w⟩ = .error e m) :
    WorldOp.attempt frame body env w = .error e m.world := by
  cases e with
  | halt h => exact absurd rfl (he h)
  | fault | imbalance => simp only [WorldOp.attempt, hb]

theorem runFrame_of_ok (h : runBody runner message env ⟨.ofMessage message, w⟩ = .ok () m) :
    runFrame runner message env w = .ok m.frame m.world :=
  (bind_of_ok (attempt_of_ok h) _).trans rfl

theorem runFrame_of_halt {h : Halt}
    (hb : runBody runner message env ⟨.ofMessage message, w⟩ = .error (.halt h) m) :
    (∃ m', runFrame runner message env w = .ok (m.frame.fail env.fork h) m'.world ∧ Quiet m m') ∨
      ∃ f, runFrame runner message env w = .error (.fault f) m.world := by
  unfold runFrame
  rw [bind_of_ok (attempt_of_halt hb)]
  rcases trace_cases (.halted h) env m with ⟨t, ht, hn⟩ | ⟨f, ht⟩
  · refine Or.inl ⟨{ m with world := { m.world with tracer := t } },
      (bind_of_ok (attempt_of_ok ht) _).trans rfl, rfl, rfl, hn, rfl, rfl, rfl, rfl, rfl, rfl⟩
  · exact Or.inr ⟨f, bind_of_error (attempt_of_stop (fun _ => by simp) ht) _⟩

theorem runFrame_of_stop (he : ∀ h, e ≠ .halt h)
    (h : runBody runner message env ⟨.ofMessage message, w⟩ = .error e m) :
    runFrame runner message env w = .error e m.world :=
  bind_of_error (attempt_of_stop he h) _

theorem gasLeft_fail (fork : Fork) (f : Frame) (h : Halt) :
    (f.fail fork h).gasLeft ≤ f.gasLeft ∧ (h ≠ .revert → (f.fail fork h).gasLeft = 0) := by
  cases h <;> simp [Frame.fail]

theorem error_fail (fork : Fork) (f : Frame) (h : Halt) : (f.fail fork h).error = some h := by
  cases h <;> rfl

theorem runFrame_ok_cases (h : runFrame runner message env w = .ok frame w') :
    runBody runner message env ⟨.ofMessage message, w⟩ = .ok () ⟨frame, w'⟩ ∨
      ∃ e m m', runBody runner message env ⟨.ofMessage message, w⟩ = .error (.halt e) m ∧
        frame = m.frame.fail env.fork e ∧ w' = m'.world ∧ Quiet m m' := by
  rcases hb : runBody runner message env ⟨.ofMessage message, w⟩ with ⟨_, m⟩ | ⟨e | f | f, m⟩
  · rw [runFrame_of_ok hb] at h
    cases h
    exact Or.inl rfl
  · rcases runFrame_of_halt hb with ⟨m', hf, hq⟩ | ⟨f, hf⟩
    · rw [hf] at h
      cases h
      exact Or.inr ⟨e, m, m', rfl, rfl, rfl, hq⟩
    · rw [hf] at h
      cases h
  all_goals
    rw [runFrame_of_stop (fun _ => by simp) hb] at h
    cases h

theorem of_runFrame_kept
    (h : runFrame runner message env w = .ok frame w') (he : frame.error = none) :
    runBody runner message env ⟨.ofMessage message, w⟩ = .ok () ⟨frame, w'⟩ := by
  rcases runFrame_ok_cases h with hb | ⟨e, m, m', -, rfl, -⟩
  · exact hb
  · rw [error_fail] at he
    cases he

theorem runFrame_begun {w₀ : World} (hw : Begun w₀ w) (hc : ContainsBelow env message.depth) :
    (∃ frame w', runFrame runMessage message env w = .ok frame w' ∧
      frame.gasLeft ≤ message.gas ∧ Begun w₀ w') ∨
    ∃ e w', runFrame runMessage message env w = .error e w' ∧ ∀ h, e ≠ .halt h := by
  have hr := runBody_ran (w := w) hc
  rcases hb : runBody runMessage message env ⟨.ofMessage message, w⟩ with
    ⟨_, m⟩ | ⟨h | f | f, m⟩
  · rw [hb] at hr
    exact Or.inl ⟨_, _, runFrame_of_ok hb, hr.2, hw.of_local hr.1⟩
  · rw [hb] at hr
    rcases runFrame_of_halt hb with ⟨m', hf, hl⟩ | ⟨f, hf⟩
    · refine Or.inl ⟨_, _, hf, ?_, hw.of_local (IsTrans.trans _ _ _ hr.1 hl.steady.toLocal)⟩
      obtain ⟨hg, hz⟩ := gasLeft_fail env.fork m.frame h
      by_cases hh : h = .revert
      · exact hg.trans (hr.2 hh)
      · rw [hz hh]
        exact Nat.zero_le _
    · exact Or.inr ⟨_, _, hf, fun _ => by simp⟩
  all_goals exact Or.inr ⟨_, _, runFrame_of_stop (fun _ => by simp) hb, fun _ => by simp⟩

theorem Contained.of_not_halt (he : ∀ h, e ≠ .halt h) : Contained message w (.error e w') := by
  cases e with
  | halt h => exact absurd rfl (he h)
  | fault | imbalance => trivial

theorem runInSnapshot_contained (hc : ContainsBelow env message.depth) :
    Contained message w (runInSnapshot runMessage message env w) := by
  unfold runInSnapshot
  rcases openMessage_cases env message w with ⟨w₁, ho, hw₁⟩ | ⟨f, w₁, ho⟩
  · rw [bind_of_ok ho]
    rcases runFrame_begun hw₁ hc with ⟨frame, w₂, hf, hg, hw₂⟩ | ⟨e, w₂, hf, he⟩
    · rw [bind_of_ok hf]
      obtain ⟨w', hclose, hr⟩ := hw₂.returned hg
      have hs : WorldOp.step (fun w => if frame.error.isSome then w.rollback else w.commit) env w₂ =
          .ok () w' := by
        simp only [WorldOp.step, hclose]
      rw [bind_of_ok hs]
      exact hr
    · rw [bind_of_error hf]
      exact .of_not_halt he
  · rw [bind_of_error ho]
    trivial

/-! ## Creation -/

theorem openCreation_begun (env : Environment) (message : Message) (w : World) :
    ∃ w', openCreation message env w = .ok () w' ∧ Begun w w' := by
  refine ⟨_, rfl, ?_, rfl, id⟩
  change (prepareAccount env.fork message.currentTarget w.begin.state).snapshots = _
  unfold prepareAccount
  dsimp only
  split <;> split <;> split <;> rfl

instance {L : Logic} [L.Taking] : Made L payDeposit := by dsimp only [payDeposit]; infer_instance

def Shrinks (size : Frame → Nat) (m m' : Machine) : Prop := size m'.frame ≤ size m.frame

instance (size : Frame → Nat) : IsPreorder Machine (Shrinks size) where
  refl _ := Nat.le_refl _
  trans _ _ _ h h' := Nat.le_trans h' h

/-- A size that gets no larger by what takes gas or words from the frame. -/
class IsSize (size : Frame → Nat) : Prop where
  gas : ∀ f n, size { f with gasLeft := f.gasLeft - n } ≤ size f
  stack : ∀ f, size { f with stack := f.stack.pop } ≤ size f
  note : ∀ f running accessedAddresses accessedSlots,
    size { f with running, accessedAddresses, accessedSlots } ≤ size f

instance : IsSize Frame.gasLeft :=
  ⟨fun _ _ => Nat.sub_le _ _, fun _ => Nat.le_refl _, fun _ _ _ _ => Nat.le_refl _⟩

instance {size : Frame → Nat} [hs : IsSize size] : (Logic.keeping (Shrinks size)).Taking where
  read := keeps_read
  frame := keeps_frame
  state := keeps_state
  transient := keeps_transient
  pop := keeps_frame.skip fun f => by
    split
    · exact keeps_halt (by decide)
    · exact (keeps_modifyFrame (fun m => hs.stack m.frame) (by simp)).skip fun _ => keeps_pure _
  chargeGas amount := (trace_keeps (fun _ _ _ => Nat.le_refl _) _).skip fun _ =>
    keeps_frame.skip fun _ => .ite (keeps_halt (by decide)) (.ite (keeps_throw trivial)
      (keeps_modifyFrame (fun m => hs.gas m.frame amount) (by simp)))
  takeGas amount := keeps_modifyFrame (fun m => hs.gas m.frame amount) (by simp)
  note hg := keeps_modifyFrame (fun m => by rw [hg m.frame]; exact hs.note _ _ _ _)
    fun f => by rw [hg f]; simp

abbrev Spends : Machine → Machine → Prop := Shrinks Frame.gasLeft

theorem step_of_ok {f : World → Except Fault World} (h : f w = .ok w') :
    WorldOp.step f env w = .ok () w' := by
  simp only [WorldOp.step, h]

theorem of_step_ok {f : World → Except Fault World} (h : WorldOp.step f env w = .ok () w') :
    f w = .ok w' := by
  unfold WorldOp.step at h
  cases hf : f w with
  | ok w₁ =>
    rw [hf] at h
    cases h
    rfl
  | error e =>
    rw [hf] at h
    cases h

/-- How a deposit ends that could be paid, that was left out on Frontier, or that failed: the frame,
and the snapshot that has to be closed for it. -/
inductive Deposit (env : Environment) (message : Message) (m : Machine) :
    Frame → World → (World → Except Fault World) → Prop
  | made : Deposit env message m m.frame
      (m.world.modifyState (·.setCode message.currentTarget m.frame.output)) (·.commit)
  | omitted : env.fork = .frontier →
      Deposit env message m { m.frame with output := ByteArray.empty } m.world (·.commit)
  | failed (h : Halt) : Deposit env message m (m.frame.fail env.fork h) m.world (·.rollback)

theorem depositCode_cases (env : Environment) (message : Message) (frame : Frame) (w : World) :
    (∃ m frame' w' close, Quiet ⟨frame, w⟩ m ∧ Spends ⟨frame, w⟩ m ∧
      Deposit env message m frame' w' close ∧ depositCode message frame env w =
        (WorldOp.step close >>= fun _ => pure frame') env w') ∨
    ∃ f w', depositCode message frame env w = .error (.fault f) w' := by
  have hq := (Made.kept : Keeps Quiet 0 payDeposit).within env ⟨frame, w⟩
  have hs := (Made.kept : Keeps Spends 0 payDeposit).within env ⟨frame, w⟩
  unfold depositCode
  rcases hp : payDeposit env ⟨frame, w⟩ with ⟨_, m⟩ | ⟨h | f | f, m⟩
  · rw [hp] at hq hs
    rw [bind_of_ok (attempt_of_ok hp)]
    exact Or.inl ⟨m, _, _, _, hq.1, hs.1, .made, rfl⟩
  · rw [hp] at hq hs
    rw [bind_of_ok (attempt_of_halt hp)]
    dsimp only
    rw [bind_of_ok WorldOp.fork_ok]
    split
    · next hfrontier => exact Or.inl ⟨m, _, _, _, hq.1, hs.1, .omitted hfrontier, rfl⟩
    · exact Or.inl ⟨m, _, _, _, hq.1, hs.1, .failed h, rfl⟩
  · exact Or.inr ⟨f, _, bind_of_error (attempt_of_stop (fun _ => by simp) hp) _⟩
  · rw [hp] at hq
    exact absurd hq.2 id

theorem depositCode_ok_cases {frame frame' : Frame}
    (h : depositCode message frame env w = .ok frame' w') :
    ∃ m w₁ close, Quiet ⟨frame, w⟩ m ∧ Spends ⟨frame, w⟩ m ∧
      Deposit env message m frame' w₁ close ∧ close w₁ = .ok w' := by
  rcases depositCode_cases env message frame w with
    ⟨m, _, w₁, close, hq, hs, hdeposit, hrun⟩ | ⟨f, _, hrun⟩
  · rw [hrun] at h
    obtain ⟨_, _, hclose, h⟩ := of_bind_ok h
    cases h
    exact ⟨m, w₁, close, hq, hs, hdeposit, of_step_ok hclose⟩
  · rw [hrun] at h
    cases h

theorem depositCode_contained {w₀ : World} (hw : Begun w₀ w) (hg : frame.gasLeft ≤ message.gas)
    (he : frame.error = none) : Contained message w₀ (depositCode message frame env w) := by
  rcases depositCode_cases env message frame w with
    ⟨m, frame', w₁, close, hq, hs, hdeposit, hrun⟩ | ⟨f, _, hrun⟩
  · have hm := hw.of_local hq.steady.toLocal
    have hgas : m.frame.gasLeft ≤ message.gas := Nat.le_trans hs hg
    have herror : m.frame.error = none := hq.error.trans he
    have hclosed : ∃ w', close w₁ = .ok w' ∧ Returned message w₀ frame' w' := by
      cases hdeposit with
      | made => exact Begun.committed ⟨hm.snapshots, hm.transientSnapshots, hm.untraced⟩ hgas herror
      | omitted => exact hm.committed hgas herror
      | failed h => exact hm.rolledBack ((gasLeft_fail env.fork m.frame h).1.trans hgas)
    obtain ⟨w', hclose, hr⟩ := hclosed
    rw [hrun, bind_of_ok (step_of_ok hclose)]
    exact hr
  · rw [hrun]
    trivial

theorem runCreate_contained (hc : ∀ w, Contained message w (runMessage message env w)) :
    Contained message w (runCreate runMessage message env w) := by
  obtain ⟨w₁, ho, hw₁⟩ := openCreation_begun env message w
  unfold runCreate
  rw [bind_of_ok ho]
  have hm := hc w₁
  rcases hr : runMessage message env w₁ with ⟨frame, w₂⟩ | ⟨h | f | f, w₂⟩
  · rw [hr] at hm
    rw [bind_of_ok hr]
    have hw₂ := hw₁.of_returned hm
    split
    · obtain ⟨w', hrollback, hf⟩ := hw₂.rolledBack hm.gasLeft
      rw [bind_of_ok (step_of_ok hrollback)]
      exact hf
    · next he => exact depositCode_contained hw₂ hm.gasLeft (by simpa using he)
  · rw [hr] at hm
    exact absurd hm id
  all_goals
    rw [bind_of_error hr]
    trivial

theorem launch_contained_of (hc : ∀ w, Contained message w (runMessage message env w)) :
    Contained message w (launch runMessage message env w) := by
  cases ht : message.target with
  | none =>
    rw [launch_of_none ht]
    exact runCreate_contained hc
  | some _ =>
    rw [launch_of_some ht]
    exact hc w

theorem runMessage_contained (env : Environment) (hd : message.depth ≤ depthLimit) (w : World) :
    Contained message w (runMessage message env w) := by
  refine runMessage_induction (P := Contained) (fun message w _ ih => ?_) hd w
  exact runInSnapshot_contained fun message' w' h' hd' =>
    launch_contained_of fun w => ih message' w h' hd'

theorem launch_contained (env : Environment) (hd : message.depth ≤ depthLimit) (w : World) :
    Contained message w (launch runMessage message env w) :=
  launch_contained_of (runMessage_contained env hd)

theorem containsBelow (env : Environment) (depth : Nat) : ContainsBelow env depth :=
  fun _ w _ hd => launch_contained env hd w

/-! ## Failure -/

theorem runMessage_returned
    (h : runMessage message env w = .ok frame w') : Returned message w frame w' := by
  by_cases hd : message.depth ≤ depthLimit
  · have hc := runMessage_contained env hd w
    rw [h] at hc
    exact hc
  · rw [runMessage_of_lt (Nat.lt_of_not_le hd)] at h
    cases h

theorem runCreate_returned
    (h : runCreate runMessage message env w = .ok frame w') : Returned message w frame w' := by
  have hd : message.depth ≤ depthLimit := by
    obtain ⟨_, w₁, _, h₁⟩ := of_bind_ok h
    obtain ⟨_, w₂, h₂, _⟩ := of_bind_ok h₁
    by_contra hd
    rw [runMessage_of_lt (Nat.lt_of_not_le hd)] at h₂
    cases h₂
  have hc : Contained message w (runCreate runMessage message env w) :=
    runCreate_contained (runMessage_contained env hd)
  rw [h] at hc
  exact hc

theorem launch_returned
    (h : launch runMessage message env w = .ok frame w') : Returned message w frame w' := by
  cases ht : message.target with
  | none =>
    rw [launch_of_none ht] at h
    exact runCreate_returned h
  | some _ =>
    rw [launch_of_some ht] at h
    exact runMessage_returned h

theorem attend_spared {pending : Pending} {child : Frame}
    (hl : launch runMessage pending.message env m.world = .ok child w') (he : child.error.isSome) :
    ∃ m', (attend runMessage (some pending) env m = .ok () m' ∨
      ∃ stop, attend runMessage (some pending) env m = .error stop m') ∧
      Spared { m with world := w' } m' := by
  have ht : Keeps Spared 0 (trace .opEnd) :=
    trace_keeps (fun _ _ _ => ⟨rfl, rfl, rfl, rfl, rfl, rfl, rfl, fun _ _ => Iff.rfl⟩) _
  have hs := ((resume_spared he pending).pay fun _ => ht).within env { m with world := w' }
  rw [← attend_of_ok hl] at hs
  cases hr : attend runMessage (some pending) env m with
  | ok _ m' =>
    rw [hr] at hs
    exact ⟨m', Or.inl rfl, hs.1⟩
  | error stop m' =>
    rw [hr] at hs
    exact ⟨m', Or.inr ⟨stop, rfl⟩, hs.1⟩

end Frames

/-- Whether a message or a creation fails or not, the snapshots are afterwards what they were
before. If it fails, so are accounts, storage and transient storage, and the frame that asked for it
keeps its logs, refunds, accounts to delete and accesses, as well as its touches, of which only that
of the sticky address may be new. -/
theorem failed_frame_unwound (env : Environment) :
    (∀ message w frame w',
      runMessage message env w = .ok frame w' ∨ runCreate runMessage message env w = .ok frame w' →
        w'.state.snapshots = w.state.snapshots ∧ w'.transient.snapshots = w.transient.snapshots ∧
          (frame.error.isSome → SameContent w w')) ∧
    ∀ (pending : Pending) m child w', launch runMessage pending.message env m.world = .ok child w' →
      child.error.isSome → ∃ m', (attend runMessage (some pending) env m = .ok () m' ∨
          ∃ stop, attend runMessage (some pending) env m = .error stop m') ∧
        SameContent m.world m'.world ∧ m'.frame.logs = m.frame.logs ∧
        m'.frame.refund = m.frame.refund ∧
        m'.frame.accountsToDelete = m.frame.accountsToDelete ∧
        m'.frame.accessedAddresses = m.frame.accessedAddresses ∧
        m'.frame.accessedSlots = m.frame.accessedSlots ∧
        ∀ a, a ≠ stickyAddress →
          (a ∈ m'.frame.touchedAccounts ↔ a ∈ m.frame.touchedAccounts) := by
  refine ⟨fun message w frame w' h => ?_, fun pending m child w' hl he => ?_⟩
  · have hr : Returned message w frame w' := by
      rcases h with h | h
      · exact runMessage_returned h
      · exact runCreate_returned h
    exact ⟨hr.snapshots, hr.transientSnapshots, hr.unchanged⟩
  · have hc := (launch_returned hl).unchanged he
    obtain ⟨m', hr, hs⟩ := attend_spared hl he
    have hcontent : SameContent m.world m'.world := by
      refine ⟨?_, ?_, ?_⟩
      · rw [hs.state]
        exact hc.accounts
      · rw [hs.state]
        exact hc.storage
      · rw [hs.transient]
        exact hc.transient
    exact ⟨m', hr, hcontent, hs.logs, hs.refund, hs.accountsToDelete, hs.accessedAddresses,
      hs.accessedSlots, hs.touchedAccounts⟩

/-- A message that stores a word and then fails. -/
theorem failed_frame_unwound_store : ∃ message : Message,
    message.code = ⟨#[0x60, 1, 0x60, 2, 0x55, 0xfe]⟩ ∧
    ∃ frame w' m', runMessage message default { state := {} } = .ok frame w' ∧
      frame.error.isSome ∧ SameContent { state := {} } w' ∧
      (attend runMessage (some { message }) default ⟨default, { state := {} }⟩ = .ok () m' ∨
        ∃ stop, attend runMessage (some { message }) default ⟨default, { state := {} }⟩ =
          .error stop m') ∧
      SameContent { state := {} } m'.world := by
  obtain ⟨message, hcode, ht, frame, w', hr, he⟩ : ∃ message : Message,
      message.code = ⟨#[0x60, 1, 0x60, 2, 0x55, 0xfe]⟩ ∧ message.target = some 0 ∧
      ∃ frame w', runMessage message default { state := {} } = .ok frame w' ∧
        frame.error.isSome := by
    have hrun : (match runMessage { (default : Message) with
        code := ⟨#[0x60, 1, 0x60, 2, 0x55, 0xfe]⟩, gas := 30000, target := some 0 } default
          { state := {} } with
        | .ok frame _ => frame.error.isSome
        | .error _ _ => false) = true := by decide +kernel
    refine ⟨{ (default : Message) with
      code := ⟨#[0x60, 1, 0x60, 2, 0x55, 0xfe]⟩, gas := 30000, target := some 0 }, rfl, rfl, ?_⟩
    split at hrun
    · next frame w' hr => exact ⟨frame, w', hr, hrun⟩
    · cases hrun
  have hl : launch runMessage message default { state := {} } = .ok frame w' := by
    rw [launch_of_some ht]
    exact hr
  obtain ⟨m', ha, hc, -⟩ := (failed_frame_unwound default).2 { message }
    ⟨default, { state := {} }⟩ frame w' hl he
  exact ⟨message, hcode, frame, w', m', hr, he,
    ((failed_frame_unwound default).1 _ _ _ _ (Or.inl hr)).2.2 he, ha, hc⟩

end ExecutionLayer.Evm
