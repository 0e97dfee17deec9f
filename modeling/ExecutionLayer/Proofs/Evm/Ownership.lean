import ExecutionLayer.Proofs.Evm.Conservation
import ExecutionLayer.Proofs.Evm.Course

/-! # Storage while code runs

No instruction lets an account vanish or leaves storage that is not owned, even if it stops halfway,
and what a failed frame has done is undone. The account that a frame acts for is there as long as it
runs, so that a store always finds it.
-/
set_option synthInstance.maxSize 100000
namespace ExecutionLayer.Evm
open Exec Step Relation
open State (Upholds)

/-! ## However an operation ends -/

def World.Upholds (w w' : World) : Prop := State.Upholds w.state w'.state

def Machine.Upholds (m m' : Machine) : Prop := World.Upholds m.world m'.world

instance : IsPreorder World World.Upholds where
  refl w := refl w.state
  trans a b c h h' := IsTrans.trans a.state b.state c.state h h'

instance : IsPreorder Machine Machine.Upholds where
  refl m := refl m.world
  trans a b c h h' := IsTrans.trans a.world b.world c.world h h'

section Machines
variable {α : Type}

theorem upholds_of_state {m m' : Machine} (h : m'.world.state = m.world.state) : m.Upholds m' := by
  unfold Machine.Upholds World.Upholds
  rw [h]
  exact refl _

theorem Keeps.sustains {cost : Int} {op : Exec α} (h : Keeps Still cost op) :
    Sustains Machine.Upholds op := h.sustained.mono fun h => upholds_of_state h.state

theorem Keeps.calm {cost : Int} {op : Exec α} (h : Keeps Quiet cost op) :
    Sustains Machine.Upholds op := h.still.sustains

theorem modifyFrame_sustains (g : Frame → Frame) : Sustains Machine.Upholds (modifyFrame g) :=
  ⟨fun _ => carries_modify fun m => refl m.world⟩

theorem modifyState_sustains {g : State → State} (h : ∀ s, Upholds s (g s)) :
    Sustains Machine.Upholds (modifyState g) := ⟨fun _ => carries_modify fun m => h m.world.state⟩

end Machines

/-! ## Instructions -/

namespace Step

instance : Tolerates Machine.Upholds where
  quiet h := upholds_of_state h.state
  logs m _ := refl m.world
  transient m _ := refl m.world.state
  nonce m a := (State.upholds_modifyAccount m.world.state a _ :
    m.world.state.Upholds (m.world.state.incrementNonce a))

instance : (Logic.sustaining Machine.Upholds).Storing where
  addRefund _ := modifyFrame_sustains _
  setStorage _ _ _ := onWorld_sustains (onState_sustains
    (State.carries_step (R := Upholds) State.upholds_of_setStorage) _)

instance : (Logic.sustaining Machine.Upholds).Destroying where
  tally _ := modifyFrame_sustains _
  setBalance a := modifyState_sustains fun s => State.upholds_modifyAccount s a _
  addBalance _ _ := onWorld_sustains (onState_sustains
    (State.carries_step (R := Upholds) State.upholds_of_addBalance) _)
  moveEther _ _ _ := onWorld_sustains (onState_sustains (State.moveEther_upholds _ _ _) _)

end Step

theorem fetch_sustains : Sustains Machine.Upholds fetch := fetch_sustained

/-! ## Opening frames -/

section Frames
variable {env : Environment} {message : Message} {w w' : World} {m m' : Machine} {frame : Frame}

theorem SameContent.upholds (h : SameContent w w') : w.Upholds w' :=
  State.upholds_of_content h.accounts h.storage

theorem fork_sustains : Sustains World.Upholds WorldOp.fork := ⟨fun _ => ⟨fun w => refl w⟩⟩

theorem modifyWorld_sustains {g : State → State} (h : ∀ s, Upholds s (g s)) :
    Sustains World.Upholds (modify (·.modifyState g) : WorldOp Unit) :=
  ⟨fun _ => carries_modify fun w => h w.state⟩

theorem begin_sustains : Sustains World.Upholds (modify (·.begin) : WorldOp Unit) :=
  ⟨fun _ => carries_modify fun _ => State.upholds_of_content rfl rfl⟩

theorem openMessage_sustains (message : Message) : Sustains World.Upholds (openMessage message) :=
  begin_sustains.bind fun _ => (modifyWorld_sustains fun s => State.upholds_touch s _).bind fun _ =>
    fork_sustains.bind fun _ => .ite (onState_sustains (State.moveEther_upholds _ _ _) _)
      (sustains_pure _)

theorem prepareAccount_upholds (fork : Fork) (a : Address) (s : State) :
    s.Upholds (prepareAccount fork a s) := by
  have hdestroyed : s.Upholds (if fork = .daoFork then s else s.destroyStorage a) := by
    split
    · exact refl s
    · exact State.upholds_destroyStorage s a
  have hmarked (s : State) : s.Upholds (if Fork.istanbul ≤ fork then s.markCreated a else s) := by
    split
    · exact State.upholds_of_content rfl rfl
    · exact refl s
  have hcounted (s : State) :
      s.Upholds (if Fork.spuriousDragon ≤ fork then s.incrementNonce a else s) := by
    split
    · exact State.upholds_modifyAccount s a _
    · exact refl s
  exact IsTrans.trans _ _ _ (IsTrans.trans _ _ _ hdestroyed (hmarked _)) (hcounted _)

theorem openCreation_sustains (message : Message) : Sustains World.Upholds (openCreation message) :=
  fork_sustains.bind fun _ => begin_sustains.bind fun _ =>
    modifyWorld_sustains fun s => prepareAccount_upholds _ _ s

theorem openFrame_sustains (message : Message) : Sustains World.Upholds (openFrame message) := by
  unfold openFrame
  split
  · exact (openCreation_sustains message).bind fun _ => openMessage_sustains message
  · exact openMessage_sustains message

theorem target_of_openMessage (h : openMessage message env w = .ok () w') :
    w'.state.accountExists message.currentTarget = true := by
  obtain ⟨s, rfl, rfl | ⟨-, -, hpays⟩⟩ := of_openMessage_ok h
  · exact State.accountExists_touch _ _
  · exact hpays.sameCode.lives _ (State.accountExists_touch _ _)

theorem target_of_openFrame (h : openFrame message env w = .ok () w') :
    w'.state.accountExists message.currentTarget = true := by
  unfold openFrame at h
  cases ht : message.target with
  | none =>
    rw [ht] at h
    obtain ⟨_, w₁, -, hopen⟩ := of_bind_ok h
    exact target_of_openMessage hopen
  | some _ =>
    rw [ht] at h
    exact target_of_openMessage h

/-! ## Running and closing frames -/

theorem attempt_upholds {body : Exec Unit}
    (h : Machine.Upholds ⟨frame, w⟩ (endOf (body env ⟨frame, w⟩))) :
    w.Upholds (endOf (WorldOp.attempt frame body env w)) := by
  unfold WorldOp.attempt
  rcases hr : body env ⟨frame, w⟩ with ⟨_, m⟩ | ⟨e | f | f, m⟩ <;> rwa [hr] at h

theorem runFrame_upholds
    (h : Machine.Upholds ⟨.ofMessage message, w⟩
      (endOf (runBody runMessage message env ⟨.ofMessage message, w⟩))) :
    w.Upholds (endOf (runFrame runMessage message env w)) := by
  refine endOf_readBind (attempt_upholds h) fun (frame, halt) w' _ => ?_
  cases halt with
  | none => exact refl w'
  | some halt =>
    exact endOf_readBind (attempt_upholds ((trace_quiet _).calm.ends env _)) fun _ w'' _ => refl w''

/-- What has become of the world, unless a frame is answered that has failed. -/
def Settles (w : World) : EStateM.Result Stop World Frame → Prop
  | .ok frame w' => frame.error = none → w.Upholds w'
  | .error _ w' => w.Upholds w'

theorem Settles.bind {α : Type} {x : WorldOp α} {f : α → WorldOp Frame}
    (hx : w.Upholds (endOf (x env w)))
    (hf : ∀ a w', x env w = .ok a w' → Settles w' (f a env w')) : Settles w ((x >>= f) env w) := by
  cases h : x env w with
  | ok a w' =>
    rw [h] at hx
    rw [bind_of_ok h]
    have hs := hf a w' h
    cases hr : f a env w' with
    | ok frame w'' =>
      rw [hr] at hs
      exact fun he => IsTrans.trans _ _ _ hx (hs he)
    | error e w'' =>
      rw [hr] at hs
      exact IsTrans.trans _ _ _ hx hs
  | error e w' =>
    rw [h] at hx
    rw [bind_of_error h]
    exact hx

theorem Settles.upholds {r : EStateM.Result Stop World Frame} (h : Settles w r)
    (hreturned : ∀ frame w', r = .ok frame w' → Returned message w frame w') :
    w.Upholds (endOf r) := by
  cases r with
  | ok frame w' =>
    cases he : frame.error with
    | none => exact h he
    | some e => exact ((hreturned frame w' rfl).unchanged (by rw [he]; rfl)).upholds
  | error e w' => exact h

theorem step_of_error {g : World → Except Fault World} {f : Fault} (h : g w = .error f) :
    WorldOp.step g env w = .error (.fault f) w := by
  simp only [WorldOp.step, h]

theorem commit_sustains : Sustains World.Upholds (WorldOp.step (·.commit)) := by
  refine ⟨fun env => ⟨fun w => ?_⟩⟩
  cases h : w.commit with
  | ok w' =>
    rw [step_of_ok h]
    exact (commit_sameContent h).upholds
  | error f =>
    rw [step_of_error h]
    exact refl w

theorem rollback_settles (he : frame.error.isSome = true) :
    Settles w ((WorldOp.step (·.rollback) >>= fun _ => pure frame) env w) := by
  cases h : w.rollback with
  | ok w' =>
    rw [bind_of_ok (step_of_ok h)]
    intro hn
    rw [hn] at he
    cases he
  | error f =>
    rw [bind_of_error (step_of_error h)]
    exact (refl w : w.Upholds w)

theorem runInSnapshot_settles
    (hbody : ∀ w, Machine.Upholds ⟨.ofMessage message, w⟩
      (endOf (runBody runMessage message env ⟨.ofMessage message, w⟩))) :
    Settles w (runInSnapshot runMessage message env w) := by
  refine .bind ((openMessage_sustains message).ends env w) fun _ w₁ _ =>
    .bind (runFrame_upholds (hbody w₁)) fun frame w₂ _ => ?_
  by_cases he : frame.error.isSome = true
  · rw [show (fun w : World => if frame.error.isSome = true then w.rollback else w.commit) =
      World.rollback from funext fun _ => if_pos he]
    exact rollback_settles he
  · rw [show (fun w : World => if frame.error.isSome = true then w.rollback else w.commit) =
      World.commit from funext fun _ => if_neg he]
    exact .bind (commit_sustains.ends env w₂) fun _ w₃ _ _ => refl w₃

theorem depositCode_settles : Settles w (depositCode message frame env w) := by
  refine .bind (attempt_upholds (Made.sustained.ends env _)) fun (frame, halt) w₁ _ => ?_
  cases halt with
  | none =>
    exact .bind ((modifyWorld_sustains fun s => State.upholds_modifyAccount s _ _).ends env w₁)
      fun _ w₂ _ => .bind (commit_sustains.ends env w₂) fun _ w₃ _ _ => refl w₃
  | some halt =>
    refine .bind (fork_sustains.ends env w₁) fun fork w₂ _ => ?_
    split
    · exact .bind (commit_sustains.ends env w₂) fun _ w₃ _ _ => refl w₃
    · exact rollback_settles (by rw [error_fail]; rfl)

theorem runCreate_settles (hrun : ∀ w : World, w.Upholds (endOf (runMessage message env w))) :
    Settles w (runCreate runMessage message env w) := by
  refine .bind ((openCreation_sustains message).ends env w) fun _ w₁ _ =>
    .bind (hrun w₁) fun frame w₂ _ => ?_
  split
  · next he => exact rollback_settles he
  · exact depositCode_settles

theorem launch_upholds_of (hrun : ∀ w : World, w.Upholds (endOf (runMessage message env w)))
    (w : World) : w.Upholds (endOf (launch runMessage message env w)) := by
  cases ht : message.target with
  | none =>
    rw [launch_of_none ht]
    exact (runCreate_settles hrun).upholds fun _ _ => runCreate_returned
  | some _ =>
    rw [launch_of_some ht]
    exact hrun w

/-! ## Whole messages -/

def UpheldBelow (env : Environment) (depth : Nat) : Prop :=
  ∀ message w, message.depth = depth + 1 → message.depth ≤ depthLimit →
    World.Upholds w (endOf (launch runMessage message env w))

theorem stepInstruction_upholds (hbelow : UpheldBelow env m.frame.message.depth) :
    m.Upholds (endOf (stepInstruction runMessage env m)) := by
  refine endOf_readBind (fetch_sustains.ends env m) fun p m₁ hp => ?_
  cases p with
  | none => exact (trace_quiet _).calm.ends env m₁
  | some pending =>
    have ha := asking_of_fetch hp
    refine endOf_readBind (onWorld_related (hbelow _ _ ha.depth ha.le_limit)) fun child m₂ _ => ?_
    exact ((resume_still pending child).sustains.bind fun _ => (trace_quiet _).calm).ends env m₂

theorem StepsTo.upholds_of (h : StepsTo runMessage env m m')
    (hbelow : UpheldBelow env m.frame.message.depth) : m.Upholds m' := by
  have hs := stepInstruction_upholds hbelow
  rw [h.step] at hs
  exact hs

theorem steps_upholds_of (h : ReflTransGen (StepsTo runMessage env) m m')
    (hbelow : UpheldBelow env m.frame.message.depth) : m.Upholds m' := by
  induction h using ReflTransGen.head_induction_on with
  | refl => exact refl _
  | head hs _ ih =>
    refine IsTrans.trans _ _ _ (hs.upholds_of hbelow) (ih ?_)
    rw [hs.message]
    exact hbelow

theorem runBody_upholds (hbelow : UpheldBelow env message.depth) (w : World) :
    Machine.Upholds ⟨.ofMessage message, w⟩
      (endOf (runBody runMessage message env ⟨.ofMessage message, w⟩)) := by
  cases hp : message.precompile? env with
  | some contract =>
    rw [runBody_of_some hp]
    exact (Made.sustained (R := Machine.Upholds)).ends env _
  | none =>
    rw [runBody_of_none hp]
    obtain ⟨m, hsteps, hends⟩ :=
      runCode_ends runMessage env (fuelFor message.gas) ⟨.ofMessage message, w⟩
    refine IsTrans.trans _ _ _ (steps_upholds_of hsteps hbelow) ?_
    obtain ⟨hlocal, -⟩ := steps_local hsteps (containsBelow env _)
    generalize runCode runMessage (fuelFor message.gas) env ⟨.ofMessage message, w⟩ = r at hends ⊢
    cases hends with
    | done _ => exact (trace_quiet .codeEnd).calm.ends env m
    | @stopped e m' _ hstop =>
      have hs : m.Upholds (endOf (stepInstruction runMessage env m)) := by
        refine stepInstruction_upholds ?_
        rw [hlocal.message]
        exact hbelow
      rw [hstop] at hs
      exact hs
    | exhausted => exact refl m

/-- A message lets no account vanish, and leaves storage owned if it was, however it ends. -/
theorem runMessage_upholds (env : Environment) (message : Message) (w : World) :
    w.Upholds (endOf (runMessage message env w)) := by
  by_cases hd : message.depth ≤ depthLimit
  · refine runMessage_induction (P := fun _ w r => w.Upholds (endOf r))
      (fun message w hd ih => ?_) hd w
    have hbelow : UpheldBelow env message.depth := fun message' w' h' hd' =>
      launch_upholds_of (fun w => ih message' w h' hd') w'
    rw [← runMessage_eq hd]
    have hsettles : Settles w (runMessage message env w) := by
      rw [runMessage_eq hd]
      exact runInSnapshot_settles fun w => runBody_upholds hbelow w
    exact hsettles.upholds fun _ _ => runMessage_returned
  · rw [runMessage_of_lt (Nat.lt_of_not_le hd)]
    exact refl w

theorem launch_upholds (env : Environment) (message : Message) (w : World) :
    w.Upholds (endOf (launch runMessage message env w)) :=
  launch_upholds_of (runMessage_upholds env message) w

theorem stepInstruction_sustains : Sustains Machine.Upholds (stepInstruction runMessage) :=
  ⟨fun env => ⟨fun _ => stepInstruction_upholds fun message w _ _ => launch_upholds env message w⟩⟩

/-! ## Between instructions -/

structure Machine.Owns (m : Machine) : Prop where
  owned : m.world.state.Owned
  target : m.world.state.accountExists m.frame.message.currentTarget = true

theorem Machine.Owns.of_upholds (h : m.Owns) (hup : m.Upholds m')
    (hmessage : m'.frame.message = m.frame.message) : m'.Owns := by
  refine ⟨hup.owned h.owned, ?_⟩
  rw [hmessage]
  exact hup.lives _ h.target

theorem Opens.owns (ho : Opens env message w m) (hw : w.state.Owned) : m.Owns := by
  have hup : w.Upholds m.world := (openFrame_sustains message).of_ok ho.opened
  refine ⟨hup.owned hw, ?_⟩
  rw [ho.frame]
  exact target_of_openFrame ho.opened

theorem Reaches.owns {K : Message → World → Prop} (h : Reaches env K m m') (hm : m.Owns) :
    m'.Owns := by
  induction h with
  | refl => exact hm
  | next hstep _ ih =>
    exact ih (hm.of_upholds (stepInstruction_sustains.of_ok hstep.step) hstep.message)
  | enter _ hfetch _ hopens _ ih =>
    have hup : Machine.Upholds _ _ := fetch_sustains.of_ok hfetch
    exact ih (hopens.owns (hup.owned hm.owned))

end Frames

/-! ## Stores -/

namespace Step
variable {env : Environment} {m m' : Machine} {f : Fault} {α β : Type}

/-- The operation leaves the world alone, and finds no broken invariant if nothing is traced. -/
structure Firm (op : Exec α) : Prop where
  still : Sustains Still op
  firm : ∀ {env m m'}, m.world.tracer = none → op env m ≠ .error (.fault .brokenInvariant) m'

theorem Firm.of_bind {m₀ : Machine} {x : Exec α} {g : α → Exec β} (hx : Firm x)
    (hu : m₀.world.tracer = none) (hm : Still m₀ m)
    (h : (x >>= g) env m = .error (.fault .brokenInvariant) m') :
    ∃ v m₁, Still m₀ m₁ ∧ g v env m₁ = .error (.fault .brokenInvariant) m' := by
  rcases of_bind_error h with h | ⟨v, m₁, hv, h⟩
  · exact absurd h (hx.firm (hm.untraced hu))
  · exact ⟨v, m₁, IsTrans.trans _ _ _ hm (hx.still.of_ok hv), h⟩

def Logic.firm : Logic where
  holds := Firm
  pure a := ⟨sustains_pure a, fun _ => nofun⟩
  bind hx hg := by
    refine ⟨hx.still.bind fun a => (hg a).still, fun hu h => ?_⟩
    obtain ⟨v, m₁, hs, h⟩ := hx.of_bind hu (refl _) h
    exact (hg v).firm (hs.untraced hu) h
  halt _ := ⟨sustains_throw _, fun _ => nofun⟩

theorem pop_firm : Firm pop := by
  refine ⟨Made.sustained, fun {env m m'} _ => ?_⟩
  cases hx : m.frame.stack.back? with
  | none => rw [pop_of_none hx]; nofun
  | some x => rw [pop_of_some hx]; nofun

theorem chargeGas_firm (amount : Nat) : Firm (chargeGas amount) := by
  refine ⟨Made.sustained, fun hu h => ?_⟩
  unfold chargeGas at h
  rw [bind_of_ok (trace_of_untraced hu _), bind_of_ok frame_ok] at h
  split at h
  · cases h
  · split at h <;> cases h

instance : Logic.firm.Taking where
  read := ⟨Made.sustained, fun _ => nofun⟩
  frame := ⟨Made.sustained, fun _ => nofun⟩
  state := ⟨Made.sustained, fun _ => nofun⟩
  transient := ⟨Made.sustained, fun _ => nofun⟩
  pop := pop_firm
  chargeGas := chargeGas_firm
  takeGas _ := ⟨Logic.Taking.takeGas (L := .sustaining Still) _, fun _ => nofun⟩
  note hg := ⟨Logic.Taking.note (L := .sustaining Still) hg, fun _ => nofun⟩

/-- The price of a change is not known without a snapshot, but that is another fault. -/
instance (key new : Word) : Made Logic.firm (priceChange key new) := by
  have (s : State) (a : Address) : Made Logic.firm (ofExcept (s.startStorage a key)) := by
    refine ⟨Made.sustained, fun _ => ?_⟩
    unfold State.startStorage
    split
    · nofun
    · split <;> nofun
  dsimp only [priceChange]
  infer_instance

theorem sstore_ne_brokenInvariant (hm : m.Owns) (hu : m.world.tracer = none) :
    sstore env m ≠ .error (.fault .brokenInvariant) m' := by
  have hrefund (n : Int) : Firm (addRefund n) :=
    ⟨⟨fun _ => carries_modify fun _ => ⟨rfl, rfl, id, rfl, rfl⟩⟩, fun _ => nofun⟩
  have hmade {α : Type} {op : Exec α} [h : Made Logic.firm op] : Firm op := h.holds
  intro h
  obtain ⟨key, _, hs, h⟩ := hmade.of_bind hu (refl m) h
  obtain ⟨new, _, hs, h⟩ := hmade.of_bind hu hs h
  obtain ⟨_, _, hs, h⟩ := hmade.of_bind hu hs h
  obtain ⟨_, _, hs, h⟩ := (hrefund _).of_bind hu hs h
  obtain ⟨_, _, hs, h⟩ := hmade.of_bind hu hs h
  obtain ⟨_, m₁, hs, h⟩ := hmade.of_bind hu hs h
  have hexists : m₁.world.state.accountExists m₁.frame.message.currentTarget = true := by
    rw [hs.state, hs.message]
    exact hm.target
  have hstore := State.setStorage_of_exists hexists key new
  rw [bind_of_ok message_ok] at h
  rcases of_bind_error h with h | ⟨_, _, _, h⟩
  · simp only [onWorld, WorldOp.onState, State.step, hstore] at h
    cases h
  · cases h

end Step

end ExecutionLayer.Evm
