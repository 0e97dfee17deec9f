import ExecutionLayer.Proofs.Evm.Step
import Mathlib.Logic.Relation

/-! # Runs

Code is run instruction by instruction until the frame is at its end or is stopped. A frame asks
only for frames one level below it, so the levels that the recursion counts are the depths that the
messages name.
-/
namespace ExecutionLayer.Evm
open Exec Step Relation

def Machine.IsActive (m : Machine) : Prop :=
  m.frame.running = true ∧ m.frame.pc < m.frame.code.size

structure StepsTo (runner : Runner) (env : Environment) (m m' : Machine) : Prop where
  active : m.IsActive
  step : stepInstruction runner env m = .ok () m'

/-- How a run ends that has come as far as `m`. -/
inductive Ends (runner : Runner) (env : Environment) (m : Machine) :
    EStateM.Result Stop Machine Unit → Prop
  | done : ¬m.IsActive → Ends runner env m (trace .codeEnd env m)
  | stopped {e : Stop} {m' : Machine} : m.IsActive →
      stepInstruction runner env m = .error e m' → Ends runner env m (.error e m')
  | exhausted : Ends runner env m (.error (.fault .brokenInvariant) m)

section Runs
variable {runner : Runner} {env : Environment} {m m' : Machine}

theorem runCode_of_active (h : m.IsActive) (fuel : Nat) : runCode runner (fuel + 1) env m =
    (stepInstruction runner >>= fun _ => runCode runner fuel) env m := by
  have hc : (m.frame.running && decide (m.frame.pc < m.frame.code.size)) = true := by
    rw [Bool.and_eq_true, decide_eq_true_eq]
    exact h
  rw [runCode, bind_of_ok get_ok]
  simp only [hc, ↓reduceIte]

theorem runCode_of_not_active (h : ¬m.IsActive) (fuel : Nat) :
    runCode runner (fuel + 1) env m = trace .codeEnd env m := by
  have hc : ¬(m.frame.running && decide (m.frame.pc < m.frame.code.size)) = true := by
    rw [Bool.and_eq_true, decide_eq_true_eq]
    exact h
  rw [runCode, bind_of_ok get_ok]
  simp only [hc, ↓reduceIte, Bool.false_eq_true]

theorem runCode_ends (runner : Runner) (env : Environment) (fuel : Nat) (m : Machine) :
    ∃ m', ReflTransGen (StepsTo runner env) m m' ∧
      Ends runner env m' (runCode runner fuel env m) := by
  induction fuel generalizing m with
  | zero => exact ⟨m, .refl, .exhausted⟩
  | succ fuel ih =>
    by_cases ha : m.IsActive
    · rw [runCode_of_active ha]
      cases hs : stepInstruction runner env m with
      | ok _ m₁ =>
        rw [bind_of_ok hs]
        obtain ⟨m', hr, he⟩ := ih m₁
        exact ⟨m', .head ⟨ha, hs⟩ hr, he⟩
      | error e m₁ =>
        rw [bind_of_error hs]
        exact ⟨m, .refl, .stopped ha hs⟩
    · rw [runCode_of_not_active ha]
      exact ⟨m, .refl, .done ha⟩

theorem Ends.of_ok (h : Ends runner env m (.ok () m')) :
    ¬m.IsActive ∧ trace .codeEnd env m = .ok () m' := by
  generalize hr : EStateM.Result.ok () m' = r at h
  cases h with
  | done hn => exact ⟨hn, rfl⟩
  | stopped _ _ => cases hr
  | exhausted => cases hr

theorem Ends.of_imbalance {f : Fault} (h : Ends runner env m (.error (.imbalance f) m')) :
    m.IsActive ∧ stepInstruction runner env m = .error (.imbalance f) m' := by
  generalize hr : EStateM.Result.error (Stop.imbalance f) m' = r at h
  cases h with
  | done _ =>
    have ht := (trace_quiet .codeEnd).within env m
    rw [← hr] at ht
    exact absurd ht.2 id
  | stopped ha hs => exact ⟨ha, hs⟩
  | exhausted => cases hr

def Message.precompile? (env : Environment) (message : Message) : Option Precompile :=
  message.codeAddress.bind (Precompile.at? env.fork)

theorem runBody_of_some {message : Message} {contract : Precompile}
    (h : message.precompile? env = some contract) : runBody runner message env m =
      (trace .precompileStart >>= fun _ => contract.run >>= fun _ => trace .precompileEnd) env m := by
  unfold runBody
  rw [bind_of_ok fork_ok]
  unfold Message.precompile? at h
  rw [h]

theorem runBody_of_none {message : Message} (h : message.precompile? env = none) :
    runBody runner message env m = runCode runner (fuelFor message.gas) env m := by
  unfold runBody
  rw [bind_of_ok fork_ok]
  unfold Message.precompile? at h
  rw [h]

theorem runBody_quiet (runner : Runner) (m : Machine) {message : Message} {contract : Precompile}
    (h : message.precompile? env = some contract) :
    Within Quiet 0 m (runBody runner message env m) := by
  rw [runBody_of_some h]
  exact Made.kept.within env m

theorem of_runBody_ok {message : Message} (h : runBody runner message env m = .ok () m') :
    ∃ m₁, ReflTransGen (StepsTo runner env) m m₁ ∧ Quiet m₁ m' ∧
      (message.precompile? env = none ∨ m₁ = m) := by
  cases hp : message.precompile? env with
  | some contract =>
    have hq := runBody_quiet runner m hp
    rw [h] at hq
    exact ⟨m, .refl, hq.1, Or.inr rfl⟩
  | none =>
    rw [runBody_of_none hp] at h
    obtain ⟨m₁, hr, he⟩ := runCode_ends runner env (fuelFor message.gas) m
    rw [h] at he
    have hq := (trace_quiet .codeEnd).within env m₁
    rw [he.of_ok.2] at hq
    exact ⟨m₁, hr, hq.1, Or.inl rfl⟩

theorem onWorld_of_ok {α : Type} {op : WorldOp α} {v : α} {w : World}
    (h : op env m.world = .ok v w) : onWorld op env m = .ok v { m with world := w } := by
  simp only [onWorld, h]

theorem onWorld_of_error {α : Type} {op : WorldOp α} {e : Stop} {w : World}
    (h : op env m.world = .error e w) : onWorld op env m = .error e { m with world := w } := by
  simp only [onWorld, h]

theorem attend_of_ok {pending : Pending} {child : Frame} {w : World}
    (h : launch runner pending.message env m.world = .ok child w) :
    attend runner (some pending) env m =
      (pending.resume child >>= fun _ => trace .opEnd) env { m with world := w } :=
  bind_of_ok (onWorld_of_ok h) _

theorem attend_of_error {pending : Pending} {e : Stop} {w : World}
    (h : launch runner pending.message env m.world = .error e w) :
    attend runner (some pending) env m = .error e { m with world := w } :=
  bind_of_error (onWorld_of_error h) _

/-- The two ways to be done with an instruction: by itself, or once the frame is run that it asks
for. -/
inductive Done (runner : Runner) (env : Environment) (m m' : Machine) : Prop
  | alone {m₁ : Machine} (fetched : fetch env m = .ok none m₁)
      (ended : trace .opEnd env m₁ = .ok () m')
  | called {pending : Pending} {m₁ m₂ : Machine} {child : Frame} {w : World}
      (fetched : fetch env m = .ok (some pending) m₁)
      (launched : launch runner pending.message env m₁.world = .ok child w)
      (resumed : pending.resume child env { m₁ with world := w } = .ok () m₂)
      (ended : trace .opEnd env m₂ = .ok () m')

theorem StepsTo.done (h : StepsTo runner env m m') : Done runner env m m' := by
  obtain ⟨p, m₁, hp, ha⟩ := of_bind_ok h.step
  cases p with
  | none => exact .alone hp ha
  | some pending =>
    cases hl : launch runner pending.message env m₁.world with
    | ok child w =>
      rw [attend_of_ok hl] at ha
      obtain ⟨_, m₂, hr, ht⟩ := of_bind_ok ha
      exact .called hp hl hr ht
    | error e w =>
      rw [attend_of_error hl] at ha
      cases ha

theorem StepsTo.message (h : StepsTo runner env m m') : m'.frame.message = m.frame.message := by
  cases h.done with
  | alone hf ht =>
    have hfetched := fetch_fetched env m
    rw [hf] at hfetched
    rw [of_trace_ok ht, hfetched.1.message]
  | called hf _ hr ht =>
    have hstill := (resume_still _ _).sustained.of_ok hr
    rw [of_trace_ok ht, hstill.message]
    exact (asking_of_fetch hf).message

end Runs

section Levels
variable {r r' : Runner} {env : Environment}

theorem launch_of_none {message : Message} (h : message.target = none) :
    launch r message = runCreate r message := by
  unfold launch
  rw [h]

theorem launch_of_some {message : Message} {a : Address} (h : message.target = some a) :
    launch r message = r message := by
  unfold launch
  rw [h]

theorem launch_congr {message : Message} (h : r message = r' message) :
    launch r message = launch r' message := by
  unfold launch runCreate
  rw [h]

theorem stepInstruction_congr {m : Machine}
    (h : ∀ message, message.depth = m.frame.message.depth + 1 → message.depth ≤ depthLimit →
      r message = r' message) :
    stepInstruction r env m = stepInstruction r' env m := by
  unfold stepInstruction
  cases hp : fetch env m with
  | ok p m₁ =>
    rw [bind_of_ok hp, bind_of_ok hp]
    cases p with
    | none => rfl
    | some pending =>
      have hasking := asking_of_fetch hp
      rw [attend, attend, launch_congr (h _ hasking.depth hasking.le_limit)]
  | error e m₁ => rw [bind_of_error hp, bind_of_error hp]

theorem runCode_congr {m : Machine}
    (h : ∀ message, message.depth = m.frame.message.depth + 1 → message.depth ≤ depthLimit →
      r message = r' message)
    (fuel : Nat) : runCode r fuel env m = runCode r' fuel env m := by
  induction fuel generalizing m with
  | zero => rfl
  | succ fuel ih =>
    by_cases ha : m.IsActive
    · rw [runCode_of_active ha, runCode_of_active ha]
      have hs : stepInstruction r env m = stepInstruction r' env m := stepInstruction_congr h
      cases hr : stepInstruction r env m with
      | ok _ m₁ =>
        rw [bind_of_ok hr, bind_of_ok (hs ▸ hr)]
        have hm : m₁.frame.message = m.frame.message := StepsTo.message ⟨ha, hr⟩
        exact ih (by rwa [hm])
      | error e m₁ => rw [bind_of_error hr, bind_of_error (hs ▸ hr)]
    · rw [runCode_of_not_active ha, runCode_of_not_active ha]

theorem runInSnapshot_congr {message : Message}
    (h : ∀ message', message'.depth = message.depth + 1 → message'.depth ≤ depthLimit →
      r message' = r' message') :
    runInSnapshot r message = runInSnapshot r' message := by
  have hbody (env : Environment) (w : World) : runBody r message env ⟨.ofMessage message, w⟩ =
      runBody r' message env ⟨.ofMessage message, w⟩ := by
    cases hp : message.precompile? env with
    | some contract => rw [runBody_of_some hp, runBody_of_some hp]
    | none =>
      rw [runBody_of_none hp, runBody_of_none hp]
      exact runCode_congr h _
  have hattempt : WorldOp.attempt (.ofMessage message) (runBody r message) =
      WorldOp.attempt (.ofMessage message) (runBody r' message) := by
    funext env w
    unfold WorldOp.attempt
    rw [hbody]
  unfold runInSnapshot runFrame
  rw [hattempt]

theorem runMessage_eq {message : Message} (h : message.depth ≤ depthLimit) :
    runMessage message = runInSnapshot runMessage message := by
  have hl : depthLimit + 1 - message.depth = depthLimit - message.depth + 1 := by omega
  have hbelow (message' : Message) (h' : message'.depth = message.depth + 1)
      (_ : message'.depth ≤ depthLimit) :
      runWithin (depthLimit - message.depth) message' = runMessage message' := by
    unfold runMessage
    rw [h', Nat.add_sub_add_right]
  conv_lhs => unfold runMessage
  rw [hl]
  exact runInSnapshot_congr hbelow

theorem runMessage_of_lt {message : Message} (h : depthLimit < message.depth) (w : World) :
    runMessage message env w = .error (.halt .stackDepthLimit) w := by
  unfold runMessage
  rw [show depthLimit + 1 - message.depth = 0 by omega]
  rfl

/-- What holds of a message if it holds of those one level below it, holds of every message. -/
theorem runMessage_induction {P : Message → World → EStateM.Result Stop World Frame → Prop}
    (h : ∀ message w, message.depth ≤ depthLimit →
      (∀ message' w', message'.depth = message.depth + 1 → message'.depth ≤ depthLimit →
        P message' w' (runMessage message' env w')) →
      P message w (runInSnapshot runMessage message env w))
    {message : Message} (hd : message.depth ≤ depthLimit) (w : World) :
    P message w (runMessage message env w) := by
  induction hk : depthLimit - message.depth generalizing message w with
  | zero =>
    rw [runMessage_eq hd]
    exact h message w hd fun message' w' h' hd' => absurd hk (by omega)
  | succ k ih =>
    rw [runMessage_eq hd]
    exact h message w hd fun message' w' h' hd' => ih hd' w' (by omega)

end Levels

end ExecutionLayer.Evm
