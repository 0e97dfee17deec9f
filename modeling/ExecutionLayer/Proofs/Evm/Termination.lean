import ExecutionLayer.Proofs.Evm.Reach

/-! # How long frames run

An instruction after which its frame goes on has taken gas, whatever the frame that it asked for has
given back. A run of the code therefore comes to its end by itself, and neither the fuel nor the
limit of levels is ever what ends it.
-/
namespace ExecutionLayer.Evm
open Exec Step Relation

/-- The code runs on from a machine, executes so many instructions, of which the last one may stop
it, and comes to a result. -/
inductive Executes (runner : Runner) (env : Environment) :
    Nat → Machine → EStateM.Result Stop Machine Unit → Prop
  | done {m : Machine} : ¬m.IsActive → Executes runner env 0 m (trace .codeEnd env m)
  | stopped {m m' : Machine} {e : Stop} : m.IsActive →
      stepInstruction runner env m = .error e m' → Executes runner env 1 m (.error e m')
  | next {n : Nat} {m m₁ : Machine} {r : EStateM.Result Stop Machine Unit} :
      StepsTo runner env m m₁ → Executes runner env n m₁ r → Executes runner env (n + 1) m r

section Runs
variable {runner : Runner} {env : Environment} {m m' : Machine}

theorem Executes.runCode_eq {n : Nat} {r : EStateM.Result Stop Machine Unit}
    (h : Executes runner env n m r) {fuel : Nat} (hf : n < fuel) :
    runCode runner fuel env m = r := by
  induction h generalizing fuel with
  | done hn =>
    obtain ⟨k, rfl⟩ := Nat.exists_eq_add_of_lt hf
    rw [runCode_of_not_active hn]
  | stopped ha hs =>
    obtain ⟨k, rfl⟩ := Nat.exists_eq_add_of_lt hf
    rw [runCode_of_active ha, bind_of_error hs]
  | @next n _ _ _ hs _ ih =>
    obtain ⟨k, rfl⟩ : ∃ k, fuel = k + 1 := ⟨fuel - 1, by omega⟩
    rw [runCode_of_active hs.active, bind_of_ok hs.step]
    exact ih (by omega)

theorem gasLeft_lt_of_running (h : stepInstruction runMessage env m = .ok () m')
    (hr : m'.frame.running = true) : m'.frame.gasLeft < m.frame.gasLeft := by
  have hs := stepInstruction_stepped (m := m) (containsBelow env _)
  rw [h] at hs
  rcases hs.2 with hlt | ⟨hn, -⟩
  · exact hlt
  · rw [hn] at hr
    cases hr

theorem exists_executes (env : Environment) (m : Machine) :
    ∃ n r, n ≤ m.frame.gasLeft + 1 ∧ Executes runMessage env n m r := by
  induction hg : m.frame.gasLeft using Nat.strong_induction_on generalizing m with
  | _ gas ih =>
    by_cases ha : m.IsActive
    · cases hs : stepInstruction runMessage env m with
      | error e m' => exact ⟨1, _, by omega, .stopped ha hs⟩
      | ok _ m₁ =>
        by_cases hr : m₁.frame.running = true
        · have hlt := gasLeft_lt_of_running hs hr
          obtain ⟨n, r, hn, hx⟩ := ih m₁.frame.gasLeft (by omega) m₁ rfl
          exact ⟨n + 1, r, by omega, .next ⟨ha, hs⟩ hx⟩
        · exact ⟨1, _, by omega, .next ⟨ha, hs⟩ (.done fun h => hr h.1)⟩
    · exact ⟨0, _, by omega, .done ha⟩

end Runs

theorem Reaches.depth_le {env : Environment} {K : Message → World → Prop} {m m' : Machine}
    (h : Reaches env K m m') (hd : m.frame.message.depth ≤ depthLimit) :
    m'.frame.message.depth ≤ depthLimit := by
  induction h with
  | refl => exact hd
  | next hs _ ih =>
    refine ih ?_
    rw [hs.message]
    exact hd
  | enter _ hf _ ho _ ih =>
    refine ih ?_
    rw [ho.frame]
    exact (asking_of_fetch hf).le_limit

/-- Messages are run alike by whatever runs them in snapshots as long as they are not too deep, so
that nothing depends on what is done with deeper ones. -/
theorem runMessage_unique {runner : Runner}
    (h : ∀ message, message.depth ≤ depthLimit → runner message = runInSnapshot runner message)
    {message : Message} (hd : message.depth ≤ depthLimit) : runner message = runMessage message := by
  induction hk : depthLimit - message.depth using Nat.strong_induction_on generalizing message with
  | _ k ih =>
    rw [h message hd, runMessage_eq hd]
    exact runInSnapshot_congr fun message' h' hd' => ih _ (by omega) hd' rfl

/-- An instruction after which its frame goes on leaves less gas than there was, and gives less than
there was to a frame that it asks for, which is not too deep. So the code of a message ends by
itself, after at most one instruction more than the message has gas, and a run from outside does not
depend on what is done with messages that are too deep: it comes to none. -/
theorem run_ends_by_gas (env : Environment) :
    (∀ m m', stepInstruction runMessage env m = .ok () m' → m'.frame.running = true →
      m'.frame.gasLeft < m.frame.gasLeft) ∧
    (∀ m pending m₁, fetch env m = .ok (some pending) m₁ →
      pending.message.gas < m.frame.gasLeft ∧ pending.message.depth ≤ 1024) ∧
    (∀ message w, ∃ n r, n ≤ message.gas + 1 ∧
      Executes runMessage env n ⟨.ofMessage message, w⟩ r ∧
      ∀ fuel, n < fuel → runCode runMessage fuel env ⟨.ofMessage message, w⟩ = r) ∧
    (∀ message w m₀ m, message.depth = 0 → Opens env message w m₀ →
      Reaches env (fun _ _ => True) m₀ m → m.frame.message.depth ≤ 1024) ∧
    ∀ runner : Runner, (∀ message, message.depth ≤ 1024 →
        runner message = runInSnapshot runner message) →
      ∀ message, message.depth = 0 → runner message = runMessage message := by
  refine ⟨fun m m' h hr => gasLeft_lt_of_running h hr, fun m pending m₁ h => ?_,
    fun message w => ?_, fun message w m₀ m hd ho hr => ?_, fun runner h message hd => ?_⟩
  · have hfetched := fetch_fetched env m
    rw [h] at hfetched
    exact ⟨by have := hfetched.2.1; omega, hfetched.2.2.le_limit⟩
  · obtain ⟨n, r, hn, hx⟩ := exists_executes env ⟨.ofMessage message, w⟩
    exact ⟨n, r, hn, hx, fun fuel hf => hx.runCode_eq hf⟩
  · refine hr.depth_le ?_
    rw [ho.frame]
    change message.depth ≤ depthLimit
    omega
  · exact runMessage_unique h (by omega)

/-- A message from outside whose code has one instruction, and a call in the middle of a frame. -/
theorem run_ends_by_gas_call :
    (∃ (message : Message) (w : World) (m₀ m : Machine),
      message.depth = 0 ∧ Opens default message w m₀ ∧
      stepInstruction runMessage default m₀ = .ok () m ∧ m.frame.running = true ∧
      m.frame.gasLeft < m₀.frame.gasLeft ∧ Reaches default (fun _ _ => True) m₀ m ∧
      m.frame.message.depth ≤ 1024) ∧
    ∃ (m m₁ : Machine) (pending : Pending), m.frame.message.depth = 1023 ∧
      fetch default m = .ok (some pending) m₁ ∧ pending.message.gas < m.frame.gasLeft ∧
      pending.message.depth ≤ 1024 := by
  obtain ⟨hlt, hchild, -, hreach, -⟩ := run_ends_by_gas default
  refine ⟨?_, ?_⟩
  · let message : Message :=
      { (default : Message) with code := ⟨#[0x5b]⟩, gas := 9, target := some 0 }
    let w : World := { state := {} }
    have hrun : okWith (fun _ w₀ => okWith (fun _ m => m.frame.running)
        (stepInstruction runMessage default ⟨.ofMessage message, w₀⟩))
        (openFrame message default w) = true := by decide +kernel
    obtain ⟨_, w₀, ho, hrun⟩ := of_okWith hrun
    obtain ⟨_, m, hs, hrun⟩ := of_okWith hrun
    have hopens : Opens default message w ⟨.ofMessage message, w₀⟩ := ⟨rfl, ho, rfl⟩
    have hr : Reaches default (fun _ _ => True) ⟨.ofMessage message, w₀⟩ m :=
      .next ⟨⟨rfl, Nat.zero_lt_one⟩, hs⟩ (.refl m)
    exact ⟨message, w, _, m, rfl, hopens, hs, hrun, hlt _ m hs hrun, hr,
      hreach message w _ m rfl hopens hr⟩
  · let m : Machine :=
      { frame := { (default : Frame) with
          code := ⟨#[0xf1]⟩, stack := #[0, 0, 0, 0, 0, 5, 60], gasLeft := 100000
          message := { (default : Message) with depth := 1023 } }
        world := { state := {} } }
    have hrun : okWith (fun pending? _ => pending?.isSome) (fetch default m) = true := by
      decide +kernel
    obtain ⟨pending?, m₁, hf, hrun⟩ := of_okWith hrun
    obtain ⟨pending, rfl⟩ := Option.isSome_iff_exists.mp hrun
    obtain ⟨hgas, hdepth⟩ := hchild m pending m₁ hf
    exact ⟨m, m₁, pending, rfl, hf, hgas, hdepth⟩

end ExecutionLayer.Evm
