import ExecutionLayer.Proofs.Evm.Contracts
import ExecutionLayer.Proofs.Evm.Due
import ExecutionLayer.Proofs.Evm.Termination

/-! # Where faults come from

A message whose sizes are words runs without a fault, unless execution comes to one of two
instructions: one that asks for the hash of a block too far back, and one that calls an
exponentiation with lengths that are too large. Both are overflows that no frame takes in.
-/
namespace ExecutionLayer.Evm
open Exec Step Relation

/-! ## Faults -/

structure Message.Overflows (env : Environment) (message : Message) : Prop where
  contract : message.precompile? env = some .modexp
  lengths : ModExp.Overflows env.fork message.gas message.data

/-- The next instruction has a fault of its own, or asks for a frame that has one. -/
inductive Trips (env : Environment) (m : Machine) : Prop
  | farBack : AsksFarBack env m → Trips env m
  | power {pending : Pending} {m₁ : Machine} : m.IsActive → fetch env m = .ok (some pending) m₁ →
      pending.message.Overflows env → Trips env m

def ComesToTrip (env : Environment) (m : Machine) : Prop :=
  ∃ m', Reaches env (fun _ _ => True) m m' ∧ Trips env m'

/-- A message that has a fault, or whose code comes to one. -/
inductive Message.Trips (env : Environment) (message : Message) (w : World) : Prop
  | contract : message.Overflows env → message.Trips env w
  | code {m : Machine} : Opens env message w m → ComesToTrip env m → message.Trips env w

/-! ## Messages and their frames -/

def World.Coded (w : World) : Prop := ∀ a, (w.state.account a).code.size < Word.limit

structure Message.Runs (message : Message) (w : World) : Prop extends message.Fits where
  gas : message.gas < Nat.pow 2 64
  coded : w.Coded
  untraced : w.tracer = none

structure Completed (frame : Frame) (w' : World) : Prop where
  output : frame.output.size < Word.limit
  coded : w'.Coded

/-- The result of running a message. A fault has the reason `T`. -/
def Completes (T : Prop) : EStateM.Result Stop World Frame → Prop
  | .ok frame w' => Completed frame w'
  | .error (.halt _) _ => False
  | .error (.fault _) _ => T
  | .error (.imbalance _) _ => True

theorem Completes.imp {T T' : Prop} {r : EStateM.Result Stop World Frame} (hr : Completes T r)
    (h : T → T') : Completes T' r := by
  rcases r with ⟨_, _⟩ | ⟨e | f | f, _⟩
  · exact hr
  · exact hr
  · exact h hr
  · trivial

def CompletesBelow (env : Environment) (depth : Nat) : Prop :=
  ∀ message w, message.depth = depth + 1 → message.depth ≤ depthLimit → message.Runs w →
    Completes (message.Trips env w) (launch runMessage message env w)

/-- The result of an instruction, or of a whole run. A fault has the reason `T`. -/
def Goes (T : Prop) : EStateM.Result Stop Machine Unit → Prop
  | .ok _ m' => Fit m'
  | .error (.halt _) m' => m'.frame.output.size < Word.limit
  | .error (.fault _) _ => T
  | .error (.imbalance _) _ => True

theorem Goes.imp {T T' : Prop} {r : EStateM.Result Stop Machine Unit} (hr : Goes T r)
    (h : T → T') : Goes T' r := by
  rcases r with ⟨_, m'⟩ | ⟨e | f | f, m'⟩
  · exact hr
  · exact hr
  · exact h hr
  · trivial

/-! ## Instructions -/

section Instructions
variable {env : Environment} {m m' : Machine}

theorem Fit.untraced (h : Fit m) : m.world.tracer = none := by
  obtain ⟨_, hm⟩ := h
  exact hm.untraced

theorem attend_none_goes {T : Prop} (h : Fit m) : Goes T (attend runMessage none env m) := by
  rw [attend, trace_of_untraced h.untraced]
  exact h

theorem resume_goes {T : Prop} {pending : Pending} (hd : pending.message.depth ≤ depthLimit)
    {n : Nat} (hsized : Sized n pending.message.gas m)
    (hrange : pending.outputSize = 0 ∨ pending.outputStart + pending.outputSize ≤ n)
    {child : Frame} {w : World} (hl : launch runMessage pending.message env m.world = .ok child w)
    (hc : Completed child w) : Goes T (attend runMessage (some pending) env m) := by
  have hret := launch_returned hl
  have hsized' : Sized n pending.message.gas { m with world := w } :=
    { hsized with
      codes := hc.coded
      target := (launch_refunded hd hl).accounted.lives _ hsized.target
      snapshots := by
        dsimp only
        rw [hret.snapshots]
        exact hsized.snapshots
      untraced := hret.untraced hsized.untraced }
  have hs : Sound (fun _ => Fit) (pending.resume child env { m with world := w }) :=
    (resume_safe hret.gasLeft hc.output hrange).sound _ hsized'
  rw [attend_of_ok hl]
  rcases hr : pending.resume child env { m with world := w } with ⟨_, m₂⟩ | ⟨h | f | f, m₂⟩
  · rw [hr] at hs
    rw [bind_of_ok hr, trace_of_untraced (Fit.untraced hs)]
    exact hs
  · rw [hr] at hs
    rw [bind_of_error hr]
    exact hs
  · rw [hr] at hs
    exact absurd hs id
  · rw [bind_of_error hr]
    trivial

theorem comesToTrip_of_enter (hact : m.IsActive) {m₁ : Machine} {pending : Pending}
    (hf : fetch env m = .ok (some pending) m₁) (ht : pending.message.Trips env m₁.world) :
    ComesToTrip env m := by
  cases ht with
  | contract ho => exact ⟨m, .refl m, .power hact hf ho⟩
  | code hopens hcomes =>
    obtain ⟨m', hr, ht⟩ := hcomes
    exact ⟨m', .enter hact hf trivial hopens hr, ht⟩

theorem attend_some_goes (hact : m.IsActive) (hbelow : CompletesBelow env m.frame.message.depth)
    {m₁ : Machine} {pending : Pending} (hf : fetch env m = .ok (some pending) m₁)
    (hreq : Requested (some pending) m₁) :
    Goes (ComesToTrip env m) (attend runMessage (some pending) env m₁) := by
  obtain ⟨hfits, n, hsized, hrange⟩ := hreq
  have hasking := asking_of_fetch hf
  have hgas : pending.message.gas < Nat.pow 2 64 := by
    have := hsized.paid
    have := hsized.gas
    omega
  have hc := hbelow pending.message m₁.world hasking.depth hasking.le_limit
    ⟨hfits, hgas, hsized.codes, hsized.untraced⟩
  rcases hl : launch runMessage pending.message env m₁.world with ⟨child, w₁⟩ | ⟨e | f | f, w₁⟩
  · rw [hl] at hc
    exact resume_goes hasking.le_limit hsized hrange hl hc
  · rw [hl] at hc
    exact absurd hc id
  · rw [hl] at hc
    rw [attend_of_error hl]
    exact comesToTrip_of_enter hact hf hc
  · rw [attend_of_error hl]
    trivial

theorem stepInstruction_goes (henv : env.Complete) (h : Fit m) (hact : m.IsActive)
    (hbelow : CompletesBelow env m.frame.message.depth) :
    Goes (ComesToTrip env m) (stepInstruction runMessage env m) := by
  obtain ⟨n, hsized⟩ := h
  unfold stepInstruction
  rcases fetch_cases henv hact hsized with hs | hasks
  · rcases hf : fetch env m with ⟨_ | pending, m₁⟩ | ⟨e | f | f, m₁⟩
    · rw [hf] at hs
      rw [bind_of_ok hf]
      exact attend_none_goes hs
    · rw [hf] at hs
      rw [bind_of_ok hf]
      exact attend_some_goes hact hbelow hf hs
    · rw [hf] at hs
      rw [bind_of_error hf]
      exact hs
    · rw [hf] at hs
      exact absurd hs id
    · rw [bind_of_error hf]
      trivial
  · have hlt := hsized.gasLeft_lt
    have hlimit : Nat.pow 2 64 < Word.limit := by decide
    obtain ⟨m₁, hf⟩ := fetch_of_farBack hsized.untraced (by omega) hasks
    rw [bind_of_error hf]
    exact ⟨m, .refl m, .farBack hasks⟩

theorem executes_goes (henv : env.Complete) {n : Nat} {r : EStateM.Result Stop Machine Unit}
    (hx : Executes runMessage env n m r) (h : Fit m)
    (hbelow : CompletesBelow env m.frame.message.depth) : Goes (ComesToTrip env m) r := by
  induction hx with
  | done =>
    rw [trace_of_untraced h.untraced]
    exact h
  | stopped ha hs =>
    have hg := stepInstruction_goes henv h ha hbelow
    rwa [hs] at hg
  | @next _ m m₁ r hs _ ih =>
    have hg := stepInstruction_goes henv h hs.active hbelow
    rw [hs.step] at hg
    refine (ih hg (by rwa [hs.message])).imp fun ⟨m', hr, ht⟩ => ?_
    exact ⟨m', .next hs hr, ht⟩

end Instructions

/-! ## Frames -/

section Frames
variable {env : Environment} {message : Message} {w w₁ : World}

theorem Entered.fit (h : Entered env message w w₁) (hruns : message.Runs w) :
    Fit ⟨.ofMessage message, w₁⟩ := by
  have hsized : Sized 0 0 ⟨.ofMessage message, w₁⟩ := {
    memory := rfl
    dvd := Nat.dvd_zero 32
    paid := by
      change Gas.memoryCost 0 + message.gas + 0 ≤ message.gas
      have : Gas.memoryCost 0 = 0 := rfl
      omega
    gas := hruns.gas
    code := hruns.code
    data := hruns.data
    returnData := empty_size_lt
    output := empty_size_lt
    codes := fun a => by
      rw [h.code]
      exact hruns.coded a
    target := h.target
    snapshots := h.opened
    untraced := h.untraced hruns.untraced }
  exact hsized.fit

/-- A message that has been opened has a fault, or its code comes to one. -/
inductive Message.TripsIn (env : Environment) (message : Message) (w : World) : Prop
  | contract : message.Overflows env → message.TripsIn env w
  | code : message.precompile? env = none → ComesToTrip env ⟨.ofMessage message, w⟩ →
      message.TripsIn env w

theorem runContract_goes {contract : Precompile} (hp : message.precompile? env = some contract)
    (h : Fit ⟨.ofMessage message, w₁⟩) :
    Goes (message.Overflows env) (contract.run env ⟨.ofMessage message, w₁⟩) := by
  obtain ⟨n, hsized⟩ := h
  by_cases ho : message.Overflows env
  · have hg : message.gas < Word.limit := hsized.gas.trans (by decide)
    have hc : contract = .modexp := Option.some.inj (hp.symm.trans ho.contract)
    obtain ⟨m, hr⟩ : ∃ m, contract.run env ⟨.ofMessage message, w₁⟩ =
        .error (.fault .overflow) m := by
      rw [hc]
      exact Precompile.run_modexp_error hsized.untraced hg ho.lengths
    rw [hr]
    exact ho
  · have hs := contract.run_sound hsized fun hc hl => ho ⟨hc ▸ hp, hl⟩
    rcases hr : contract.run env ⟨.ofMessage message, w₁⟩ with ⟨_, m⟩ | ⟨e | f | f, m⟩
    · rw [hr] at hs
      exact hs
    · rw [hr] at hs
      exact hs
    · rw [hr] at hs
      exact absurd hs id
    · trivial

theorem runBody_goes (henv : env.Complete) (h : Fit ⟨.ofMessage message, w₁⟩)
    (hbelow : CompletesBelow env message.depth) :
    Goes (message.TripsIn env w₁) (runBody runMessage message env ⟨.ofMessage message, w₁⟩) := by
  have hu : w₁.tracer = none := h.untraced
  cases hp : message.precompile? env with
  | some contract =>
    have hg := runContract_goes hp h
    rw [runBody_of_some hp, bind_of_ok (trace_of_untraced hu _)]
    rcases hr : contract.run env ⟨.ofMessage message, w₁⟩ with ⟨_, m⟩ | ⟨e, m⟩
    · rw [hr] at hg
      rw [bind_of_ok hr, trace_of_untraced (Fit.untraced hg)]
      exact hg
    · rw [hr] at hg
      rw [bind_of_error hr]
      exact hg.imp .contract
  | none =>
    obtain ⟨n, r, hn, hx⟩ := exists_executes env ⟨.ofMessage message, w₁⟩
    have hfuel : n < fuelFor message.gas := by
      have : n ≤ message.gas + 1 := hn
      unfold fuelFor
      omega
    rw [runBody_of_none hp, hx.runCode_eq hfuel]
    exact (executes_goes henv hx h hbelow).imp (.code hp)

structure Finished (frame : Frame) (w' : World) : Prop where
  output : frame.output.size < Word.limit
  coded : frame.error = none → w'.Coded

def Finishes (T : Prop) : EStateM.Result Stop World Frame → Prop
  | .ok frame w' => Finished frame w'
  | .error (.halt _) _ => False
  | .error (.fault _) _ => T
  | .error (.imbalance _) _ => True

theorem output_fail (fork : Fork) {f : Frame} (h : Halt) (ho : f.output.size < Word.limit) :
    (f.fail fork h).output.size < Word.limit := by
  have hempty : (if Fork.byzantium ≤ fork then ByteArray.empty else f.output).size < Word.limit := by
    split
    · exact empty_size_lt
    · exact ho
  cases h <;> first | exact ho | exact hempty

theorem runFrame_finishes (henv : env.Complete) (h : Fit ⟨.ofMessage message, w₁⟩)
    (hbelow : CompletesBelow env message.depth) :
    Finishes (message.TripsIn env w₁) (runFrame runMessage message env w₁) := by
  have hg := runBody_goes henv h hbelow
  have hran := runBody_ran (w := w₁) (containsBelow env message.depth)
  rcases hb : runBody runMessage message env ⟨.ofMessage message, w₁⟩ with ⟨_, m⟩ | ⟨e | f | f, m⟩
  · rw [hb] at hg
    obtain ⟨n, hsized⟩ := hg
    rw [runFrame_of_ok hb]
    exact ⟨hsized.output, fun _ => hsized.codes⟩
  · rw [hb] at hg hran
    have hu : m.world.tracer = none := hran.1.untraced h.untraced
    have hrun : runFrame runMessage message env w₁ = .ok (m.frame.fail env.fork e) m.world := by
      unfold runFrame
      rw [bind_of_ok (attempt_of_halt hb)]
      exact (bind_of_ok (attempt_of_ok (trace_of_untraced hu _)) _).trans rfl
    rw [hrun]
    refine ⟨output_fail env.fork e hg, fun hn => ?_⟩
    rw [error_fail] at hn
    cases hn
  · rw [hb] at hg
    rw [runFrame_of_stop (fun _ => by simp) hb]
    exact hg
  · rw [runFrame_of_stop (fun _ => by simp) hb]
    trivial

theorem World.Coded.of_accounts {w w' : World} (h : w.Coded)
    (ha : w'.state.accounts = w.state.accounts) : w'.Coded := by
  intro a
  have hc := (State.SameCode.of_accounts ha).code a
  rw [hc]
  exact h a

theorem Finished.closed {w₂ : World} {frame : Frame} (hf : Finished frame w₂) (hc : w.Coded)
    (hb : Begun w w₂) : ∃ w₃, (if frame.error.isSome then w₂.rollback else w₂.commit) = .ok w₃ ∧
      Completed frame w₃ := by
  cases hn : frame.error with
  | some e => exact ⟨_, hb.rollback, hf.output, hc.of_accounts rfl⟩
  | none => exact ⟨_, hb.commit, hf.output, (hf.coded hn).of_accounts rfl⟩

theorem runInSnapshot_completes (henv : env.Complete) (hruns : message.Runs w)
    (hbelow : CompletesBelow env message.depth) :
    Completes (∃ w₁, openMessage message env w = .ok () w₁ ∧ message.TripsIn env w₁)
      (runInSnapshot runMessage message env w) := by
  unfold runInSnapshot
  rcases openMessage_cases env message w with ⟨w₁, ho, hw₁⟩ | ⟨f, w₁, ho⟩
  · have hfinish := runFrame_finishes henv ((openMessage_entered ho).fit hruns) hbelow
    rw [bind_of_ok ho]
    rcases runFrame_begun hw₁ (containsBelow env message.depth) with
      ⟨frame, w₂, hf, -, hw₂⟩ | ⟨e, w₂, hf, hstop⟩
    · rw [hf] at hfinish
      obtain ⟨w₃, hclose, hc⟩ := hfinish.closed hruns.coded hw₂
      rw [bind_of_ok hf, bind_of_ok (step_of_ok hclose)]
      exact hc
    · rw [hf] at hfinish
      rw [bind_of_error hf]
      rcases e with e | f | f
      · exact absurd rfl (hstop e)
      · exact ⟨w₁, ho, hfinish⟩
      · trivial
  · rw [bind_of_error ho]
    trivial

end Frames

/-! ## Creations -/

section Creations
variable {env : Environment} {message : Message} {w w₁ w₂ : World} {frame : Frame}

theorem payDeposit_cases (env : Environment) {m : Machine} (hu : m.world.tracer = none)
    (hlt : m.frame.gasLeft < Word.limit) : ∃ gas ≤ m.frame.gasLeft,
      payDeposit env m = .ok () { m with frame := { m.frame with gasLeft := gas } } ∨
      ∃ h, payDeposit env m = .error (.halt h) { m with frame := { m.frame with gasLeft := gas } } := by
  unfold payDeposit
  rw [bind_of_ok fork_ok, bind_of_ok frame_ok]
  dsimp only
  split
  · exact ⟨m.frame.gasLeft, le_rfl, Or.inr ⟨_, rfl⟩⟩
  · have hc : chargeGas (m.frame.output.size * Gas.codeDepositByte) env m = _ :=
      chargeGas_eq hu hlt _
    rcases Nat.lt_or_ge m.frame.gasLeft (m.frame.output.size * Gas.codeDepositByte) with hl | hge
    · rw [if_pos hl] at hc
      exact ⟨m.frame.gasLeft, le_rfl, Or.inr ⟨_, bind_of_error hc _⟩⟩
    · rw [if_neg (Nat.not_lt.mpr hge)] at hc
      refine ⟨m.frame.gasLeft - m.frame.output.size * Gas.codeDepositByte, Nat.sub_le _ _, ?_⟩
      rw [bind_of_ok hc]
      split
      · exact Or.inr ⟨_, rfl⟩
      · exact Or.inl rfl

theorem World.Coded.setCode (h : w.Coded) {a : Address} {code : Bytes}
    (hc : code.size < Word.limit) : (w.modifyState (·.setCode a code)).Coded := by
  intro b
  change (((w.state.setCode a code).account b).code).size < Word.limit
  rw [State.setCode, State.account_modifyAccount]
  split
  · exact hc
  · exact h b

theorem depositCode_completes (hruns : message.Runs w) (hb : Begun w w₂) (hcoded : w₂.Coded)
    (ho : frame.output.size < Word.limit) (hg : frame.gasLeft ≤ message.gas) :
    Completes False (depositCode message frame env w₂) := by
  have hu : w₂.tracer = none := hb.untraced hruns.untraced
  have hlt : frame.gasLeft < Word.limit := (hg.trans_lt hruns.gas).trans (by decide)
  obtain ⟨gas, hle, hp | ⟨e, hp⟩⟩ := payDeposit_cases env (m := ⟨frame, w₂⟩) hu hlt
  · let w₃ := w₂.modifyState (·.setCode message.currentTarget frame.output)
    have hb₃ : Begun w w₃ := ⟨hb.snapshots, hb.transientSnapshots, hb.untraced⟩
    have hrun : depositCode message frame env w₂ =
        (WorldOp.step (·.commit) >>= fun _ => pure { frame with gasLeft := gas }) env w₃ := by
      unfold depositCode
      rw [bind_of_ok (attempt_of_ok hp)]
      rfl
    rw [hrun, bind_of_ok (step_of_ok hb₃.commit)]
    exact ⟨ho, World.Coded.of_accounts (hcoded.setCode ho) rfl⟩
  · unfold depositCode
    rw [bind_of_ok (attempt_of_halt hp)]
    dsimp only
    rw [bind_of_ok WorldOp.fork_ok]
    split
    · rw [bind_of_ok (step_of_ok hb.commit)]
      exact ⟨empty_size_lt, hcoded.of_accounts rfl⟩
    · rw [bind_of_ok (step_of_ok hb.rollback)]
      exact ⟨output_fail _ _ ho, hruns.coded.of_accounts rfl⟩

theorem runCreate_completes (henv : env.Complete) (hd : message.depth ≤ depthLimit)
    (hruns : message.Runs w) (hbelow : CompletesBelow env message.depth) :
    Completes (∃ w₀ w₁, openCreation message env w = .ok () w₀ ∧
        openMessage message env w₀ = .ok () w₁ ∧ message.TripsIn env w₁)
      (runCreate runMessage message env w) := by
  obtain ⟨w₀, ho, -⟩ := openCreation_begun env message w
  obtain ⟨hb, -, hcode⟩ := openCreation_accounted ho
  have hruns₀ : message.Runs w₀ := { hruns with
    coded := fun a => by
      rw [hcode]
      exact hruns.coded a
    untraced := hb.untraced hruns.untraced }
  have hc := runInSnapshot_completes henv hruns₀ hbelow
  rw [← runMessage_eq hd] at hc
  unfold runCreate
  rw [bind_of_ok ho]
  rcases hr : runMessage message env w₀ with ⟨frame, w₂⟩ | ⟨e | f | f, w₂⟩
  · rw [hr] at hc
    have hret := runMessage_returned hr
    have hb₂ := hb.of_returned hret
    rw [bind_of_ok hr]
    split
    · rw [bind_of_ok (step_of_ok hb₂.rollback)]
      exact ⟨hc.output, hruns.coded.of_accounts rfl⟩
    · have hdone : Completes False (depositCode message frame env w₂) :=
        depositCode_completes hruns hb₂ hc.coded hc.output hret.gasLeft
      exact hdone.imp fun h => absurd h id
  · rw [hr] at hc
    exact absurd hc id
  · rw [hr] at hc
    rw [bind_of_error hr]
    obtain ⟨w₁, h₁, ht⟩ := hc
    exact ⟨w₀, w₁, ho, h₁, ht⟩
  · rw [bind_of_error hr]
    trivial

/-! ## Messages -/

theorem Message.TripsIn.trips (ho : openFrame message env w = .ok () w₁)
    (h : message.TripsIn env w₁) : message.Trips env w := by
  cases h with
  | contract h => exact .contract h
  | code hp hc => exact .code ⟨hp, ho, rfl⟩ hc

/-- A message whose sizes are words completes, unless it has a fault or comes to one. -/
theorem launch_completes (henv : env.Complete) (hd : message.depth ≤ depthLimit)
    (hruns : message.Runs w) :
    Completes (message.Trips env w) (launch runMessage message env w) := by
  induction hk : depthLimit - message.depth using Nat.strong_induction_on
    generalizing message w with
  | _ k ih =>
    have hbelow : CompletesBelow env message.depth := fun message' w' h' hd' hruns' =>
      ih (depthLimit - message'.depth) (by omega) hd' hruns' rfl
    cases ht : message.target with
    | none =>
      rw [launch_of_none ht]
      refine (runCreate_completes henv hd hruns hbelow).imp fun ⟨w₀, w₁, ho, h₁, htrips⟩ => ?_
      refine htrips.trips ?_
      unfold openFrame
      rw [ht]
      exact (bind_of_ok ho _).trans h₁
    | some a =>
      rw [launch_of_some ht, runMessage_eq hd]
      refine (runInSnapshot_completes henv hruns hbelow).imp fun ⟨w₁, ho, htrips⟩ => ?_
      refine htrips.trips ?_
      unfold openFrame
      rw [ht]
      exact ho

end Creations

/-! ## Faults that are come to -/

section Escape
variable {env : Environment} {message : Message} {w w₁ : World} {m : Machine}

theorem openFrame_cases (env : Environment) (message : Message) {w : World} (hu : w.tracer = none) :
    (∃ w₁, openFrame message env w = .ok () w₁ ∧ w₁.tracer = none) ∨
      ∃ f w₁, openFrame message env w = .error (.imbalance f) w₁ := by
  have hmessage {w : World} (hu : w.tracer = none) :
      (∃ w₁, openMessage message env w = .ok () w₁ ∧ w₁.tracer = none) ∨
        ∃ f w₁, openMessage message env w = .error (.imbalance f) w₁ :=
    (openMessage_cases env message w).imp_left fun ⟨w₁, ho, hb⟩ => ⟨w₁, ho, hb.untraced hu⟩
  unfold openFrame
  cases message.target with
  | some _ => exact hmessage hu
  | none =>
    obtain ⟨w₀, ho, hb⟩ := openCreation_begun env message w
    dsimp only
    rw [bind_of_ok ho]
    exact hmessage (hb.untraced hu)

/-- What a frame ends with that comes to a fault, if its value can be moved at all. -/
def Stop.IsFatal (e : Stop) : Prop := e = .fault .overflow ∨ ∃ f, e = .imbalance f

theorem Stop.IsFatal.ne {e : Stop} (he : e.IsFatal) (h : Halt) : e ≠ .halt h := by
  rcases he with rfl | ⟨f, rfl⟩ <;> simp

theorem Message.Overflows.launch (h : message.Overflows env) (hd : message.depth ≤ depthLimit)
    (hu : w.tracer = none) (hg : message.gas < Word.limit) :
    ∃ e w', launch runMessage message env w = .error e w' ∧ e.IsFatal := by
  rw [launch_eq hd]
  rcases openFrame_cases env message hu with ⟨w₁, ho, hu₁⟩ | ⟨f, w₁, ho⟩
  · obtain ⟨m, hrun⟩ := Precompile.run_modexp_error (m := ⟨.ofMessage message, w₁⟩) hu₁ hg h.lengths
    have hbody : runBody runMessage message env ⟨.ofMessage message, w₁⟩ =
        .error (.fault .overflow) m := by
      rw [runBody_of_some h.contract, bind_of_ok (trace_of_untraced hu₁ _), bind_of_error hrun]
    rw [bind_of_ok ho, bind_of_error (runFrame_of_stop (fun _ => by simp) hbody)]
    exact ⟨_, _, rfl, Or.inl rfl⟩
  · rw [bind_of_error ho]
    exact ⟨_, _, rfl, Or.inr ⟨f, rfl⟩⟩

theorem Trips.raises (h : Trips env m) (hu : m.world.tracer = none)
    (hg : m.frame.gasLeft < Word.limit) : ∃ e, Raises env e m ∧ e.IsFatal := by
  cases h with
  | farBack h =>
    obtain ⟨m', hf⟩ := fetch_of_farBack hu hg h
    exact ⟨_, .of_step h.choose_spec.1.active (bind_of_error hf _), Or.inl rfl⟩
  | power ha hf ho =>
    have hasking := asking_of_fetch hf
    have hlt := hasking.gas
    obtain ⟨e, w', hl, he⟩ := ho.launch hasking.le_limit (hasking.untraced hu) (by omega)
    exact ⟨e, .of_step ha (stepInstruction_of_launch hf hl), he⟩

theorem Message.Trips.launch (h : message.Trips env w) (hd : message.depth ≤ depthLimit)
    (hu : w.tracer = none) (hg : message.gas < Word.limit) :
    ∃ e w', launch runMessage message env w = .error e w' ∧ e.IsFatal := by
  cases h with
  | contract h => exact h.launch hd hu hg
  | code ho hc =>
    obtain ⟨m', hr, ht⟩ := hc
    have hgas := hr.gasLeft_le
    rw [ho.frame] at hgas
    obtain ⟨e, hraise, he⟩ := ht.raises (hr.untraced (ho.untraced hu)) (hgas.trans_lt hg)
    obtain ⟨w', hl⟩ := (hr.raises he.ne hraise).launch he.ne ho hd
    exact ⟨e, w', hl, he⟩

end Escape

end ExecutionLayer.Evm
