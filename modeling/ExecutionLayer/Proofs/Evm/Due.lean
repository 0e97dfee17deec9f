import ExecutionLayer.Proofs.Evm.Accounted

/-! # Refunds along a run

Between any two instructions the refund of a frame covers what has become due for cleared slots
since it began: a frame that is kept brings its refund along, and one that has failed leaves storage
as it was. The refund of a single frame may be negative, but not that of the outermost one.
-/
namespace ExecutionLayer.Evm
open Exec Step Relation

/-- What holds while a frame runs that began in the world `w`. -/
structure Covered (env : Environment) (w : World) (m : Machine) : Prop where
  opened : m.world.state.snapshots ≠ []
  gasLeft : m.frame.gasLeft ≤ m.frame.message.gas
  accounted : Accounted env.fork m.frame.refund w m.world
  refund : m.frame.refund ≤ refundStep * ((m.frame.message.gas - m.frame.gasLeft : Nat) +
    if m.frame.running then 0 else 1)

/-- The result of an instruction, or of a whole run, of a frame that began in the world `w`. What a
frame that is stopped leaves of the refund does not matter. -/
def Covers (env : Environment) (w : World) : EStateM.Result Stop Machine Unit → Prop
  | .ok _ m' => Covered env w m'
  | .error (.halt _) m' => ∀ a, w.state.created.contains a → m'.world.state.created.contains a
  | .error _ _ => True

structure Refunded (env : Environment) (message : Message) (w : World) (frame : Frame)
    (w' : World) : Prop where
  accounted : Accounted env.fork (if frame.error.isSome then 0 else frame.refund) w w'
  refund : frame.error = none →
    frame.refund ≤ refundStep * ((message.gas - frame.gasLeft : Nat) + 1)

def RefundsBelow (env : Environment) (depth : Nat) : Prop :=
  ∀ message w frame w', message.depth = depth + 1 → message.depth ≤ depthLimit →
    launch runMessage message env w = .ok frame w' → Refunded env message w frame w'

section Instructions
variable {env : Environment} {w : World} {m m' : Machine}

theorem Covered.fetched (h : Covered env w m) (hw : w.state.snapshots ≠ []) {p : Option Pending}
    (hf : fetch env m = .ok p m') : Accounted env.fork m'.frame.refund w m'.world ∧
      m'.frame.refund ≤ m.frame.refund + refundStep := by
  have ha := fetch_accrues h.opened hf
  have hp := fetch_persists.of_ok hf
  refine ⟨⟨fun a hl => hp.lives a (h.accounted.lives a hl), fun _ a hc => ?_, ?_⟩, ha.upper⟩
  · rw [hp.created]
    exact h.accounted.created hw a hc
  · have := h.accounted.due
    have := ha.lower
    omega

theorem refund_le_of_lt {refund refund' : Int} {gas gasLeft gasLeft' : Nat} {running : Bool}
    (h : refund ≤ refundStep * ((gas - gasLeft : Nat) + 0)) (hr : refund' ≤ refund + refundStep)
    (hle : gasLeft ≤ gas) (hg : gasLeft' < gasLeft ∨ running = false ∧ gasLeft' ≤ gasLeft) :
    refund' ≤ refundStep * ((gas - gasLeft' : Nat) + if running then 0 else 1) := by
  unfold refundStep at *
  rcases hg with hlt | ⟨hn, hle'⟩
  · split <;> omega
  · simp only [hn, Bool.false_eq_true, ↓reduceIte]
    omega

theorem Covered.traced (h : Covered env w m) (event : Trace.Event) :
    Covers env w (trace event env m) := by
  rcases trace_cases event env m with ⟨t, ht, -⟩ | ⟨f, ht⟩
  · rw [ht]
    exact ⟨h.opened, h.gasLeft, ⟨h.accounted.lives, h.accounted.created, h.accounted.due⟩, h.refund⟩
  · rw [ht]
    trivial

theorem attend_none_covers (h : Covered env w m) (hact : m.IsActive) (hw : w.state.snapshots ≠ [])
    {m₁ : Machine} (hf : fetch env m = .ok none m₁) :
    Covers env w (attend runMessage none env m₁) := by
  have hfetched := fetch_fetched env m
  rw [hf] at hfetched
  obtain ⟨hlocal, hgas⟩ := hfetched
  obtain ⟨haccounted, hrefund⟩ := h.fetched hw hf
  have hr := h.refund
  have hle := h.gasLeft
  rw [if_pos hact.1] at hr
  have hcovered : Covered env w m₁ := by
    refine ⟨?_, ?_, haccounted, ?_⟩
    · rw [hlocal.snapshots]
      exact h.opened
    · rw [hlocal.message]
      omega
    · rw [hlocal.message]
      exact refund_le_of_lt hr hrefund hle hgas
  exact hcovered.traced .opEnd

theorem resume_refund {pending : Pending} {child : Frame}
    (h : pending.resume child env m = .ok () m') : m'.frame.refund =
      m.frame.refund + if child.error.isSome then 0 else child.refund := by
  obtain ⟨m₁, hq, ⟨he, ha⟩ | ⟨he, ha⟩⟩ := of_resume_ok h
  · cases ha
    rw [hq.refund, if_pos he, add_zero]
  · cases ha
    rw [hq.refund, he]
    rfl

theorem resume_covers (h : Covered env w m) (hact : m.IsActive) (hw : w.state.snapshots ≠ [])
    {m₁ : Machine} {pending : Pending} (hf : fetch env m = .ok (some pending) m₁) {child : Frame}
    {w₁ : World} (hl : launch runMessage pending.message env m₁.world = .ok child w₁)
    (hc : Refunded env pending.message m₁.world child w₁) :
    Covers env w (attend runMessage (some pending) env m₁) := by
  have hret := launch_returned hl
  have hasking := asking_of_fetch hf
  have hgas := hasking.gas
  have hopened : m₁.world.state.snapshots ≠ [] := by
    rw [hasking.snapshots]
    exact h.opened
  have hacc := (h.fetched hw hf).1.trans hc.accounted fun _ => hopened
  have hk := (resume_still pending child).within env { m₁ with world := w₁ }
  rw [attend_of_ok hl]
  rcases hr : pending.resume child env { m₁ with world := w₁ } with ⟨_, m₂⟩ | ⟨h | f | f, m₂⟩
  · rw [hr] at hk
    rw [bind_of_ok hr]
    have hstate : m₂.world.state = w₁.state := hk.1.state
    have hrefund : m₂.frame.refund =
        m.frame.refund + if child.error.isSome then 0 else child.refund := by
      rw [resume_refund hr, ← (fetch_some_idle hf).refund]
    have hmessage : m₂.frame.message = m.frame.message := hk.1.message.trans hasking.message
    have hleft := hk.2
    have hle := h.gasLeft
    have hchildLeft := hret.gasLeft
    dsimp only at hleft
    refine Covered.traced ⟨?_, ?_, ⟨?_, ?_, ?_⟩, ?_⟩ .opEnd
    · rw [hstate, hret.snapshots]
      exact hopened
    · rw [hmessage]
      omega
    · rw [hstate]
      exact hacc.lives
    · rw [hstate]
      exact hacc.created
    · rw [hstate, hrefund, ← (fetch_some_idle hf).refund]
      exact hacc.due
    · -- The price of the call pays for the step that the refund of the child may exceed its gas.
      have hchild : (if child.error.isSome then 0 else child.refund) ≤
          refundStep * ((pending.message.gas - child.gasLeft : Nat) + 1) := by
        split
        · unfold refundStep
          omega
        · next he => exact hc.refund (by simpa using he)
      have hown := h.refund
      rw [if_pos hact.1] at hown
      rw [hmessage, hrefund]
      generalize (if child.error.isSome = true then 0 else child.refund) = refund at hchild ⊢
      unfold refundStep at *
      split <;> omega
  · rw [hr] at hk
    rw [bind_of_error hr]
    intro a ha
    rw [hk.1.state]
    exact hacc.created hw a ha
  all_goals
    rw [bind_of_error hr]
    trivial

theorem stepInstruction_covers (h : Covered env w m) (hact : m.IsActive)
    (hw : w.state.snapshots ≠ []) (hbelow : RefundsBelow env m.frame.message.depth) :
    Covers env w (stepInstruction runMessage env m) := by
  have hp := fetch_persists.ends env m
  unfold stepInstruction
  rcases hf : fetch env m with ⟨_ | pending, m₁⟩ | ⟨e | f | f, m₁⟩
  · rw [bind_of_ok hf]
    exact attend_none_covers h hact hw hf
  · have hasking := asking_of_fetch hf
    rw [bind_of_ok hf]
    rcases hl : launch runMessage pending.message env m₁.world with ⟨child, w₁⟩ | ⟨e, w₁⟩
    · exact resume_covers h hact hw hf hl (hbelow _ _ _ _ hasking.depth hasking.le_limit hl)
    · have hc := launch_contained env hasking.le_limit m₁.world
      rw [hl] at hc
      rw [attend_of_error hl]
      cases e with
      | halt e => exact absurd hc id
      | fault | imbalance => trivial
  · rw [hf] at hp
    rw [bind_of_error hf]
    intro a ha
    rw [show m₁.world.state.created = _ from hp.created]
    exact h.accounted.created hw a ha
  all_goals
    rw [bind_of_error hf]
    trivial

theorem StepsTo.covered (hs : StepsTo runMessage env m m') (h : Covered env w m)
    (hw : w.state.snapshots ≠ []) (hbelow : RefundsBelow env m.frame.message.depth) :
    Covered env w m' := by
  have hc := stepInstruction_covers h hs.active hw hbelow
  rw [hs.step] at hc
  exact hc

theorem runCode_covers (h : Covered env w m) (hw : w.state.snapshots ≠ [])
    (hbelow : RefundsBelow env m.frame.message.depth) (fuel : Nat) :
    Covers env w (runCode runMessage fuel env m) := by
  obtain ⟨m', hr, he⟩ := runCode_ends runMessage env fuel m
  have hcovered : Covered env w m' ∧ m'.frame.message = m.frame.message := by
    clear he
    induction hr with
    | refl => exact ⟨h, rfl⟩
    | tail _ hs ih =>
      obtain ⟨hc, hm⟩ := ih
      exact ⟨hs.covered hc hw (by rwa [hm]), hs.message.trans hm⟩
  obtain ⟨hc, hm⟩ := hcovered
  generalize runCode runMessage fuel env m = r at he
  cases he with
  | done => exact hc.traced .codeEnd
  | stopped ha hs =>
    have hstep := stepInstruction_covers hc ha hw (by rwa [hm])
    rwa [hs] at hstep
  | exhausted => trivial

end Instructions

section Frames
variable {frame : Frame} {w' : World} {env : Environment} {message : Message} {w w₁ : World}

theorem covered_ofMessage (env : Environment) (message : Message) (h : w.state.snapshots ≠ []) :
    Covered env w ⟨.ofMessage message, w⟩ := by
  refine ⟨h, le_rfl, .refl env.fork w, ?_⟩
  change (0 : Int) ≤ refundStep * ((message.gas - message.gas : Nat) + 0)
  unfold refundStep
  omega

theorem runBody_covers (h : w.state.snapshots ≠ []) (hbelow : RefundsBelow env message.depth) :
    Covers env w (runBody runMessage message env ⟨.ofMessage message, w⟩) := by
  have hstart := covered_ofMessage env message h
  cases hp : message.precompile? env with
  | none =>
    rw [runBody_of_none hp]
    exact runCode_covers hstart h hbelow _
  | some contract =>
    have hran := runBody_ran (w := w) (containsBelow env message.depth)
    have hq := runBody_quiet runMessage ⟨.ofMessage message, w⟩ hp
    rcases hr : runBody runMessage message env ⟨.ofMessage message, w⟩ with
      ⟨_, m⟩ | ⟨e | f | f, m⟩
    · rw [hr] at hq hran
      have hstate : m.world.state = w.state := hq.1.state
      have hrefund : m.frame.refund = 0 := hq.1.refund
      have hmessage : m.frame.message = message := hq.1.message
      refine ⟨?_, ?_, ⟨?_, ?_, ?_⟩, ?_⟩
      · rw [hstate]
        exact h
      · rw [hmessage]
        exact hran.2
      · rw [hstate]
        exact fun _ ha => ha
      · rw [hstate]
        exact fun _ _ ha => ha
      · rw [hstate, hrefund]
        omega
      · rw [hrefund]
        unfold refundStep
        split <;> omega
    · rw [hr] at hq
      intro a ha
      rw [hq.1.state]
      exact ha
    · trivial
    · trivial

theorem runFrame_covers (hw : w.state.snapshots ≠ []) (hbelow : RefundsBelow env message.depth)
    (h : runFrame runMessage message env w = .ok frame w') :
    (∀ a, w.state.created.contains a → w'.state.created.contains a) ∧
      (frame.error = none → Accounted env.fork frame.refund w w' ∧
        frame.refund ≤ refundStep * ((message.gas - frame.gasLeft : Nat) + 1)) := by
  have hc := runBody_covers hw hbelow
  have hran := runBody_ran (w := w) (containsBelow env message.depth)
  rcases runFrame_ok_cases h with hb | ⟨e, m, m', hb, rfl, rfl, hq⟩
  · rw [hb] at hc hran
    have hrefund := hc.refund
    have hmessage : frame.message = message := hran.1.message
    dsimp only at hrefund
    rw [hmessage] at hrefund
    refine ⟨hc.accounted.created hw, fun _ => ⟨hc.accounted, hrefund.trans ?_⟩⟩
    unfold refundStep
    split <;> omega
  · rw [hb] at hc
    refine ⟨fun a ha => ?_, fun hn => ?_⟩
    · rw [hq.state]
      exact hc a ha
    · rw [error_fail] at hn
      cases hn

theorem runInSnapshot_refunded (hbelow : RefundsBelow env message.depth)
    (h : runInSnapshot runMessage message env w = .ok frame w') :
    Refunded env message w frame w' := by
  obtain ⟨_, w₁, ho, h⟩ := of_bind_ok h
  have he := openMessage_entered ho
  obtain ⟨_, w₂, hf, h⟩ := of_bind_ok h
  obtain ⟨hcreated, hkept⟩ := runFrame_covers he.opened hbelow hf
  have hb : Begun w w₂ := by
    rcases runFrame_begun he.toBegun (containsBelow env message.depth) with
      ⟨frame', w', hf', -, hb⟩ | ⟨e, w', hf', -⟩
    · rw [hf] at hf'
      cases hf'
      exact hb
    · rw [hf] at hf'
      cases hf'
  obtain ⟨_, w₃, hclose, h⟩ := of_bind_ok h
  have hclose := of_step_ok hclose
  cases h
  cases hn : frame.error with
  | some e =>
    simp only [hn, Option.isSome_some, ↓reduceIte] at hclose
    refine ⟨?_, fun h => ?_⟩
    · rw [hn]
      exact .rollback (fun hs a ha => hcreated a (he.accounted.created hs a ha)) hb hclose
    · rw [hn] at h
      cases h
  | none =>
    simp only [hn, Option.isSome_none, Bool.false_eq_true, ↓reduceIte] at hclose
    obtain ⟨haccounted, hrefund⟩ := hkept hn
    have hall := he.accounted.trans haccounted fun _ => he.opened
    rw [zero_add] at hall
    refine ⟨?_, fun _ => hrefund⟩
    rw [hn]
    exact hall.commit hb hclose

theorem depositCode_refunded {w₂ w' : World} {frame frame' : Frame} (hb : Begun w w₂)
    (hc : Accounted env.fork frame.refund w w₂) (hn : frame.error = none)
    (hr : frame.refund ≤ refundStep * ((message.gas - frame.gasLeft : Nat) + 1))
    (h : depositCode message frame env w₂ = .ok frame' w') : Refunded env message w frame' w' := by
  obtain ⟨m, w₁, close, hq, hs, hdeposit, hclose⟩ := depositCode_ok_cases h
  have hstate : m.world.state = w₂.state := hq.state
  have hrefund : m.frame.refund = frame.refund := hq.refund
  have herror : m.frame.error = none := hq.error.trans hn
  have hb₁ : Begun w m.world := hb.of_local (m := ⟨frame, w₂⟩) hq.steady.toLocal
  have hacc : Accounted env.fork m.frame.refund w m.world := by
    refine ⟨?_, ?_, ?_⟩
    · rw [hstate]
      exact hc.lives
    · rw [hstate]
      exact hc.created
    · rw [hstate, hrefund]
      exact hc.due
  -- What is taken for the code makes the bound only greater.
  have hbound : m.frame.refund ≤ refundStep * ((message.gas - m.frame.gasLeft : Nat) + 1) := by
    have hgas : m.frame.gasLeft ≤ frame.gasLeft := hs
    rw [hrefund]
    refine hr.trans ?_
    unfold refundStep
    omega
  cases hdeposit with
  | made =>
    let w₄ := m.world.modifyState (·.setCode message.currentTarget m.frame.output)
    have hb₂ : Begun w w₄ := ⟨hb₁.snapshots, hb₁.transientSnapshots, hb₁.untraced⟩
    have hset : Accounted env.fork 0 m.world w₄ :=
      .of_lives (fun a ha => State.accountExists_setCode ha) rfl
    have hall := hacc.trans hset fun _ => hb₁.opened
    rw [add_zero] at hall
    refine ⟨?_, fun _ => hbound⟩
    rw [herror]
    exact hall.commit hb₂ hclose
  | omitted =>
    refine ⟨?_, fun _ => hbound⟩
    dsimp only
    rw [herror]
    exact hacc.commit hb₁ hclose
  | failed e =>
    refine ⟨?_, fun h => ?_⟩
    · rw [error_fail]
      exact .rollback hacc.created hb₁ hclose
    · rw [error_fail] at h
      cases h

theorem runCreate_refunded (hd : message.depth ≤ depthLimit)
    (hbelow : RefundsBelow env message.depth)
    (h : runCreate runMessage message env w = .ok frame w') : Refunded env message w frame w' := by
  obtain ⟨_, w₀, ho, h⟩ := of_bind_ok h
  obtain ⟨hb, hacc, -⟩ := openCreation_accounted ho
  obtain ⟨frame₁, w₂, hr, h⟩ := of_bind_ok h
  have hb₂ := hb.of_returned (runMessage_returned hr)
  rw [runMessage_eq hd] at hr
  have hc := runInSnapshot_refunded hbelow hr
  have hall := hacc.trans hc.accounted fun _ => hb.opened
  cases hn : frame₁.error with
  | some e =>
    simp only [hn, Option.isSome_some, ↓reduceIte] at h
    obtain ⟨_, w₃, hrollback, h⟩ := of_bind_ok h
    cases h
    refine ⟨?_, fun h => ?_⟩
    · rw [hn]
      exact .rollback hall.created hb₂ (of_step_ok hrollback)
    · rw [hn] at h
      cases h
  | none =>
    simp only [hn, Option.isSome_none, Bool.false_eq_true, ↓reduceIte] at h hall
    rw [zero_add] at hall
    exact depositCode_refunded hb₂ hall hn (hc.refund hn) h

theorem launch_refunded (hd : message.depth ≤ depthLimit)
    (h : launch runMessage message env w = .ok frame w') : Refunded env message w frame w' := by
  induction hk : depthLimit - message.depth using Nat.strong_induction_on
    generalizing message w frame w' with
  | _ k ih =>
    have hbelow : RefundsBelow env message.depth := fun message' w frame w' h' hd' hl =>
      ih (depthLimit - message'.depth) (by omega) hd' hl rfl
    cases ht : message.target with
    | none =>
      rw [launch_of_none ht] at h
      exact runCreate_refunded hd hbelow h
    | some a =>
      rw [launch_of_some ht, runMessage_eq hd] at h
      exact runInSnapshot_refunded hbelow h

theorem refundsBelow (env : Environment) (depth : Nat) : RefundsBelow env depth :=
  fun _ _ _ _ _ hd h => launch_refunded hd h

end Frames

end ExecutionLayer.Evm
