import ExecutionLayer.Proofs.Evm.Containment

/-! # The answer of a contract

A frame that runs a precompiled contract ends with the contract's answer, and if the contract has a
fault, so has the frame. A trace does not get in the way: the contract's own line is there for the gas
to be noted.
-/
namespace ExecutionLayer.Evm

namespace Trace.Tracer

def AtStep (t : Tracer) : Prop := ∃ s, t.last? = some (.step s)

theorem atStep_push (t : Tracer) (s : Step) : (t.push (.step s)).AtStep :=
  ⟨s, Array.back?_push⟩

theorem AtStep.amend_ok {t : Tracer} (h : t.AtStep) (f : Step → Step) :
    ∃ t', t.amend f = .ok t' ∧ t'.AtStep := by
  obtain ⟨s, hs⟩ := h
  refine ⟨{ t with lines := t.lines.pop.push (.step (f s)) }, ?_, f s, Array.back?_push⟩
  rw [amend, hs]

theorem AtStep.record_gas {t : Tracer} (h : t.AtStep) (v : View) (cost : Nat) :
    ∃ t', t.record v (.gas cost) = .ok t' ∧ t'.AtStep := by
  rw [record]
  split
  · exact ⟨t, rfl, h⟩
  · exact h.amend_ok _

end Trace.Tracer

def World.AtStep (w : World) : Prop := ∀ t, w.tracer = some t → t.AtStep

namespace Exec

theorem trace_ok (event : Trace.Event) (env : Environment) {m : Machine}
    (h : ∀ t, m.world.tracer = some t →
      ∃ t', t.record m.frame.view event = .ok t' ∧ t'.AtStep) :
    ∃ w, trace event env m = .ok () ⟨m.frame, w⟩ ∧ w.AtStep := by
  unfold trace
  cases ht : m.world.tracer with
  | none => exact ⟨m.world, rfl, fun t htrace => by rw [ht] at htrace; cases htrace⟩
  | some t =>
    obtain ⟨t', hrecord, hstep⟩ := h t ht
    refine ⟨{ m.world with tracer := some t' }, ?_, fun t'' htrace => ?_⟩
    · simp only [hrecord]
    · cases htrace
      exact hstep

theorem chargeGas_ok (env : Environment) {m : Machine} (h : m.world.AtStep) {amount : Nat}
    (hle : amount ≤ m.frame.gasLeft) (hlt : amount < Word.limit) :
    ∃ w, chargeGas amount env m =
      .ok () ⟨{ m.frame with gasLeft := m.frame.gasLeft - amount }, w⟩ ∧ w.AtStep := by
  obtain ⟨w, hw, hstep⟩ := trace_ok (.gas amount) env fun t ht => (h t ht).record_gas _ _
  refine ⟨w, ?_, hstep⟩
  unfold chargeGas
  rw [bind_of_ok hw, bind_of_ok frame_ok, if_neg (Nat.not_lt.mpr hle), if_neg (Nat.not_le.mpr hlt)]
  rfl

end Exec

section Frames
variable {env : Environment} {message : Message} {contract : Precompile}

theorem trace_precompileStart (env : Environment) (message : Message) (w : World) :
    ∃ w', Exec.trace .precompileStart env ⟨.ofMessage message, w⟩ =
      .ok () ⟨.ofMessage message, w'⟩ ∧ w'.AtStep :=
  Exec.trace_ok .precompileStart env fun t _ => ⟨_, rfl, t.atStep_push _⟩

theorem runFrame_of_answer {output : Bytes} {gas : Nat}
    (hcontract : message.precompile? env = some contract)
    (hanswer : ∀ w : World, w.AtStep → ∃ w' : World, w'.AtStep ∧
      contract.answer message.data env ⟨.ofMessage message, w⟩ =
        .ok output ⟨{ Frame.ofMessage message with gasLeft := gas }, w'⟩)
    (runner : Runner) (w : World) :
    ∃ w', runFrame runner message env w =
      .ok { Frame.ofMessage message with gasLeft := gas, output := output } w' := by
  obtain ⟨w₁, hstart, hstep₁⟩ := trace_precompileStart env message w
  obtain ⟨w₂, hstep₂, hrun⟩ := hanswer w₁ hstep₁
  obtain ⟨w₃, hend, -⟩ := Exec.trace_ok .precompileEnd env
    (m := ⟨{ Frame.ofMessage message with gasLeft := gas, output := output }, w₂⟩)
    fun t ht => (hstep₂ t ht).amend_ok _
  have hmessage : Exec.message env ⟨.ofMessage message, w₁⟩ = .ok message ⟨.ofMessage message, w₁⟩ :=
    rfl
  have hcontract' : contract.run env ⟨.ofMessage message, w₁⟩ =
      .ok () ⟨{ Frame.ofMessage message with gasLeft := gas, output := output }, w₂⟩ := by
    unfold Precompile.run
    rw [bind_of_ok hmessage, bind_of_ok hrun]
    rfl
  have hbody : runBody runner message env ⟨.ofMessage message, w⟩ =
      .ok () ⟨{ Frame.ofMessage message with gasLeft := gas, output := output }, w₃⟩ := by
    rw [runBody_of_some hcontract, bind_of_ok hstart, bind_of_ok hcontract', hend]
  have hattempt : WorldOp.attempt (.ofMessage message) (runBody runner message) env w =
      .ok ({ Frame.ofMessage message with gasLeft := gas, output := output }, none) w₃ := by
    unfold WorldOp.attempt
    rw [hbody]
  refine ⟨w₃, ?_⟩
  unfold runFrame
  rw [bind_of_ok hattempt]
  rfl

theorem runFrame_of_fault {f : Fault} (hcontract : message.precompile? env = some contract)
    (hanswer : ∀ w : World, w.AtStep → ∃ m,
      contract.answer message.data env ⟨.ofMessage message, w⟩ = .error (.fault f) m)
    (runner : Runner) (w : World) :
    ∃ w', runFrame runner message env w = .error (.fault f) w' := by
  obtain ⟨w₁, hstart, hstep₁⟩ := trace_precompileStart env message w
  obtain ⟨m, hrun⟩ := hanswer w₁ hstep₁
  have hmessage : Exec.message env ⟨.ofMessage message, w₁⟩ = .ok message ⟨.ofMessage message, w₁⟩ :=
    rfl
  have hcontract' : contract.run env ⟨.ofMessage message, w₁⟩ = .error (.fault f) m := by
    unfold Precompile.run
    rw [bind_of_ok hmessage, bind_of_error hrun]
  have hbody : runBody runner message env ⟨.ofMessage message, w⟩ = .error (.fault f) m := by
    rw [runBody_of_some hcontract, bind_of_ok hstart, bind_of_error hcontract']
  exact ⟨m.world, runFrame_of_stop (by simp) hbody⟩

end Frames

end ExecutionLayer.Evm
