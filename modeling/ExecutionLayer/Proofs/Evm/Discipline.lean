import ExecutionLayer.Proofs.Evm.Boundaries

/-! # Stack and memory of frames

The stack of a frame never holds more than it may, and its memory is made of whole words and does
not shrink. What an instruction reads is there as a whole, and what it writes replaces just the
range that it names.
-/
namespace ExecutionLayer.Evm
open Exec Step Relation

section Growth
variable {env : Environment} {m m' : Machine}

theorem Frame.Ordered.fetch_le_step (h : m.frame.Ordered env.fork) (runner : Runner) :
    (endOf (fetch env m)).frame.memory.size ≤
      (endOf (stepInstruction runner env m)).frame.memory.size := by
  unfold stepInstruction
  cases hf : fetch env m with
  | error e m₁ =>
    rw [bind_of_error hf]
    exact le_rfl
  | ok v m₁ =>
    rw [bind_of_ok hf]
    have hreserved := (fetch_agrees (.fault .brokenInvariant)).after h.words hf
    exact (attend_orderly hreserved runner).1.grows

theorem Frame.Ordered.le_of_steps (h : m.frame.Ordered env.fork)
    (hs : ReflTransGen (StepsTo runMessage env) m m') :
    m.frame.memory.size ≤ m'.frame.memory.size := by
  induction hs using ReflTransGen.head_induction_on with
  | refl => exact le_rfl
  | head hstep _ ih =>
    have hl := h.step_leaves hstep.active.2 runMessage
    rw [hstep.step] at hl
    exact hl.grows.trans (ih (h.of_step hstep))

end Growth

/-- Whenever a message is run, each frame that occurs has at most 1024 words on its stack, which are
below `2 ^ 256` by their type, and a memory of whole words. The memory never shrinks: not from one
instruction to the next, nor within an instruction, also where it stops or waits for another frame.
And each instruction does the same whatever the alarm that a wrong access would raise, so that no
access is wrong. -/
theorem stack_and_memory_in_order (env : Environment) (message : Message) (w : World) :
    (∀ frame, Occurs env message w frame → frame.stack.size ≤ 1024 ∧
      (∀ x ∈ frame.stack, x.toNat < 2 ^ 256) ∧ 32 ∣ frame.memory.size) ∧
    (∀ m m', Reached env message w m → ReflTransGen (StepsTo runMessage env) m m' →
      m.frame.memory.size ≤ m'.frame.memory.size) ∧
    ∀ m, Reached env message w m → m.IsActive →
      m.frame.memory.size ≤ (endOf (fetch env m)).frame.memory.size ∧
      (endOf (fetch env m)).frame.memory.size ≤
        (endOf (stepInstruction runMessage env m)).frame.memory.size ∧
      stepVia .direct runMessage env m = stepInstruction runMessage env m ∧
      ∀ alarm, stepVia (.checked alarm) runMessage env m = stepInstruction runMessage env m := by
  refine ⟨fun frame h => ⟨h.ordered.stack, fun x _ => x.isLt, h.ordered.words⟩,
    fun m m' h hs => h.ordered.le_of_steps hs, fun m h ha => ?_⟩
  have hordered := h.ordered
  exact ⟨(hordered.fetch_leaves ha.2).grows, hordered.fetch_le_step runMessage,
    congrFun (congrFun (stepVia_direct runMessage) env) m,
    fun alarm => (step_agrees alarm runMessage).same env m hordered.words⟩

/-- Writes two bytes and copies a word of the memory one place on, over itself. -/
def copying : Message :=
  { (default : Message) with
    code := ⟨#[0x60, 7, 0x60, 0, 0x53, 0x60, 9, 0x60, 1, 0x53, 0x60, 0x20, 0x60, 0, 0x60, 1, 0x5e]⟩
    gas := 100
    target := some 0x10
    currentTarget := 0x10 }

/-- The copy makes room for the place behind the word, and takes each byte as it was before. -/
theorem stack_and_memory_in_order_copying :
    let env := { (default : Environment) with fork := .cancun }
    ∃ m m', Reached env copying { state := default } m ∧ m.opcode? env = some .mcopy ∧
      StepsTo runMessage env m m' ∧ m.frame.memory.size = 32 ∧ m'.frame.memory.size = 64 ∧
      (List.range 4).map m'.frame.memory.get = [7, 7, 9, 0] ∧
      (∀ alarm, stepVia (.checked alarm) runMessage env m = .ok () m') ∧
      m.frame.stack.size ≤ 1024 ∧ m.frame.memory.size ≤ m'.frame.memory.size := by
  intro env
  have hrun : okWith (fun _ w => (advance env 9 ⟨.ofMessage copying, w⟩).any fun m =>
      decide ((m.frame.running = true ∧ m.frame.pc < m.frame.code.size) ∧
        m.opcode? env = some .mcopy ∧ m.frame.memory.size = 32) &&
      okWith (fun _ m' => decide (m'.frame.memory.size = 64 ∧
        (List.range 4).map m'.frame.memory.get = [7, 7, 9, 0]))
        (stepInstruction runMessage env m)) (openFrame copying env { state := default }) = true := by
    decide +kernel
  obtain ⟨_, w, hopen, hrun⟩ := of_okWith hrun
  obtain ⟨m, hadvance, hrun⟩ := (Option.any_eq_true _ _).mp hrun
  obtain ⟨hbefore, hrun⟩ := Bool.and_eq_true_iff.mp hrun
  obtain ⟨hactive, hopcode, hsize⟩ := of_decide_eq_true hbefore
  obtain ⟨_, m', hstep, hafter⟩ := of_okWith hrun
  obtain ⟨hsize', hbytes⟩ := of_decide_eq_true hafter
  have hreached : Reached env copying { state := default } m :=
    ⟨⟨.ofMessage copying, w⟩, ⟨rfl, hopen, rfl⟩, .of_advance hadvance⟩
  obtain ⟨hframes, hsteps, haccesses⟩ := stack_and_memory_in_order env copying { state := default }
  have hs : StepsTo runMessage env m m' := ⟨hactive, hstep⟩
  exact ⟨m, m', hreached, hopcode, hs, hsize, hsize', hbytes,
    fun alarm => ((haccesses m hreached hactive).2.2.2 alarm).trans hstep,
    (hframes _ (.running hreached)).1, hsteps m m' hreached (.single hs)⟩

end ExecutionLayer.Evm
