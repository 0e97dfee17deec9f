import ExecutionLayer.Proofs.Transaction.Returns

/-! # Refunds of open frames

The frames that are open form a stack: the one that runs, and above it those that wait. Since
Istanbul their refunds together cover the refund for every slot that was not empty before the
transaction and is empty now.
-/
namespace ExecutionLayer

/-- The slot of an account that was not created in this transaction was not empty before it and is
empty now. -/
structure State.WasCleared (s : State) (a : Address) (key : Word) : Prop where
  old : ¬s.created.contains a
  start : ∃ value, s.startStorage a key = .ok value ∧ value ≠ 0
  now : s.getStorage a key = 0

noncomputable def State.clearedCount (s : State) : Nat :=
  Set.ncard {slot : Address × Word | s.WasCleared slot.1 slot.2}

theorem State.wasCleared_iff {s : State} (hs : s.snapshots ≠ []) (a : Address) (key : Word) :
    s.WasCleared a key ↔ s.startValue a key ≠ 0 ∧ s.getStorage a key = 0 := by
  have hstart : s.startStorage a key = .ok (s.startValue a key) := by
    cases h : s.startStorage a key with
    | ok value => rw [startStorage_eq h]
    | error f =>
      unfold startStorage at h
      rw [List.getLast?_eq_some_getLast hs] at h
      split at h <;> cases h
  constructor
  · rintro ⟨-, ⟨value, hv, hne⟩, hnow⟩
    rw [hstart] at hv
    cases hv
    exact ⟨hne, hnow⟩
  · rintro ⟨hne, hnow⟩
    refine ⟨fun hc => hne ?_, ⟨_, hstart, hne⟩, hnow⟩
    rw [startValue, if_pos hc]

theorem State.clearedRefunds_eq {fork : Fork} {s : State} (hf : Fork.istanbul ≤ fork)
    (hs : s.snapshots ≠ []) :
    s.clearedRefunds fork = Evm.Gas.storageClearRefund fork * s.clearedCount := by
  have hset : {slot : Address × Word | s.WasCleared slot.1 slot.2} =
      ((Finset.univ.filter fun slot : Address × Word =>
        s.startValue slot.1 slot.2 ≠ 0 ∧ s.getStorage slot.1 slot.2 = 0 :
          Finset (Address × Word)) : Set (Address × Word)) := by
    ext slot
    simp [State.wasCleared_iff hs]
  unfold clearedRefunds clearedCount clearedRefund
  rw [if_neg (show ¬fork < Fork.istanbul from Nat.not_lt_of_le hf), hset, Set.ncard_coe_finset,
    Finset.card_filter, Finset.mul_sum]
  refine Finset.sum_congr (Eq.refl Finset.univ) fun slot _ => ?_
  rw [mul_ite, mul_one, mul_zero]

namespace Evm
open Exec Step
variable {env : Environment} {message : Message} {w : World} {m₀ m : Machine}

/-- Execution has come from the first machine of a message to the given one, above which the given
frames wait, the latest one first. -/
inductive Stacked (env : Environment) (m₀ : Machine) : List Frame → Machine → Prop
  | first : Stacked env m₀ [] m₀
  | next {frames : List Frame} {m m' : Machine} : Stacked env m₀ frames m →
      StepsTo runMessage env m m' → Stacked env m₀ frames m'
  | enter {frames : List Frame} {m m₁ m₂ : Machine} {pending : Pending} :
      Stacked env m₀ frames m → m.IsActive → fetch env m = .ok (some pending) m₁ →
      Opens env pending.message m₁.world m₂ → Stacked env m₀ (m₁.frame :: frames) m₂

theorem openFrame_accounted {w₁ : World} (h : openFrame message env w = .ok () w₁) :
    w₁.state.snapshots ≠ [] ∧ Accounted env.fork 0 w w₁ := by
  obtain ⟨w₀, ⟨-, hc⟩ | ⟨-, rfl⟩, ho⟩ := of_openFrame_ok h
  · obtain ⟨hb, hacc, -⟩ := openCreation_accounted hc
    have he := openMessage_entered ho
    exact ⟨he.opened, hacc.trans he.accounted fun _ => hb.opened⟩
  · have he := openMessage_entered ho
    exact ⟨he.opened, he.accounted⟩

/-- The frame that runs covers what has become due since it began, and the frames above cover what
was due then. -/
theorem Stacked.covered (ho : Opens env message w m₀) (hs : w.state.snapshots = [])
    {frames : List Frame} (h : Stacked env m₀ frames m) :
    ∃ w₀ : World, w₀.state.snapshots ≠ [] ∧ Covered env w₀ m ∧
      (w₀.state.clearedRefunds env.fork : Int) ≤ (frames.map Frame.refund).sum := by
  induction h with
  | first =>
    obtain ⟨hopen, hacc⟩ := openFrame_accounted ho.opened
    have hdue := hacc.due
    rw [State.clearedRefunds_of_nil hs] at hdue
    refine ⟨m₀.world, hopen, ?_, by simpa using hdue⟩
    have hm : m₀ = ⟨.ofMessage message, m₀.world⟩ := by rw [← ho.frame]
    rw [hm]
    exact covered_ofMessage env message hopen
  | next _ hstep ih =>
    obtain ⟨w₀, hopen, hc, hdue⟩ := ih
    exact ⟨w₀, hopen, hstep.covered hc hopen (refundsBelow env _), hdue⟩
  | @enter frames m m₁ m₂ pending _ _ hf hopens ih =>
    obtain ⟨w₀, hopen, hc, hdue⟩ := ih
    obtain ⟨hopen₂, hacc₂⟩ := openFrame_accounted hopens.opened
    have hm : m₂ = ⟨.ofMessage pending.message, m₂.world⟩ := by rw [← hopens.frame]
    refine ⟨m₂.world, hopen₂, ?_, ?_⟩
    · rw [hm]
      exact covered_ofMessage env pending.message hopen₂
    · have hdue₁ := (hc.fetched hopen hf).1.due
      have hdue₂ := hacc₂.due
      rw [List.map_cons, List.sum_cons]
      omega

theorem launch_refund_bounds {frame : Frame} {w' : World} (hd : message.depth ≤ depthLimit)
    (hs : w.state.snapshots = []) (h : launch runMessage message env w = .ok frame w')
    (he : frame.error = none) : 0 ≤ frame.refund ∧ frame.refund ≤ 40000 * (message.gas + 1) := by
  have hr := launch_refunded hd h
  have hdue := hr.accounted.due
  have hle := hr.refund he
  rw [he, State.clearedRefunds_of_nil hs] at hdue
  unfold refundStep at hle
  simp only [Option.isSome_none, Bool.false_eq_true, ↓reduceIte] at hdue
  omega

/-- Whatever a message from outside runs, the refund of its frame is not negative if the frame is
kept, so that it is counted as a word if the gas is below `2 ^ 240`. Between any two instructions the
refunds of all open frames together are at least the refund for a cleared slot as often as there are
such slots. -/
theorem refunds_cover_cleared (env : Environment) (message : Message) (w : World)
    (hf : Fork.istanbul ≤ env.fork) (hd : message.depth ≤ depthLimit)
    (hs : w.state.snapshots = []) :
    (∀ frame w', launch runMessage message env w = .ok frame w' → frame.error = none →
      0 ≤ frame.refund ∧ (message.gas < 2 ^ 240 → ∃ refund,
        (frame.touchTarget w'.state message.target).finalRefund = .ok refund ∧
          (refund.toNat : Int) = frame.refund)) ∧
    ∀ m₀ frames m, Opens env message w m₀ → Stacked env m₀ frames m →
      ((Gas.storageClearRefund env.fork * m.world.state.clearedCount : Nat) : Int) ≤
        m.frame.refund + (frames.map Frame.refund).sum := by
  refine ⟨fun frame w' hl he => ?_, fun m₀ frames m ho hm => ?_⟩
  · obtain ⟨hle, hlt⟩ := launch_refund_bounds hd hs hl he
    refine ⟨hle, fun hg => ?_⟩
    have hlimit : 40000 * (2 ^ 240 + 1) < Word.limit := by decide
    have hword : frame.refund.toNat < Word.limit := by omega
    refine ⟨.ofNat 256 frame.refund.toNat, ?_, ?_⟩
    · unfold Frame.finalRefund
      rw [Frame.error_touchTarget, Frame.refund_touchTarget, he, if_neg (by simp),
        if_neg (by omega), Word.ofNat?, if_pos hword]
    · rw [BitVec.toNat_ofNat, Nat.mod_eq_of_lt (show frame.refund.toNat < 2 ^ 256 from hword)]
      omega
  · obtain ⟨w₀, hopen, hc, hdue⟩ := hm.covered ho hs
    have hown := hc.accounted.due
    rw [State.clearedRefunds_eq hf hc.opened] at hown
    omega

theorem Stacked.advance {frames : List Frame} {n : Nat} {m' : Machine}
    (h : Stacked env m₀ frames m) (ha : advance env n m = some m') : Stacked env m₀ frames m' := by
  induction n generalizing m with
  | zero =>
    cases ha
    exact h
  | succ n ih =>
    unfold Evm.advance at ha
    split at ha
    · next hact =>
      split at ha
      · next m₁ hstep => exact ih (h.next ⟨hact, hstep⟩) ha
      · cases ha
    · cases ha

/-- Clears the first slot and lets the code at `0x20` act on it. -/
def clearing : Message :=
  { (default : Message) with
    code := ⟨#[0x60, 0, 0x60, 1, 0x55, 0x60, 0, 0x60, 0, 0x60, 0, 0x60, 0, 0x60, 0x20, 0x61, 0xc3,
      0x50, 0xf4]⟩
    gas := 200000
    target := some 0x10
    currentTarget := 0x10 }

/-- A state in which the slot is not empty. The code at `0x20` fills it again. -/
def filled : World where
  state := {
    accounts := (∅ : Accounts).insert 0x20 ⟨0, 0, ⟨#[0x60, 7, 0x60, 1, 0x55]⟩⟩
    storage := Storage.set ∅ 0x10 1 7 }

/-- The inner frame takes back more than it brings, so that its refund is negative. That of the outer
frame makes up for it, and is not negative in the end. -/
theorem refunds_cover_cleared_refilled :
    let env := { (default : Environment) with fork := .istanbul }
    (∃ frame w', launch runMessage clearing env filled = .ok frame w' ∧ frame.error = none ∧
      0 ≤ frame.refund) ∧
    ∃ m₀ frames m, Opens env clearing filled m₀ ∧ Stacked env m₀ frames m ∧ m.frame.refund < 0 ∧
      ((Gas.storageClearRefund env.fork * m.world.state.clearedCount : Nat) : Int) ≤
        m.frame.refund + (frames.map Frame.refund).sum := by
  intro env
  obtain ⟨hend, hstack⟩ := refunds_cover_cleared env clearing filled (by decide) (by decide) rfl
  refine ⟨?_, ?_⟩
  · have hrun : okWith (fun frame _ => frame.error.isNone) (launch runMessage clearing env filled) =
        true := by decide +kernel
    obtain ⟨frame, w', hl, hrun⟩ := of_okWith hrun
    have he : frame.error = none := by simpa using hrun
    exact ⟨frame, w', hl, he, (hend frame w' hl he).1⟩
  · have hrun : okWith (fun _ w₀ => (advance env 9 ⟨.ofMessage clearing, w₀⟩).any fun m =>
        okWith (fun pending? m₁ => pending?.any fun pending =>
          okWith (fun _ w₁ => (advance env 3 ⟨.ofMessage pending.message, w₁⟩).any fun m' =>
            m.frame.running && decide (m.frame.pc < m.frame.code.size) &&
              (pending.message.precompile? env).isNone && decide (m'.frame.refund < 0))
            (openFrame pending.message env m₁.world)) (fetch env m))
        (openFrame clearing env filled) = true := by decide +kernel
    obtain ⟨_, w₀, ho, hrun⟩ := of_okWith hrun
    have hopens : Opens env clearing filled ⟨.ofMessage clearing, w₀⟩ := ⟨by decide +kernel, ho, rfl⟩
    obtain ⟨m, ha, hrun⟩ := (Option.any_eq_true _ _).mp hrun
    obtain ⟨pending?, m₁, hf, hrun⟩ := of_okWith hrun
    obtain ⟨pending, rfl, hrun⟩ := (Option.any_eq_true _ _).mp hrun
    obtain ⟨_, w₁, ho₁, hrun⟩ := of_okWith hrun
    obtain ⟨m', ha', hrun⟩ := (Option.any_eq_true _ _).mp hrun
    simp only [Bool.and_eq_true, decide_eq_true_eq, Option.isNone_iff_eq_none] at hrun
    obtain ⟨⟨hactive, hcode⟩, hneg⟩ := hrun
    have hin : Opens env pending.message m₁.world ⟨.ofMessage pending.message, w₁⟩ :=
      ⟨hcode, ho₁, rfl⟩
    have hs := ((Stacked.first.advance ha).enter hactive hf hin).advance ha'
    exact ⟨_, _, m', hopens, hs, hneg, hstack _ _ m' hopens hs⟩

end Evm

end ExecutionLayer
