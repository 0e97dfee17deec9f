import ExecutionLayer.Proofs.Chain.Hashes
import ExecutionLayer.Proofs.Evm.Faults
import ExecutionLayer.Proofs.Transaction.Conservation

/-! # Messages from outside have results

A message from outside has a result, whatever code is run for it, unless an account is destroyed onto
itself that holds half of the range of words, an exponentiation names lengths that are too large, or
the hash of a block is asked for whose number is at the end of the range. Then there is an overflow.
-/
namespace ExecutionLayer.Evm
variable {env : Environment} {message : Message} {frame : Frame} {w : World}

/-- The message comes to a place from where there is no result. -/
def Message.Fails (env : Environment) (message : Message) (w : World) : Prop :=
  message.isTaken w.state = false ∧
    (message.Trips env w ∨ ∃ m m', Opens env message w m ∧ Reaches env (fun _ _ => True) m m' ∧
      DestroysOntoItself env m')

theorem finalRefund_ok (h : frame.error = none → 0 ≤ frame.refund ∧ frame.refund < Word.limit) :
    ∃ x, frame.finalRefund = .ok x := by
  unfold Frame.finalRefund
  split
  · exact ⟨_, rfl⟩
  · next he =>
    obtain ⟨hle, hlt⟩ := h (by simpa using he)
    rw [if_neg (by omega), Word.ofNat?, if_pos (by omega)]
    exact ⟨_, rfl⟩

theorem conclude_ok (hg : frame.gasLeft ≤ message.gas) (hu : w.tracer = none)
    (hr : frame.error = none → 0 ≤ frame.refund ∧ frame.refund < Word.limit) :
    ∃ outcome w', conclude message frame env w = .ok outcome w' := by
  obtain ⟨x, hx⟩ := finalRefund_ok hr
  obtain ⟨outcome, ho⟩ : ∃ outcome, Outcome.ofFrame frame = .ok outcome := by
    unfold Outcome.ofFrame
    rw [hx]
    exact ⟨_, rfl⟩
  unfold conclude
  rw [ho]
  dsimp only
  rw [if_neg (Nat.not_lt.mpr hg)]
  exact ⟨_, _, bind_of_ok (attempt_of_ok (trace_of_untraced hu _)) _⟩

theorem Refunded.refund_bounds {w' : World} (h : Refunded env message w frame w')
    (hs : w.state.snapshots = []) (hg : message.gas < Nat.pow 2 64) (he : frame.error = none) :
    0 ≤ frame.refund ∧ frame.refund < Word.limit := by
  have hdue := h.accounted.due
  have hle := h.refund he
  have hlimit : 40000 * (Nat.pow 2 64 + 1) < Word.limit := by decide
  rw [he, State.clearedRefunds_of_nil hs] at hdue
  unfold refundStep at hle
  simp only [Option.isSome_none, Bool.false_eq_true, ↓reduceIte] at hdue
  omega

theorem Request.Describes.fits {r : Request} (h : r.Describes w.state message)
    (hd : r.data.size < Word.limit) (hc : w.Coded) : message.Fits where
  code := by
    cases ht : message.target with
    | none => exact h.created ht ▸ hd
    | some target => exact (h.called target ht).2 ▸ hc target
  data := by
    rcases h.data with hdata | hdata <;> rw [hdata]
    · exact hd
    · exact Step.empty_size_lt

theorem runCall_ok (henv : env.Complete) (hd : message.depth ≤ depthLimit)
    (hruns : message.Runs w) (hsolvent : Solvent env message w) (hs : w.state.snapshots = [])
    (hfree : ¬message.Fails env w) : ∃ outcome w', runCall message env w = .ok outcome w' := by
  cases ht : message.isTaken w.state with
  | true => exact ⟨_, _, runCall_of_taken ht⟩
  | false =>
    rw [runCall_of_free ht]
    have hc := launch_completes henv hd hruns
    rcases hl : launch runMessage message env w with ⟨frame, w₁⟩ | ⟨e | f | f, w₁⟩
    · rw [hl] at hc
      have hret := launch_returned hl
      have hu : w₁.tracer = none := hret.untraced hruns.untraced
      have hget : (get : WorldOp World) env w₁ = .ok w₁ w₁ := rfl
      rw [bind_of_ok hl, bind_of_ok hget]
      refine conclude_ok ?_ hu fun he => ?_
      · rw [Frame.gasLeft_touchTarget]
        exact hret.gasLeft
      · rw [Frame.error_touchTarget] at he
        rw [Frame.refund_touchTarget]
        exact (launch_refunded hd hl).refund_bounds hs hruns.gas he
    · rw [hl] at hc
      exact absurd hc id
    · rw [hl] at hc
      exact absurd ⟨ht, Or.inl hc⟩ hfree
    · have hdestroys := (launch_imbalance_iff hd hsolvent).mp ⟨f, w₁, hl⟩
      exact absurd ⟨ht, Or.inr hdestroys⟩ hfree

theorem Message.Fails.runCall (h : message.Fails env w) (hd : message.depth ≤ depthLimit)
    (hg : message.gas < Word.limit) (hsolvent : Solvent env message w) :
    ∃ e w', runCall message env w = .error e w' ∧
      (e = .fault .overflow ∨ e = .imbalance .overflow) := by
  obtain ⟨ht, hreason⟩ := h
  rw [runCall_of_free ht]
  have hdestroys (h : ∃ m m', Opens env message w m ∧ Reaches env (fun _ _ => True) m m' ∧
      DestroysOntoItself env m') :
      ∃ w', launch runMessage message env w = .error (.imbalance .overflow) w' := by
    obtain ⟨m, m', ho, hr, hdest⟩ := h
    exact launch_of_destruction hd hsolvent.untraced ho hr hdest
  rcases hreason with htrips | h
  · obtain ⟨e, w', hl, rfl | ⟨f, rfl⟩⟩ := htrips.launch hd hsolvent.untraced hg
    · exact ⟨_, w', bind_of_error hl _, Or.inl rfl⟩
    · -- The values of messages can be moved, so that an account was destroyed before.
      obtain ⟨w', hl⟩ := hdestroys ((launch_imbalance_iff hd hsolvent).mp ⟨f, w', hl⟩)
      exact ⟨_, w', bind_of_error hl _, Or.inr rfl⟩
  · obtain ⟨w', hl⟩ := hdestroys h
    exact ⟨_, w', bind_of_error hl _, Or.inr rfl⟩

/-- A request for `3 ^ 2` modulo five, which names the length of the base. -/
def exponentiation (baseLength : Word) : Request where
  caller := 0x11
  target := some (Precompile.address .modexp)
  gas := 100000
  value := 0
  data := fixedBytes baseLength ++ fixedBytes (1 : Word) ++ fixedBytes (1 : Word) ++ .ofList [3, 2, 5]

def firstChain : Chain := ⟨[⟨default, [], [], []⟩], {}, 1⟩

def secondBlock (fork : Fork) : Environment :=
  { (default : Environment) with fork := fork, number := 1, blockHashes := firstChain.recentHashes }

theorem firstChain_isBelow (fork : Fork) : firstChain.IsBelow (secondBlock fork) :=
  ⟨⟨_, rfl, rfl⟩, by rw [secondBlock]⟩

theorem secondBlock_fits (fork : Fork) : (secondBlock fork).Fits where
  number := show 1 < Word.limit by decide
  gasLimit := show 0 < Word.limit by decide
  gasPrice := show 0 < Word.limit by decide
  difficulty := show 0 < Word.limit by decide
  chainId := show 0 < Word.limit by decide
  baseFeePerGas := show 0 < Word.limit by decide
  blobPrice := by
    change Gas.blobPrice 0 < Word.limit
    rw [Gas.blobPrice, Numeric.expTaylor, if_neg (by decide), Numeric.expTaylor.loop,
      dif_pos (by decide), Numeric.expTaylor.loop, dif_neg (by decide)]
    decide

end ExecutionLayer.Evm
