import ExecutionLayer.Proofs.Evm.Changes

/-! # Refunds of single instructions

A store takes back no more of the refund than was due for its slot, so what is due for all slots
bounds the refund of a frame from below. From above it is bounded since no instruction brings more
than a fixed amount.
-/
set_option synthInstance.maxSize 100000
namespace ExecutionLayer.Evm
open Exec Step
variable {m m' : Machine} {env : Environment} {p : Option Pending}

/-- Every account is still there with its code, and no more are created. -/
abbrev Persists (m m' : Machine) : Prop := State.Remains m.world.state m'.world.state

instance : IsPreorder Machine Persists where
  refl m := refl m.world.state
  trans _ _ _ h h' := IsTrans.trans (r := State.Remains) _ _ _ h h'

structure Inert (m m' : Machine) : Prop extends Persists m m' where
  storage : m'.world.state.storage = m.world.state.storage
  snapshots : m'.world.state.snapshots = m.world.state.snapshots
  refund : m'.frame.refund = m.frame.refund

instance : IsPreorder Machine Inert where
  refl m := ⟨refl m.world.state, rfl, rfl, rfl⟩
  trans _ _ _ h h' := ⟨IsTrans.trans _ _ _ h.toRemains h'.toRemains, h'.storage.trans h.storage,
    h'.snapshots.trans h.snapshots, h'.refund.trans h.refund⟩

theorem Inert.of_state (hs : m'.world.state = m.world.state)
    (hr : m'.frame.refund = m.frame.refund) : Inert m m' :=
  ⟨⟨.of_accounts (congrArg _ hs), congrArg _ hs⟩, congrArg _ hs, congrArg _ hs, hr⟩

structure Unmarked (m m' : Machine) : Prop where
  accountsToDelete : m'.frame.accountsToDelete = m.frame.accountsToDelete
  message : m'.frame.message = m.frame.message

instance : IsPreorder Machine Unmarked where
  refl _ := ⟨rfl, rfl⟩
  trans _ _ _ h h' := ⟨h'.accountsToDelete.trans h.accountsToDelete, h'.message.trans h.message⟩

/-- Nothing has changed of what the frame may be refunded or delete. -/
structure Idle (m m' : Machine) : Prop extends Inert m m', Unmarked m m'

instance : IsPreorder Machine Idle where
  refl m := ⟨refl m, refl m⟩
  trans _ _ _ h h' :=
    ⟨IsTrans.trans _ _ _ h.toInert h'.toInert, IsTrans.trans _ _ _ h.toUnmarked h'.toUnmarked⟩

instance : Tolerates Idle where
  quiet h := ⟨.of_state h.state h.refund, h.accountsToDelete, h.message⟩
  logs _ _ := ⟨.of_state rfl rfl, rfl, rfl⟩
  transient _ _ := ⟨.of_state rfl rfl, rfl, rfl⟩
  nonce _ _ := ⟨⟨⟨State.sameCode_incrementNonce, rfl⟩, rfl, rfl, rfl⟩, rfl, rfl⟩

theorem Keeps.idle {cost : Int} {α : Type} {op : Exec α} (h : Keeps Quiet cost op) :
    Sustains Idle op := Tolerates.of_quiet h

/-- More than a single instruction brings. -/
def refundStep : Nat := 40000

/-- The refund has grown at least by what has become due, and by no more than an instruction
brings. -/
structure Accrues (fork : Fork) (m m' : Machine) : Prop where
  lower : m.frame.refund + m'.world.state.clearedRefunds fork ≤
    m'.frame.refund + m.world.state.clearedRefunds fork
  upper : m'.frame.refund ≤ m.frame.refund + refundStep

theorem Inert.accrues {fork : Fork} (h : Inert m m') : Accrues fork m m' := by
  have hstart : m'.world.state.startingStorage = m.world.state.startingStorage := by
    unfold State.startingStorage
    rw [h.snapshots, h.storage]
  have hdue : m'.world.state.clearedRefunds fork ≤ m.world.state.clearedRefunds fork := by
    refine State.clearedRefunds_of_same h.storage hstart fun a ha => ?_
    rw [h.created]
    exact ha
  have hr := h.refund
  exact ⟨by omega, by unfold refundStep; omega⟩

section Stores
variable {key new : Word} {change : Change}

/-- The refund of a change is at least by how much the refund that is due for the slot changes. -/
structure Step.Change.Covers (change : Change) (before after : Nat) : Prop where
  lower : (after : Int) ≤ change.refund + before
  upper : change.refund ≤ refundStep

theorem Gas.storageClearRefund_le (fork : Fork) : Gas.storageClearRefund fork ≤ 15000 := by
  unfold Gas.storageClearRefund
  split <;> decide

theorem netChange_covers (fork : Fork) (read : Nat) {update : Nat} (hu : update ≤ Gas.storageUpdate)
    (start current new : Word) :
    (netChange (Gas.storageClearRefund fork) read update start current new).Covers
      (State.clearedRefund fork start current) (State.clearedRefund fork start new) := by
  have hc := Gas.storageClearRefund_le fork
  have hback : (if start = 0 then Gas.storageSet - read else update - read) ≤ 20000 := by
    have hset : Gas.storageSet = 20000 := rfl
    have hupdate : Gas.storageUpdate = 5000 := rfl
    split <;> omega
  unfold netChange State.clearedRefund
  refine ⟨?_, ?_⟩ <;> dsimp only <;>
    generalize (if start = 0 then Gas.storageSet - read else update - read) = back at hback ⊢
  · grind
  · unfold refundStep
    split
    · omega
    · split <;> split <;> split <;> omega

theorem grossChange_covers (current new : Word) : (grossChange current new).Covers 0 0 := by
  unfold grossChange
  refine ⟨?_, ?_⟩ <;> dsimp only <;> split <;> decide

theorem priceChange_covers (h : priceChange key new env m = .ok change m') :
    change.Covers
      (if env.fork < Fork.istanbul then 0
        else State.clearedRefund env.fork
          (m.world.state.startValue m.frame.message.currentTarget key)
          (m.world.state.getStorage m.frame.message.currentTarget key))
      (if env.fork < Fork.istanbul then 0
        else State.clearedRefund env.fork
          (m.world.state.startValue m.frame.message.currentTarget key) new) := by
  obtain ⟨_, _, hfork, h⟩ := of_bind_ok h
  cases hfork
  obtain ⟨_, _, hmessage, h⟩ := of_bind_ok h
  cases hmessage
  obtain ⟨_, _, hstate, h⟩ := of_bind_ok h
  cases hstate
  split at h
  · next hlt =>
    cases h
    simp only [hlt, ↓reduceIte]
    exact grossChange_covers _ _
  · next hlt =>
    simp only [hlt, ↓reduceIte]
    obtain ⟨_, _, hget, h⟩ := of_bind_ok h
    cases hget
    dsimp only at h
    by_cases hgas : m.frame.gasLeft ≤ Gas.callStipend
    · rw [if_pos hgas] at h
      obtain ⟨_, _, hh, _⟩ := of_bind_ok h
      cases hh
    · rw [if_neg hgas] at h
      obtain ⟨_, _, hstate, h⟩ := of_bind_ok h
      cases hstate
      obtain ⟨start, m₁, hstart, h⟩ := of_bind_ok h
      obtain ⟨hs, -⟩ : m.world.state.startStorage m.frame.message.currentTarget key = .ok start ∧
          m₁ = m := by
        cases hx : m.world.state.startStorage m.frame.message.currentTarget key with
        | ok x =>
          rw [hx] at hstart
          cases hstart
          exact ⟨rfl, rfl⟩
        | error f =>
          rw [hx] at hstart
          cases hstart
      rw [State.startStorage_eq hs]
      split at h
      · cases h
        exact netChange_covers _ _ le_rfl _ _ _
      · obtain ⟨warm, _, _, h⟩ := of_bind_ok h
        cases h
        have hn := netChange_covers env.fork Gas.warmAccess
          (Nat.sub_le Gas.storageUpdate Gas.coldSlot) start
          (m.world.state.getStorage m.frame.message.currentTarget key) new
        exact ⟨hn.lower, hn.upper⟩

theorem setStorage_sustains {R : Machine → Machine → Prop} [IsPreorder Machine R]
    (hset : ∀ (m : Machine) (storage : Storage),
      R m { m with world := { m.world with state := { m.world.state with storage } } })
    (target : Address) (key new : Word) :
    Sustains R (onWorld (.onState .fault (State.step (·.setStorage target key new)))) := by
  refine ⟨fun env => ⟨fun m => ?_⟩⟩
  unfold onWorld WorldOp.onState State.step State.setStorage
  by_cases h : (m.world.state.account? target).isSome
  · simp only [h, ↓reduceIte]
    exact hset m _
  · simp only [h, ↓reduceIte, Bool.false_eq_true]
    exact refl m

theorem modifyFrame_persists (g : Frame → Frame) : Sustains Persists (modifyFrame g) :=
  ⟨fun _ => carries_modify fun _ => ⟨.of_accounts rfl, rfl⟩⟩

instance : Tolerates Persists := .mono (R := Idle) fun h => h.toRemains

instance : Tolerates Unmarked := .mono (R := Idle) fun h => h.toUnmarked

instance : (Logic.sustaining Persists).Storing where
  addRefund _ := modifyFrame_persists _
  setStorage := setStorage_sustains fun _ _ => ⟨.of_accounts rfl, rfl⟩

instance : (Logic.sustaining Unmarked).Storing where
  addRefund _ := ⟨fun _ => carries_modify fun _ => ⟨rfl, rfl⟩⟩
  setStorage := setStorage_sustains fun _ _ => ⟨rfl, rfl⟩

theorem setStorage_of_ok {target : Address}
    (h : onWorld (.onState .fault (State.step (·.setStorage target key new))) env m = .ok () m') :
    m' = { m with world := { m.world with
      state := { m.world.state with storage := m.world.state.storage.set target key new } } } := by
  unfold onWorld WorldOp.onState State.step State.setStorage at h
  by_cases hs : (m.world.state.account? target).isSome
  · simp only [hs, ↓reduceIte] at h
    cases h
    rfl
  · simp only [hs, ↓reduceIte, Bool.false_eq_true] at h
    cases h

theorem sstore_accrues (hopen : m.world.state.snapshots ≠ [])
    (h : sstore env m = .ok () m') : Accrues env.fork m m' := by
  obtain ⟨key, m₁, h₁, h⟩ := of_bind_ok h
  obtain ⟨new, m₂, h₂, h⟩ := of_bind_ok h
  have hq₂ : Quiet m m₂ :=
    IsTrans.trans _ _ _ (quiet_of_ok h₁) (quiet_of_ok h₂)
  obtain ⟨change, m₃, h₃, h⟩ := of_bind_ok h
  have hq₃ : Quiet m m₃ := IsTrans.trans _ _ _ hq₂ (quiet_of_ok h₃)
  have hchange := priceChange_covers h₃
  rw [hq₂.state, hq₂.message] at hchange
  obtain ⟨_, m₄, h₄, h⟩ := of_bind_ok h
  cases h₄
  obtain ⟨_, m₅, h₅, h⟩ := of_bind_ok h
  obtain ⟨_, m₆, h₆, h⟩ := of_bind_ok h
  have hq₆ := IsTrans.trans _ _ _ (quiet_of_ok h₅)
    (quiet_of_ok h₆)
  have hstate : m₆.world.state = m.world.state := hq₆.state.trans hq₃.state
  have hmessage : m₆.frame.message = m.frame.message := hq₆.message.trans hq₃.message
  have hrefund : m₆.frame.refund = m.frame.refund + change.refund :=
    hq₆.refund.trans (congrArg (· + change.refund) hq₃.refund)
  obtain ⟨_, _, hm, h⟩ := of_bind_ok h
  cases hm
  obtain ⟨_, m₇, h₇, h₈⟩ := of_bind_ok h
  have hm₇ := setStorage_of_ok h₇
  have hq₈ := quiet_of_ok h₈
  have hstate' : m'.world.state = { m.world.state with
      storage := m.world.state.storage.set m.frame.message.currentTarget key new } := by
    rw [hq₈.state, hm₇, hstate, hmessage]
  have hrefund' : m'.frame.refund = m.frame.refund + change.refund := by
    rw [hq₈.refund, hm₇]
    exact hrefund
  have hdue := State.clearedRefunds_set env.fork m.frame.message.currentTarget key new
    hopen hstate'
  have hlower := hchange.lower
  have hupper := hchange.upper
  exact ⟨by omega, by omega⟩

end Stores

section Destructions

/-- The state is the same, and the refund may have grown. -/
structure Rewarded (m m' : Machine) : Prop where
  state : m'.world.state = m.world.state
  refund : m.frame.refund ≤ m'.frame.refund ∧ m'.frame.refund ≤ m.frame.refund + refundStep

theorem of_refundDestruction_ok (h : refundDestruction env m = .ok () m') :
    m' = if env.fork < Fork.london then
        let known := addressUnion m.frame.accountsToDelete m.frame.message.deletedAbove
        { m with frame := { m.frame with
          accountsToDelete := known
          refund := m.frame.refund + if m.frame.message.currentTarget ∈ known then 0 else 24000 } }
      else m := by
  rw [refundDestruction, bind_of_ok fork_ok] at h
  split at h
  · next hfork =>
    rw [if_pos hfork]
    obtain ⟨_, _, hm, h⟩ := of_bind_ok h
    cases hm
    rw [bind_of_ok frame_ok] at h
    dsimp only
    split at h
    · next hnew =>
      cases h
      rw [if_neg fun hk => by simp [Std.ExtTreeSet.contains_iff_mem.mpr hk] at hnew]
      rfl
    · next hknown =>
      cases h
      rw [if_pos (Std.ExtTreeSet.contains_iff_mem.mp (by simpa using hknown)), add_zero]
  · next hfork =>
    cases h
    rw [if_neg hfork]

theorem of_payDestruction_ok {beneficiary : Address}
    (h : payDestruction env m = .ok beneficiary m') :
    ∃ m₁ m₂, Quiet m m₁ ∧ refundDestruction env m₁ = .ok () m₂ ∧ Quiet m₂ m' := by
  obtain ⟨_, m₁, h₁, h⟩ := of_bind_ok h
  obtain ⟨cost, m₂, h₂, h⟩ := of_bind_ok h
  obtain ⟨_, m₃, h₃, h⟩ := of_bind_ok h
  obtain ⟨_, m₄, h₄, h⟩ := of_bind_ok h
  obtain ⟨_, m₅, h₅, h⟩ := of_bind_ok h
  cases h
  exact ⟨m₂, m₃, IsTrans.trans _ _ _ (quiet_of_ok h₁) (quiet_of_ok h₂), h₃,
    IsTrans.trans _ _ _ (quiet_of_ok h₄) (quiet_of_ok h₅)⟩

theorem payDestruction_rewarded {beneficiary : Address}
    (h : payDestruction env m = .ok beneficiary m') : Rewarded m m' := by
  obtain ⟨m₁, m₂, hq₁, hrefund, hq₂⟩ := of_payDestruction_ok h
  have hr₁ := hq₁.refund
  have hr₂ := hq₂.refund
  have hrewarded : Rewarded m₁ m₂ := by
    rw [of_refundDestruction_ok hrefund]
    split
    · refine ⟨rfl, ?_⟩
      unfold refundStep
      dsimp only
      split <;> omega
    · exact ⟨rfl, le_rfl, by unfold refundStep; omega⟩
  have hr := hrewarded.refund
  exact ⟨hq₂.state.trans (hrewarded.state.trans hq₁.state), by omega, by omega⟩

theorem touchIfEmpty_idle (address : Address) : Sustains Idle (touchIfEmpty address) :=
  keeps_state.idle.bind fun _ =>
    .ite ⟨fun _ => carries_modify fun _ => ⟨.of_state rfl rfl, rfl, rfl⟩⟩ (sustains_pure _)

/-- No account loses its code by a change of balances, not even by one that fails. -/
instance : (Logic.sustaining Persists).Destroying where
  tally _ := modifyFrame_persists _
  setBalance _ := ⟨fun _ => carries_modify fun _ => ⟨State.sameCode_setBalance 0, rfl⟩⟩
  addBalance _ _ := onWorld_sustains (onState_sustains
    (State.carries_addBalance State.remains_setBalance _ _) _)
  moveEther _ _ _ := onWorld_sustains (onState_sustains
    (State.carries_moveEther State.remains_setBalance _ _ _) _)

theorem selfdestruct_accrues (h : selfdestruct env m = .ok () m') : Accrues env.fork m m' := by
  obtain ⟨beneficiary, m₁, h₁, h⟩ := of_bind_ok h
  obtain ⟨_, _, hm, h⟩ := of_bind_ok h
  cases hm
  obtain ⟨_, m₂, h₂, h⟩ := of_bind_ok h
  have hr := payDestruction_rewarded h₁
  have hg : GivenAway m₁ m₂ := by
    rcases giveAway_cases env m₁ m₁.frame.message.currentTarget beneficiary with
      ⟨m₂', hok, hg⟩ | ⟨f, m₂', herr⟩
    · rw [hok] at h₂
      cases h₂
      exact hg
    · rw [herr] at h₂
      cases h₂
  have hend : Sustains Idle (do touchIfEmpty beneficiary; finish) :=
    (touchIfEmpty_idle beneficiary).bind fun _ => Keeps.idle Made.kept
  have hi : Inert m₂ m' := (hend.of_ok h).toInert
  -- Only accounts change once the destruction is paid.
  have hgiven : Inert m₁ m₂ := ⟨⟨hg.sameCode, (congrArg State.created hg.state :)⟩,
    (congrArg State.storage hg.state :), (congrArg State.snapshots hg.state :),
    (congrArg Frame.refund hg.frame :)⟩
  have ha : Accrues env.fork m₁ m' := (IsTrans.trans _ _ _ hgiven hi).accrues
  have hrefund : m'.frame.refund = m₁.frame.refund := hi.refund.trans hgiven.refund
  have hlower := ha.lower
  have hbounds := hr.refund
  rw [hr.state] at hlower
  exact ⟨by omega, by omega⟩

end Destructions

theorem fetch_persists : Sustains Persists fetch := fetch_sustained

theorem fetch_idle {op : Opcode} (hop : m.opcode? env = some op) (hs : op ≠ .sstore)
    (hd : op ≠ .selfdestruct) (h : fetch env m = .ok p m') : Idle m m' := by
  rw [fetch_of_some hop] at h
  exact ((trace_quiet _).idle.bind fun _ => Tolerates.execute hs hd).of_ok h

theorem fetch_unmarked
    (hd : m.opcode? env ≠ some .selfdestruct) (h : fetch env m = .ok p m') : Unmarked m m' := by
  obtain ⟨op, hop, h⟩ := of_fetch_ok h
  have : Made (.sustaining Unmarked) (execute op) :=
    execute_made (fun _ => inferInstance) fun hop' => absurd (hop' ▸ hop) hd
  exact Made.sustained.of_ok h

theorem fetch_some_idle {pending : Pending}
    (h : fetch env m = .ok (some pending) m') : Idle m m' := by
  obtain ⟨op, hop, hexecute⟩ := of_fetch_ok h
  have halone {x : Exec Unit} {m₁ : Machine}
      (h : (x >>= fun _ => pure none : Exec (Option Pending)) env m₁ = .ok (some pending) m') :
      False := by
    obtain ⟨_, _, _, hpure⟩ := of_bind_ok h
    cases hpure
  obtain ⟨_, m₁, -, hexecute⟩ := of_bind_ok hexecute
  refine fetch_idle hop ?_ ?_ h
  · rintro rfl
    exact halone hexecute
  · rintro rfl
    exact halone hexecute

theorem fetch_accrues (hopen : m.world.state.snapshots ≠ []) (h : fetch env m = .ok p m') :
    Accrues env.fork m m' := by
  obtain ⟨op, hop, hexecute⟩ := of_fetch_ok h
  by_cases hw : op = .sstore ∨ op = .selfdestruct
  · obtain ⟨_, m₁, htrace, hexecute⟩ := of_bind_ok hexecute
    have hq := quiet_of_ok htrace
    have ha : Accrues env.fork m₁ m' := by
      rcases hw with rfl | rfl
      · obtain ⟨_, m₂, hs, hpure⟩ := of_bind_ok hexecute
        cases hpure
        exact sstore_accrues (by rwa [hq.state]) hs
      · obtain ⟨_, m₂, hs, hpure⟩ := of_bind_ok hexecute
        cases hpure
        exact selfdestruct_accrues hs
    have hlower := ha.lower
    have hupper := ha.upper
    have hr := hq.refund
    rw [hq.state] at hlower
    exact ⟨by omega, by omega⟩
  · exact (fetch_idle hop (not_or.mp hw).1 (not_or.mp hw).2 h).accrues

end ExecutionLayer.Evm
