import ExecutionLayer.Proofs.Evm.Reach
import ExecutionLayer.Proofs.Evm.Refund

/-! # What lasts from frame to frame

Accounts do not vanish while frames are opened and closed, what was created stays created as long as
a snapshot is open, and what is due for cleared slots is accounted for by the refunds of the frames
that were kept.
-/
namespace ExecutionLayer.Evm
open Exec Step

/-- From one world to another accounts and creations last, and what has become due is covered by a
refund. -/
structure Accounted (fork : Fork) (refund : Int) (w w' : World) : Prop where
  lives : ∀ a, w.state.accountExists a → w'.state.accountExists a
  created : w.state.snapshots ≠ [] → ∀ a, w.state.created.contains a → w'.state.created.contains a
  due : (w'.state.clearedRefunds fork : Int) ≤ refund + w.state.clearedRefunds fork

section Accounted
variable {fork : Fork} {r r' : Int} {w w₁ w₂ w' : World}

theorem Accounted.refl (fork : Fork) (w : World) : Accounted fork 0 w w :=
  ⟨fun _ => id, fun _ _ => id, by omega⟩

theorem Accounted.trans (h : Accounted fork r w w₁) (h' : Accounted fork r' w₁ w₂)
    (hopen : w.state.snapshots ≠ [] → w₁.state.snapshots ≠ []) : Accounted fork (r + r') w w₂ := by
  refine ⟨fun a ha => h'.lives a (h.lives a ha),
    fun hs a ha => h'.created (hopen hs) a (h.created hs a ha), ?_⟩
  have := h.due
  have := h'.due
  omega

theorem Accounted.of_lives (hl : ∀ a, w.state.accountExists a → w'.state.accountExists a)
    (hstate : w'.state = { w.state with accounts := w'.state.accounts }) :
    Accounted fork 0 w w' := by
  have hcreated : w'.state.created = w.state.created := (congrArg State.created hstate :)
  have hdue : w'.state.clearedRefunds fork ≤ w.state.clearedRefunds fork := by
    rw [hstate]
    exact State.clearedRefunds_of_same rfl rfl fun _ => id
  refine ⟨hl, fun _ a ha => ?_, by omega⟩
  rw [hcreated]
  exact ha

theorem created_closeSnapshot {s : State} {rest : List Snapshot} (h : rest ≠ []) :
    (s.closeSnapshot rest).created = s.created := by
  unfold State.closeSnapshot
  simp [h]

theorem clearedRefunds_closeSnapshot_le (fork : Fork) {s : State} {snapshot : Snapshot}
    {rest : List Snapshot} (h : s.snapshots = snapshot :: rest) :
    (s.closeSnapshot rest).clearedRefunds fork ≤ s.clearedRefunds fork := by
  by_cases hr : rest = []
  · rw [State.clearedRefunds_of_nil hr]
    exact Nat.zero_le _
  · refine State.clearedRefunds_of_same rfl ?_ fun a ha => ?_
    · unfold State.startingStorage
      rw [h, List.getLast?_cons_of_ne_nil hr]
      rfl
    · rw [created_closeSnapshot hr]
      exact ha

theorem Accounted.commit (h : Accounted fork r w w₁) (hb : Begun w w₁) (hc : w₁.commit = .ok w') :
    Accounted fork r w w' := by
  rw [hb.commit] at hc
  cases hc
  refine ⟨fun a ha => h.lives a ha, fun hs a ha => ?_, ?_⟩
  · change ((w₁.state.closeSnapshot w.state.snapshots).created).contains a
    rw [created_closeSnapshot hs]
    exact h.created hs a ha
  · have hle := clearedRefunds_closeSnapshot_le fork hb.snapshots
    have hdue := h.due
    dsimp only
    omega

theorem Accounted.rollback
    (hcreated : w.state.snapshots ≠ [] → ∀ a, w.state.created.contains a →
      w₁.state.created.contains a)
    (hb : Begun w w₁) (hc : w₁.rollback = .ok w') : Accounted fork 0 w w' := by
  rw [hb.rollback] at hc
  cases hc
  refine ⟨fun a ha => ha, fun hs a ha => ?_, ?_⟩
  · change (State.closeSnapshot _ w.state.snapshots).created.contains a
    rw [created_closeSnapshot hs]
    exact hcreated hs a ha
  · let back : State := { w₁.state with accounts := w.state.accounts, storage := w.state.storage }
    have hdue : (back.closeSnapshot w.state.snapshots).clearedRefunds fork ≤
        w.state.clearedRefunds fork := by
      by_cases hs : w.state.snapshots = []
      · rw [State.clearedRefunds_of_nil (s := back.closeSnapshot w.state.snapshots) hs]
        exact Nat.zero_le _
      · refine State.clearedRefunds_of_same rfl rfl fun a ha => ?_
        rw [created_closeSnapshot hs]
        exact hcreated hs a ha
    dsimp only
    change ((back.closeSnapshot w.state.snapshots).clearedRefunds fork : Int) ≤ _
    omega

end Accounted

structure Entered (env : Environment) (message : Message) (w w' : World) : Prop extends
    Begun w w' where
  accounted : Accounted env.fork 0 w w'
  code : ∀ a, (w'.state.account a).code = (w.state.account a).code
  target : w'.state.accountExists message.currentTarget

theorem Begun.opened {w w' : World} (h : Begun w w') : w'.state.snapshots ≠ [] := by
  rw [h.snapshots]
  exact List.cons_ne_nil _ _

section Opening
variable {env : Environment} {message : Message} {w w' : World}

theorem accounted_begin (fork : Fork) (w : World) : Accounted fork 0 w w.begin := by
  have hdue := State.clearedRefunds_begin_le fork w.state
  refine ⟨fun _ ha => ha, fun _ _ ha => ha, ?_⟩
  change (w.state.begin.clearedRefunds fork : Int) ≤ _
  omega

theorem openMessage_entered (h : openMessage message env w = .ok () w') :
    Entered env message w w' := by
  have htouch : w.begin.state.touch message.currentTarget = { w.begin.state with
      accounts := (w.begin.state.touch message.currentTarget).accounts } := by
    unfold State.touch
    split <;> rfl
  -- A transfer only changes balances.
  have htransfer : State.SameCode (w.begin.state.touch message.currentTarget) w'.state ∧
      w'.state = { w.begin.state.touch message.currentTarget with
        accounts := w'.state.accounts } := by
    have hopening := openMessage_opening env message w
    rw [h] at hopening
    cases hopening with
    | plain => exact ⟨.refl _, rfl⟩
    | paid _ _ hm => exact ⟨State.sameCode_of_moveEther hm, State.moveEther_accounts hm⟩
  obtain ⟨hcode, hstate⟩ := htransfer
  have hsame : State.SameCode w.begin.state w'.state := State.sameCode_touch.trans hcode
  have hrest : w'.state = { w.begin.state with accounts := w'.state.accounts } := by
    conv_lhs => rw [hstate, htouch]
  have haccounted : Accounted env.fork 0 w.begin w' := .of_lives hsame.lives hrest
  refine ⟨begun_of_openMessage h, ?_, fun a => hsame.code a,
    hcode.lives _ (State.accountExists_touch _ _)⟩
  exact (accounted_begin env.fork w).trans haccounted fun _ => (begun_begin w).opened

theorem created_prepareAccount (fork : Fork) (a b : Address) (s : State)
    (h : s.created.contains b) : (prepareAccount fork a s).created.contains b := by
  have hstorage : (if fork = .daoFork then s else s.destroyStorage a).created = s.created := by
    split <;> rfl
  have hmark (t : State) (ht : t.created.contains b) :
      (if Fork.istanbul ≤ fork then t.markCreated a else t).created.contains b := by
    split
    · change (t.created.insert a).contains b
      rw [Std.ExtTreeSet.contains_insert, ht, Bool.or_true]
    · exact ht
  have hnonce (t : State) :
      (if Fork.spuriousDragon ≤ fork then t.incrementNonce a else t).created = t.created := by
    split <;> rfl
  unfold prepareAccount
  dsimp only
  rw [hnonce]
  refine hmark _ ?_
  rw [hstorage]
  exact h

theorem sameCode_prepareAccount (fork : Fork) (a : Address) (s : State) :
    State.SameCode s (prepareAccount fork a s) := by
  have hstorage : State.SameCode s (if fork = .daoFork then s else s.destroyStorage a) :=
    .of_accounts (by split <;> rfl)
  have hmark (t : State) :
      State.SameCode t (if Fork.istanbul ≤ fork then t.markCreated a else t) :=
    .of_accounts (by split <;> rfl)
  have hnonce (t : State) :
      State.SameCode t (if Fork.spuriousDragon ≤ fork then t.incrementNonce a else t) := by
    split
    · exact State.sameCode_incrementNonce
    · exact .refl t
  exact hstorage.trans ((hmark _).trans (hnonce _))

theorem openCreation_accounted (h : openCreation message env w = .ok () w') :
    Begun w w' ∧ Accounted env.fork 0 w w' ∧
      ∀ a, (w'.state.account a).code = (w.state.account a).code := by
  have hbegun : Begun w w' := by
    obtain ⟨w₁, h₁, hb⟩ := openCreation_begun env message w
    rw [h₁] at h
    cases h
    exact hb
  cases h
  have hsame := sameCode_prepareAccount env.fork message.currentTarget w.begin.state
  refine ⟨hbegun, ⟨fun a ha => hsame.lives a ha, fun _ a ha => ?_, ?_⟩, fun a => hsame.code a⟩
  · exact created_prepareAccount env.fork message.currentTarget a w.begin.state ha
  · have hprepare := State.clearedRefunds_prepareAccount_le env.fork
      message.currentTarget (begun_begin w).opened
    have hdue := (accounted_begin env.fork w).due
    change ((prepareAccount env.fork message.currentTarget w.begin.state).clearedRefunds env.fork :
      Int) ≤ _
    omega

end Opening

end ExecutionLayer.Evm
