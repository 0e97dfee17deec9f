import ExecutionLayer.Proofs.Evm.Step
import ExecutionLayer.Proofs.State.Ownership

/-! # How instructions are made

Instructions are sequences of a few operations, so that a property which these have passes to the
instructions. In particular a relation holds between the machines before and after an instruction,
however it ends, if it allows for what is quiet and for the few things beside.
-/
set_option synthInstance.maxSize 100000
namespace ExecutionLayer.Evm
open Exec Step
variable {L : Logic}

/-- Entries may be added to the log, transient storage be changed and nonces be counted up. -/
class Logic.Recording (L : Logic) : Prop where
  logs : ∀ logs : Frame → List Log, L.holds (modifyFrame fun f => { f with logs := logs f })
  modifyTransient : ∀ g, L.holds (modifyTransient g)
  incrementNonce : ∀ a, L.holds (modifyState (·.incrementNonce a))

/-- Storage may be changed, and the refund with it. -/
class Logic.Storing (L : Logic) : Prop where
  addRefund : ∀ amount, L.holds (addRefund amount)
  setStorage : ∀ target key new,
    L.holds (onWorld (.onState .fault (State.step (·.setStorage target key new))))

/-- All that the frame counts up may be changed, and so may the world. -/
class Logic.Writing (L : Logic) : Prop extends L.Giving where
  tally : ∀ {g : Frame → Frame}, (∀ f, g f = { f with
      gasLeft := (g f).gasLeft, logs := (g f).logs, refund := (g f).refund
      accountsToDelete := (g f).accountsToDelete, touchedAccounts := (g f).touchedAccounts
      accessedAddresses := (g f).accessedAddresses, accessedSlots := (g f).accessedSlots }) →
    L.holds (modifyFrame g)
  modifyState : ∀ g, L.holds (modifyState g)
  modifyTransient : ∀ g, L.holds (modifyTransient g)
  onState : ∀ {α : Type} (stop : Fault → Stop) (op : StateOp α), L.holds (onWorld (.onState stop op))

/-- Balances may be moved and set to zero, and all that the frame counts up may be changed. -/
class Logic.Destroying (L : Logic) : Prop where
  tally : ∀ {g : Frame → Frame}, (∀ f, g f = { f with
      refund := (g f).refund, accountsToDelete := (g f).accountsToDelete
      touchedAccounts := (g f).touchedAccounts }) → L.holds (modifyFrame g)
  setBalance : ∀ a, L.holds (modifyState (·.setBalance a 0))
  addBalance : ∀ a n, L.holds (onWorld (.changeBalances (State.step (·.addBalance a n))))
  moveEther : ∀ a b x, L.holds (onWorld (.changeBalances (State.moveEther a b x)))

instance [L.Taking] [hL : L.Destroying] : Made L selfdestruct := by
  have (g : Frame → AddressSet) : Made L (modifyFrame fun f => { f with accountsToDelete := g f }) :=
    ⟨hL.tally fun _ => rfl⟩
  have (g : Frame → AddressSet) : Made L (modifyFrame fun f => { f with touchedAccounts := g f }) :=
    ⟨hL.tally fun _ => rfl⟩
  have (amount : Int) : Made L (addRefund amount) := ⟨hL.tally fun _ => rfl⟩
  have (a : Address) : Made L (modifyState (·.setBalance a 0)) := ⟨hL.setBalance a⟩
  have (a : Address) (n : Nat) : Made L (onWorld (.changeBalances (State.step (·.addBalance a n)))) :=
    ⟨hL.addBalance a n⟩
  have (a b : Address) (x : Word) : Made L (onWorld (.changeBalances (State.moveEther a b x))) :=
    ⟨hL.moveEther a b x⟩
  dsimp only [selfdestruct, payDestruction, refundDestruction, giveAway, destroyIfCreated, destroy,
    markDeleted, touchIfEmpty]
  infer_instance

section Writing
variable [hL : L.Writing]

instance : L.Recording :=
  ⟨fun _ => hL.tally fun _ => rfl, hL.modifyTransient, fun _ => hL.modifyState _⟩

instance : L.Storing := ⟨fun _ => hL.tally fun _ => rfl, fun _ _ _ => hL.onState _ _⟩

instance : L.Destroying where
  tally hg := hL.tally fun f => by rw [hg f]
  setBalance _ := hL.modifyState _
  addBalance _ _ := hL.onState _ _
  moveEther _ _ _ := hL.onState _ _

instance (child : Frame) : Made L (absorb child) :=
  ⟨L.bind Made.holds fun _ => L.bind Made.holds fun _ => hL.tally fun _ => rfl⟩

instance (child : Frame) : Made L (absorbFailure child) :=
  ⟨L.bind Made.holds fun _ => hL.tally fun _ => rfl⟩

end Writing

section Made
variable [L.Moving] [hg : L.Giving]

instance : Made L revert := by
  have : Made L (halt .revert : Exec Unit) := ⟨hg.revert⟩
  unfold revert
  infer_instance

instance [hs : L.Storing] : Made L sstore := by
  have (amount : Int) : Made L (addRefund amount) := ⟨hs.addRefund amount⟩
  have (target : Address) (key new : Word) : Made L
    (onWorld (.onState .fault (State.step (·.setStorage target key new)))) := ⟨hs.setStorage _ _ _⟩
  dsimp only [sstore]
  infer_instance

theorem log_made
    (h : ∀ logs : Frame → List Log, L.holds (modifyFrame fun f => { f with logs := logs f }))
    (topicCount : Nat) : Made L (log topicCount) := by
  have (topics : List Word) (data : Bytes) : Made L (modifyFrame fun f =>
      { f with logs := f.logs ++ [⟨f.message.currentTarget, topics, data⟩] }) := ⟨h _⟩
  unfold log
  infer_instance

variable [hr : L.Recording]

instance (topicCount : Nat) : Made L (log topicCount) := log_made hr.logs topicCount

instance : Made L tstore := by
  have (g : Transient → Transient) : Made L (modifyTransient g) := ⟨hr.modifyTransient g⟩
  dsimp only [tstore]
  infer_instance

instance (endowment : Word) (address : Address) (start size : Nat) :
    Made L (createAt endowment address start size) := by
  have (a : Address) : Made L (modifyState (·.incrementNonce a)) := ⟨hr.incrementNonce a⟩
  dsimp only [createAt, decline]
  infer_instance

theorem execute_made {op : Opcode} (hs : op = .sstore → Made L sstore)
    (hd : op = .selfdestruct → Made L selfdestruct) : Made L (execute op) := by
  cases op
  case sstore =>
    have := hs rfl
    exact inferInstanceAs (Made L (sstore >>= fun _ => pure none))
  case selfdestruct =>
    have := hd rfl
    exact inferInstanceAs (Made L (selfdestruct >>= fun _ => pure none))
  all_goals
    dsimp only [execute, executeAlone, move, lookUp, compute, unary, binary, binaryTotal, ternary,
      exp, dropTop, pushImmediate, dup, swap, query, queryNat, queryAccount, selfBalance, blockHash,
      blobHash, callDataLoad, mload, mstore, mstore8, mcopy, copy, copyExternalCode, copyReturnData,
      keccak, sload, tload, jump, jumpi, jumpdest, create, create2, call, callcode,
      delegatecall, staticcall, enterWithValue, enter, decline]
    infer_instance

end Made

/-- The relation allows for what is quiet, for entries in the log, for transient storage and for
nonces that are counted up. -/
class Tolerates (R : Machine → Machine → Prop) : Prop extends AllowsQuiet R where
  logs : ∀ (m : Machine) (logs : List Log), R m { m with frame := { m.frame with logs } }
  transient : ∀ (m : Machine) (transient : Transient),
    R m { m with world := { m.world with transient } }
  nonce : ∀ (m : Machine) (a : Address),
    R m { m with world := { m.world with state := m.world.state.incrementNonce a } }

section Tolerates
variable {R : Machine → Machine → Prop} [hR : Tolerates R]

theorem Tolerates.of_quiet {cost : Int} {α : Type} {op : Exec α} (h : Keeps Quiet cost op) :
    Sustains R op := h.sustained.mono hR.quiet

theorem Tolerates.mono {S : Machine → Machine → Prop} (h : ∀ {m m'}, R m m' → S m m') :
    Tolerates S where
  quiet hq := h (hR.quiet hq)
  logs m l := h (hR.logs m l)
  transient m t := h (hR.transient m t)
  nonce m a := h (hR.nonce m a)

variable [IsPreorder Machine R]

instance : (Logic.sustaining R).Recording where
  logs _ := ⟨fun _ => carries_modify fun m => hR.logs m _⟩
  modifyTransient _ := ⟨fun _ => carries_modify fun m => hR.transient m _⟩
  incrementNonce a := ⟨fun _ => carries_modify fun m => hR.nonce m a⟩

theorem Tolerates.execute {op : Opcode} (hs : op ≠ .sstore) (hd : op ≠ .selfdestruct) :
    Sustains R (execute op) :=
  (execute_made (fun h => absurd h hs) fun h => absurd h hd : Made (.sustaining R) _).holds

theorem fetch_sustained [(Logic.sustaining R).Storing] [(Logic.sustaining R).Destroying] :
    Sustains R fetch := by
  refine keeps_get.sustained.bind fun _ => keeps_fork.sustained.bind fun _ => ?_
  split
  · exact sustains_throw _
  · next op _ =>
    have : Made (.sustaining R) (execute op) :=
      execute_made (fun _ => inferInstance) fun _ => inferInstance
    exact Made.sustained

end Tolerates

section Worlds
variable {α : Type}

theorem onState_sustains {R : State → State → Prop} {op : StateOp α} (h : Carries R op)
    (stop : Fault → Stop) :
    Sustains (fun w w' : World => R w.state w'.state) (WorldOp.onState stop op) := by
  refine ⟨fun _ => ⟨fun w => ?_⟩⟩
  have hs := h.carried w.state
  unfold WorldOp.onState
  cases hr : op w.state <;> rwa [hr] at hs

theorem onWorld_related {R : World → World → Prop} {op : WorldOp α} {env : Environment}
    {m : Machine} (h : R m.world (endOf (op env m.world))) :
    R m.world (endOf (onWorld op env m)).world := by
  unfold onWorld
  cases hr : op env m.world <;> rwa [hr] at h

theorem onWorld_sustains {R : World → World → Prop} {op : WorldOp α} (h : Sustains R op) :
    Sustains (fun m m' : Machine => R m.world m'.world) (onWorld op) :=
  ⟨fun env => ⟨fun m => onWorld_related (h.ends env m.world)⟩⟩

end Worlds

end ExecutionLayer.Evm
