import ExecutionLayer.Proofs.Evm.Containment

/-! # Static frames

A frame that was entered by a static call only reads, and so do the frames below it. A call is left
that brings value along, but there the value is zero, or is not sent, or is sent by an account to
itself. An account that is touched for the first time reads as before.
-/
set_option synthInstance.maxSize 100000
namespace ExecutionLayer.Evm
open Exec Step Relation

structure SameReadings (w w' : World) : Prop where
  account : ∀ a, w'.state.account a = w.state.account a
  slot : ∀ a k, w'.state.getStorage a k = w.state.getStorage a k
  transient : ∀ a k, w'.transient.get a k = w.transient.get a k

section Readings
variable {w w' w'' : World}

theorem SameReadings.trans (h : SameReadings w w') (h' : SameReadings w' w'') :
    SameReadings w w'' where
  account a := (h'.account a).trans (h.account a)
  slot a k := (h'.slot a k).trans (h.slot a k)
  transient a k := (h'.transient a k).trans (h.transient a k)

theorem sameReadings_of_eq (hs : w'.state = w.state) (ht : w'.transient = w.transient) :
    SameReadings w w' :=
  ⟨fun _ => by rw [hs], fun _ _ => by rw [hs], fun _ _ => by rw [ht]⟩

theorem SameContent.sameReadings (h : SameContent w w') : SameReadings w w' := by
  refine ⟨fun a => ?_, fun a k => ?_, fun a k => ?_⟩
  · rw [State.account, State.account, State.account?, State.account?, h.accounts]
  · rw [State.getStorage, State.getStorage, h.storage]
  · rw [Transient.get, Transient.get, h.transient]

theorem account_moveEther_self {s t : State} {a : Address} {x : Word}
    (h : State.moveEther a a x s = .ok () t) (b : Address) : t.account b = s.account b := by
  obtain ⟨_, s₁, h₁, h₂⟩ := of_seq_ok h
  have hsub := State.step_eq_ok.mp h₁
  have hadd := State.step_eq_ok.mp h₂
  unfold State.subBalance at hsub
  dsimp only at hsub
  split at hsub
  · cases hsub
  · next hle =>
    cases hsub
    have hown : (s.setBalance a ((s.account a).balance - x)).balance a + x.toNat =
        (s.account a).balance.toNat := by
      rw [State.balance_setBalance, if_pos rfl, BitVec.toNat_sub_of_le (Nat.le_of_not_lt hle)]
      omega
    have hlt : (s.account a).balance.toNat < Word.limit := (s.account a).balance.isLt
    rw [State.addBalance_of_lt (by omega), hown] at hadd
    cases hadd
    rw [State.setBalance, State.account_modifyAccount, State.setBalance,
      State.account_modifyAccount, State.account_modifyAccount]
    split
    · next hab =>
      subst hab
      simp
    · rfl

end Readings

/-- What happens in a frame that only reads. -/
structure Reading (m m' : Machine) : Prop where
  world : SameReadings m.world m'.world
  message : m'.frame.message = m.frame.message
  logs : m'.frame.logs = m.frame.logs
  refund : m'.frame.refund = m.frame.refund
  accountsToDelete : m'.frame.accountsToDelete = m.frame.accountsToDelete

instance : IsPreorder Machine Reading where
  refl _ := ⟨sameReadings_of_eq rfl rfl, rfl, rfl, rfl, rfl⟩
  trans _ _ _ h h' :=
    ⟨h.world.trans h'.world, h'.message.trans h.message, h'.logs.trans h.logs,
      h'.refund.trans h.refund, h'.accountsToDelete.trans h.accountsToDelete⟩

theorem Quiet.reading {m m' : Machine} (h : Quiet m m') : Reading m m' :=
  ⟨sameReadings_of_eq h.state h.transient, h.message, h.logs, h.refund, h.accountsToDelete⟩

/-- An operation that does not get through in a static frame. -/
class Refused {α : Type} (op : Exec α) : Prop where
  ne_ok : ∀ {env m v m'}, m.frame.message.isStatic = true → op env m ≠ .ok v m'

section Refused
variable {α β : Type} {x : Exec α} {f : α → Exec β}

instance (priority := high) [hx : Refused x] : Refused (x >>= f) := by
  refine ⟨fun hs h => ?_⟩
  obtain ⟨a, m₁, ha, _⟩ := of_bind_ok h
  exact hx.ne_ok hs ha

instance [hx : Made (.keeping Local) x] [hf : ∀ v, Refused (f v)] : Refused (x >>= f) := by
  refine ⟨fun {env m v m'} hs h => ?_⟩
  obtain ⟨a, m₁, ha, hfa⟩ := of_bind_ok h
  have hl := hx.kept.within env m
  rw [ha] at hl
  refine (hf a).ne_ok ?_ hfa
  rw [hl.1.message]
  exact hs

instance {c : Prop} [Decidable c] {y : Exec α} [hx : Refused x] [hy : Refused y] :
    Refused (if c then x else y) := by
  split
  · exact hx
  · exact hy

instance (h : Halt) : Refused (halt h : Exec α) := ⟨fun _ => nofun⟩

instance : Refused requireMutable := by
  refine ⟨fun {env m v m'} hs h => ?_⟩
  have hr : requireMutable env m = .error (.halt .writeInStaticContext) m := by
    change (if m.frame.message.isStatic then (halt .writeInStaticContext : Exec Unit)
      else pure ()) env m = _
    rw [if_pos hs]
    rfl
  rw [hr] at h
  cases h

instance : Refused sstore := by
  have (amount : Int) : Made (.keeping Local) (addRefund amount) :=
    ⟨(addRefund_steady amount).mono Steady.toLocal le_rfl⟩
  dsimp only [sstore]
  infer_instance

instance : Refused selfdestruct := by
  have : Made (.keeping Local) refundDestruction :=
    ⟨(Made.kept : Keeps Still 0 refundDestruction).toLocal⟩
  dsimp only [selfdestruct, payDestruction]
  infer_instance

end Refused

/-- A message to a frame that may only read, which is given nothing by another account. -/
structure Message.IsSilent (message : Message) : Prop where
  target : message.target.isSome
  isStatic : message.isStatic = true
  value : message.shouldTransferValue = false ∨ message.value = 0 ∨
    message.caller = message.currentTarget

/-- An operation that is quiet in a static frame, and asks for silent messages only. -/
class Listens (op : Exec (Option Pending)) : Prop where
  listened : ∀ {env m p m'}, m.frame.message.isStatic = true → op env m = .ok p m' →
    Quiet m m' ∧ ∀ pending ∈ p, pending.message.IsSilent

section Listens
variable {α : Type} {x y op : Exec (Option Pending)}

instance (priority := high) [h : Refused op] : Listens op := ⟨fun hs ho => absurd ho (h.ne_ok hs)⟩

theorem Listens.after {cost : Int} {x : Exec α} {f : α → Exec (Option Pending)}
    (hx : Keeps Quiet cost x) (hf : ∀ v, Listens (f v)) : Listens (x >>= f) := by
  refine ⟨fun {env m p m'} hs h => ?_⟩
  obtain ⟨a, m₁, ha, hfa⟩ := of_bind_ok h
  have hq := hx.within env m
  rw [ha] at hq
  have hs₁ : m₁.frame.message.isStatic = true := by rw [hq.1.message, hs]
  obtain ⟨hq', hp⟩ := (hf a).listened hs₁ hfa
  exact ⟨IsTrans.trans _ _ _ hq.1 hq', hp⟩

instance {x : Exec α} {f : α → Exec (Option Pending)} [hx : Made (.keeping Quiet) x]
    [hf : ∀ v, Listens (f v)] : Listens (x >>= f) := .after hx.kept hf

instance {c : Prop} [Decidable c] [hx : Listens x] [hy : Listens y] :
    Listens (if c then x else y) := by
  split
  · exact hx
  · exact hy

instance : Listens (pure none) := by
  refine ⟨fun _ h => ?_⟩
  cases h
  exact ⟨refl _, nofun⟩

instance (n : Nat) : Listens (do addGas n; decline) :=
  .after (addGas_quiet n) fun _ => inferInstanceAs (Listens (do push 0; next; return none))

theorem enter_listens {c : Call} (r : Ranges)
    (hc : c.transfersValue = false ∨ c.value = 0 ∨ c.caller = c.target) : Listens (enter c r) := by
  refine .after Made.kept fun _ => ⟨fun {env m p m'} hs h => ?_⟩
  rw [bind_of_ok frame_ok] at h
  split at h
  · exact Listens.listened hs h
  · cases h
    refine ⟨refl m, ?_⟩
    rintro _ ⟨⟩
    refine ⟨rfl, ?_, hc⟩
    change (c.isStatic || m.frame.message.isStatic) = true
    rw [hs, Bool.or_true]

section Calls
variable {gas : Nat} {value : Word} {a caller target code : Address} {transfers isStatic : Bool}
  {r : Ranges}

instance [Listens (enter ⟨gas, value, caller, target, code, transfers, isStatic⟩ r)] :
    Listens (enterWithValue ⟨gas, value, caller, target, code, transfers, isStatic⟩ r) := by
  unfold enterWithValue
  infer_instance

instance : Listens (enter ⟨gas, 0, caller, target, code, transfers, isStatic⟩ r) :=
  enter_listens r (Or.inr (Or.inl rfl))

instance : Listens (enter ⟨gas, value, caller, target, code, false, isStatic⟩ r) :=
  enter_listens r (Or.inl rfl)

instance : Listens (enter ⟨gas, value, a, a, code, transfers, isStatic⟩ r) :=
  enter_listens r (Or.inr (Or.inr rfl))

end Calls

instance : Listens call := by
  refine .after Made.kept fun _ => .after Made.kept fun _ => .after Made.kept fun value => ?_
  by_cases h : value = 0
  · simp only [h, ne_eq, not_true_eq_false, ↓reduceIte]
    infer_instance
  · simp only [h, ne_eq, not_false_eq_true, ↓reduceIte]
    infer_instance

theorem execute_listens (op : Opcode) : Listens (execute op) := by
  have hm (h : ¬op.Writes) : Listens (do move op; return none) :=
    .after (move_quiet h) fun _ => inferInstance
  cases op
  case sstore | tstore | log | stop | jump | jumpi | jumpdest | ret | revert | selfdestruct | create
      | create2 | call | callcode | delegatecall | staticcall =>
    dsimp only [execute, executeAlone, move, tstore, log, jump, jumpi, jumpdest, revert, create,
      create2, createAt, callcode, delegatecall, staticcall]
    infer_instance
  all_goals exact hm id

theorem fetch_listens : Listens fetch := by
  refine ⟨fun {env m p m'} hs h => ?_⟩
  obtain ⟨op, -, h⟩ := of_fetch_ok h
  exact (Listens.after (trace_quiet _) fun _ => execute_listens op).listened hs h

end Listens

structure Silent (w : World) (frame : Frame) (w' : World) : Prop where
  readings : SameReadings w w'
  leaves : frame.error = none →
    frame.logs = [] ∧ frame.accountsToDelete = ∅ ∧ frame.refund = 0

section Frames
variable {env : Environment} {message : Message} {w w' : World} {m m' : Machine}

theorem resume_reading {pending : Pending} {child : Frame}
    (h : child.error = none → child.logs = [] ∧ child.accountsToDelete = ∅ ∧ child.refund = 0)
    (hr : pending.resume child env m = .ok () m') : Reading m m' := by
  obtain ⟨m₁, hq, hm₁⟩ := of_resume_ok hr
  refine IsTrans.trans m m₁ m' ?_ hq.reading
  rcases hm₁ with ⟨-, ha⟩ | ⟨he, ha⟩
  · cases ha
    exact ⟨sameReadings_of_eq rfl rfl, rfl, rfl, rfl, rfl⟩
  · obtain ⟨hlogs, hmarks, hrefund⟩ := h he
    cases ha
    refine ⟨sameReadings_of_eq rfl rfl, rfl, ?_, ?_, ?_⟩
    · dsimp only
      rw [hlogs, List.append_nil]
    · dsimp only
      rw [hrefund, Int.add_zero]
    · dsimp only
      rw [hmarks, addressUnion_empty, ite_self]

def SilentBelow (env : Environment) (depth : Nat) : Prop :=
  ∀ message w, message.depth = depth + 1 → message.depth ≤ depthLimit → message.IsSilent →
    ∀ frame w', runMessage message env w = .ok frame w' → Silent w frame w'

theorem StepsTo.reading (h : StepsTo runMessage env m m') (hs : m.frame.message.isStatic = true)
    (hbelow : SilentBelow env m.frame.message.depth) : Reading m m' := by
  cases h.done with
  | alone hf ht =>
    have hq := (fetch_listens.listened hs hf).1
    exact IsTrans.trans _ _ _ hq.reading (quiet_of_ok ht).reading
  | @called pending m₁ m₂ child w hf hl hr ht =>
    obtain ⟨hq, hp⟩ := fetch_listens.listened hs hf
    have hsilent := hp pending rfl
    have hasking := asking_of_fetch hf
    obtain ⟨a, htarget⟩ := Option.isSome_iff_exists.mp hsilent.target
    rw [launch_of_some htarget] at hl
    have hc := hbelow _ _ hasking.depth hasking.le_limit hsilent child w hl
    have hw : Reading m₁ { m₁ with world := w } := ⟨hc.readings, rfl, rfl, rfl, rfl⟩
    have hresumed := resume_reading hc.leaves hr
    exact IsTrans.trans _ _ _ (IsTrans.trans _ _ _ hq.reading hw)
      (IsTrans.trans _ _ _ hresumed (quiet_of_ok ht).reading)

theorem steps_reading (h : ReflTransGen (StepsTo runMessage env) m m')
    (hs : m.frame.message.isStatic = true) (hbelow : SilentBelow env m.frame.message.depth) :
    Reading m m' := by
  induction h with
  | refl => exact refl m
  | tail _ hstep ih =>
    refine IsTrans.trans _ _ _ ih (hstep.reading ?_ ?_)
    · rw [ih.message]
      exact hs
    · rw [ih.message]
      exact hbelow

theorem runBody_reading (hs : message.isStatic = true) (hbelow : SilentBelow env message.depth)
    (h : runBody runMessage message env ⟨.ofMessage message, w⟩ = .ok () m) :
    Reading ⟨.ofMessage message, w⟩ m := by
  obtain ⟨m₁, hr, hq, -⟩ := of_runBody_ok h
  exact IsTrans.trans _ _ _ (steps_reading hr hs hbelow) hq.reading

theorem openMessage_readings (hfork : env.fork ≠ .frontier) (hm : message.IsSilent)
    (h : openMessage message env w = .ok () w') : SameReadings w w' := by
  have htouch : SameReadings w (w.begin.modifyState (·.touch message.currentTarget)) := by
    refine ⟨fun a => ?_, fun a k => ?_, fun a k => rfl⟩
    · exact State.account_touch w.begin.state message.currentTarget a
    · change (w.begin.state.touch message.currentTarget).storage.get a k = _
      unfold State.touch
      split <;> rfl
  have hopening := openMessage_opening env message w
  rw [h] at hopening
  cases hopening with
  | plain => exact htouch
  | paid hsends hvalue hmove =>
    -- The value goes from the account to itself.
    have hself : message.caller = message.currentTarget := by
      rcases hm.value with hv | hv | hv
      · exact absurd ((hsends.resolve_right hfork).symm.trans hv) (by decide)
      · exact absurd hv hvalue
      · exact hv
    rw [hself] at hmove
    refine htouch.trans ⟨account_moveEther_self hmove, fun a k => ?_, fun _ _ => rfl⟩
    rw [State.getStorage, State.moveEther_accounts hmove]
    rfl

theorem runInSnapshot_silent (hfork : env.fork ≠ .frontier) (hm : message.IsSilent)
    (hbelow : SilentBelow env message.depth) {frame : Frame}
    (h : runInSnapshot runMessage message env w = .ok frame w') : Silent w frame w' := by
  cases he : frame.error with
  | some e =>
    have hc := runInSnapshot_contained (w := w) (containsBelow env message.depth)
    rw [h] at hc
    exact ⟨(hc.unchanged (by rw [he]; rfl)).sameReadings, fun hn => by rw [he] at hn; cases hn⟩
  | none =>
    obtain ⟨_, w₁, ho, h₁⟩ := of_bind_ok h
    obtain ⟨frame₁, w₂, hr, h₂⟩ := of_bind_ok h₁
    obtain ⟨_, w₃, hclose, h₃⟩ := of_bind_ok h₂
    cases h₃
    have hb := runBody_reading hm.isStatic hbelow (of_runFrame_kept hr he)
    have hcommit := of_step_ok hclose
    rw [he] at hcommit
    exact ⟨(openMessage_readings hfork hm ho).trans
      (hb.world.trans (commit_sameContent hcommit).sameReadings),
      fun _ => ⟨hb.logs, hb.accountsToDelete, hb.refund⟩⟩

theorem runMessage_silent (hfork : env.fork ≠ .frontier) (hd : message.depth ≤ depthLimit)
    (hm : message.IsSilent) {frame : Frame} (h : runMessage message env w = .ok frame w') :
    Silent w frame w' := by
  let P (message : Message) (w : World) (r : EStateM.Result Stop World Frame) : Prop :=
    message.IsSilent → ∀ frame w', r = .ok frame w' → Silent w frame w'
  have hP : P message w (runMessage message env w) := by
    refine runMessage_induction (P := P) (fun message w _ ih hm frame w' h => ?_) hd w
    exact runInSnapshot_silent hfork hm
      (fun message' w' hd' hl' hm' frame' w'' h' => ih message' w' hd' hl' hm' frame' w'' h') h
  exact hP hm frame w' h

end Frames

theorem enter_yields_silent {c : Call} (r : Ranges) (hs : c.isStatic = true) (hv : c.value = 0) :
    Yields (fun p => ∀ pending ∈ p, pending.message.IsSilent) (enter c r) := by
  refine .bind fun _ => .bind fun parent => .ite (fun _ => ?_) fun _ => ?_
  · exact .bind fun _ => .bind fun _ => .bind fun _ => yields_pure nofun
  · refine .bind fun data => .bind fun s => yields_pure ?_
    rintro _ ⟨⟩
    refine ⟨rfl, ?_, Or.inr (Or.inl hv)⟩
    change (c.isStatic || parent.message.isStatic) = true
    rw [hs, Bool.true_or]

theorem staticcall_yields_silent :
    Yields (fun p => ∀ pending ∈ p, pending.message.IsSilent) staticcall :=
  .bind fun _ => .bind fun _ => .bind fun r => .bind fun _ => .bind fun _ => .bind fun _ =>
    .bind fun _ => .bind fun _ => enter_yields_silent r rfl rfl

/-- When a frame returns that a static call has entered, every account, every slot of storage and
every slot of transient storage reads as it did before. A frame that has not failed leaves no logs,
no accounts to delete and no refund. -/
theorem static_call_leaves_readings {env : Environment} {m m₁ : Machine} {pending : Pending}
    {frame : Frame} {w' : World} (hop : m.opcode? env = some .staticcall)
    (hf : fetch env m = .ok (some pending) m₁)
    (hl : launch runMessage pending.message env m₁.world = .ok frame w') :
    (∀ a, w'.state.account a = m₁.world.state.account a) ∧
    (∀ a k, w'.state.getStorage a k = m₁.world.state.getStorage a k) ∧
    (∀ a k, w'.transient.get a k = m₁.world.transient.get a k) ∧
    (frame.error = none → frame.logs = [] ∧ frame.accountsToDelete = ∅ ∧ frame.refund = 0) := by
  have hfork : env.fork ≠ .frontier := by
    intro hfrontier
    have hsince := since_le_of_opcode? hop
    rw [hfrontier] at hsince
    exact absurd hsince (by decide)
  have hfetched := fetch_fetched env m
  rw [hf] at hfetched
  rw [fetch_of_some hop] at hf
  obtain ⟨_, m₂, _, hexec⟩ := of_bind_ok hf
  have hsilent := staticcall_yields_silent env m₂ _ m₁ hexec pending rfl
  obtain ⟨a, htarget⟩ := Option.isSome_iff_exists.mp hsilent.target
  rw [launch_of_some htarget] at hl
  have hs := runMessage_silent hfork hfetched.2.2.le_limit hsilent hl
  exact ⟨hs.readings.account, hs.readings.slot, hs.readings.transient, hs.leaves⟩

/-- A static call of a contract that runs the code of an account which is not there, and sends value
along. -/
theorem static_call_leaves_readings_callcode :
    ∃ (env : Environment) (m m₁ : Machine) (pending : Pending) (frame : Frame) (w' : World),
      m.opcode? env = some .staticcall ∧ fetch env m = .ok (some pending) m₁ ∧
      launch runMessage pending.message env m₁.world = .ok frame w' ∧
      (m₁.world.state.account 5).code = ⟨#[0x60, 0, 0x60, 0, 0x60, 0, 0x60, 0, 0x60, 1, 0x60, 6,
        0x61, 0x20, 0, 0xf2]⟩ ∧
      frame.error = none ∧ (∀ a, w'.state.account a = m₁.world.state.account a) ∧
      frame.logs = [] := by
  let env : Environment := { (default : Environment) with fork := .byzantium }
  let code : Bytes := ⟨#[0x60, 0, 0x60, 0, 0x60, 0, 0x60, 0, 0x60, 1, 0x60, 6,
    0x61, 0x20, 0, 0xf2]⟩
  let m : Machine :=
    { frame := { (default : Frame) with
        code := ⟨#[0xfa]⟩, stack := #[0, 0, 0, 0, 5, 60000], gasLeft := 100000 }
      world := { state := (State.setBalance {} 5 7).setCode 5 code } }
  have hop : m.opcode? env = some .staticcall := by decide +kernel
  have hrun : okWith (fun pending? m₁ => pending?.any fun pending =>
      okWith (fun frame _ => frame.error.isNone && (m₁.world.state.account 5).code = code)
        (launch runMessage pending.message env m₁.world)) (fetch env m) = true := by decide +kernel
  obtain ⟨pending?, m₁, hf, hrun⟩ := of_okWith hrun
  obtain ⟨pending, rfl, hrun⟩ := (Option.any_eq_true _ _).mp hrun
  obtain ⟨frame, w', hl, hrun⟩ := of_okWith hrun
  simp only [Bool.and_eq_true, Option.isNone_iff_eq_none, decide_eq_true_eq] at hrun
  obtain ⟨haccount, -, -, hleaves⟩ := static_call_leaves_readings hop hf hl
  exact ⟨env, m, m₁, pending, frame, w', hop, hf, hl, hrun.2, hrun.1, haccount, (hleaves hrun.1).1⟩

end ExecutionLayer.Evm
