import ExecutionLayer.Proofs.Evm.Reach

/-! # Conservation of ether

Frames move ether from account to account, and only a destruction may lose some. No balance can
overflow while the sum of all is a word, except in one way: before Cancun an account that is its own
beneficiary holds its balance twice for a moment.
-/
namespace ExecutionLayer.Evm
open Exec Step Relation
variable {f : Fault} {frame : Frame}

/-! ## Destruction -/

structure Destroys (env : Environment) (m : Machine) : Prop where
  active : m.IsActive
  opcode : m.opcode? env = some .selfdestruct

/-- The next instruction pays for the destruction of its own account in favour of itself, and the
account holds so much that twice as much is not a word. -/
structure DestroysOntoItself (env : Environment) (m : Machine) : Prop extends Destroys env m where
  fork : env.fork < Fork.cancun
  paid : ∃ m', payDestruction env m = .ok m.frame.message.currentTarget m'
  balance : Word.half ≤ m.world.state.balance m.frame.message.currentTarget

theorem Word.half_add_half : Word.half + Word.half = Word.limit := by decide

section Destruction
variable {env : Environment} {m m' : Machine} {account beneficiary : Address}

theorem destroy_total_le (hT : m.world.state.total < Word.limit)
    (h : beneficiary = account → m.world.state.balance account < Word.half) :
    ∃ m', destroy account beneficiary env m = .ok () m' ∧
      m'.world.state.total ≤ m.world.state.total := by
  have hhalf := Word.half_add_half
  have hlt : m.world.state.balance beneficiary + m.world.state.balance account < Word.limit := by
    by_cases hb : beneficiary = account
    · subst hb
      have := h rfl
      omega
    · exact (State.balance_add_balance_le_total hb).trans_lt hT
  rw [destroy_apply, State.addBalance_of_lt hlt]
  exact ⟨_, rfl, State.total_pay_then_empty_le hlt⟩

theorem destroyIfCreated_total_le (hT : m.world.state.total < Word.limit) :
    ∃ m', destroyIfCreated account beneficiary env m = .ok () m' ∧
      m'.world.state.total ≤ m.world.state.total := by
  obtain ⟨t, hm, -, ht⟩ := State.moveEther_of_le (a := account) (b := beneficiary)
    (x := (m.world.state.account account).balance) hT le_rfl
  rw [destroyIfCreated_apply, hm]
  dsimp only
  split
  · exact ⟨_, rfl, (State.total_setBalance_zero_le t account).trans ht.le⟩
  · exact ⟨_, rfl, ht.le⟩

theorem giveAway_of_cancun (h : Fork.cancun ≤ env.fork) :
    giveAway account beneficiary env m = destroyIfCreated account beneficiary env m := by
  unfold giveAway
  rw [bind_of_ok fork_ok, if_pos h]

theorem giveAway_of_lt (h : env.fork < Fork.cancun) :
    giveAway account beneficiary env m = destroy account beneficiary env m := by
  have hn : ¬Fork.cancun ≤ env.fork := Nat.not_le_of_lt h
  unfold giveAway
  rw [bind_of_ok fork_ok, if_neg hn]

theorem giveAway_total_le (env : Environment) (account beneficiary : Address)
    (hT : m.world.state.total < Word.limit) :
    (env.fork < Fork.cancun ∧ beneficiary = account ∧ Word.half ≤ m.world.state.balance account) ∨
      ∃ m', giveAway account beneficiary env m = .ok () m' ∧
        m'.world.state.total ≤ m.world.state.total := by
  refine or_iff_not_imp_left.mpr fun h => ?_
  by_cases hf : env.fork < Fork.cancun
  · rw [giveAway_of_lt hf]
    exact destroy_total_le hT fun hb => Nat.lt_of_not_le fun hle => h ⟨hf, hb, hle⟩
  · rw [giveAway_of_cancun (Nat.le_of_not_lt hf)]
    exact destroyIfCreated_total_le hT

theorem giveAway_overflow (hf : env.fork < Fork.cancun)
    (h : Word.half ≤ m.world.state.balance account) :
    giveAway account account env m = .error (.imbalance .overflow) m := by
  have hhalf := Word.half_add_half
  rw [giveAway_of_lt hf, destroy_apply, State.addBalance_of_le (by omega)]

theorem endDestruction_still (beneficiary : Address) :
    Keeps Still 0 (touchIfEmpty beneficiary >>= fun _ => finish) :=
  Made.kept

theorem selfdestruct_of_paid (h : payDestruction env m = .ok beneficiary m') :
    selfdestruct env m = (giveAway m'.frame.message.currentTarget beneficiary >>= fun _ =>
      touchIfEmpty beneficiary >>= fun _ => finish) env m' := by
  unfold selfdestruct
  rw [bind_of_ok h, bind_of_ok message_ok]

theorem still_of_paid (h : payDestruction env m = .ok beneficiary m') : Still m m' := by
  have hs := (Made.kept : Keeps Still 0 payDestruction).within env m
  rw [h] at hs
  exact hs.1

theorem selfdestruct_total_le (hT : m.world.state.total < Word.limit)
    (h : selfdestruct env m = .ok () m') : m'.world.state.total ≤ m.world.state.total := by
  obtain ⟨beneficiary, m₁, hp, -⟩ := of_bind_ok h
  have hs := still_of_paid hp
  rw [selfdestruct_of_paid hp] at h
  obtain ⟨_, m₂, hg, he⟩ := of_bind_ok h
  have hend := (endDestruction_still beneficiary).within env m₂
  rw [he] at hend
  rw [hend.1.state, ← hs.state]
  rw [← hs.state] at hT
  rcases giveAway_total_le env m₁.frame.message.currentTarget beneficiary hT with
    ⟨hf, rfl, hb⟩ | ⟨m₃, hg', ht⟩
  · rw [giveAway_overflow hf hb] at hg
    cases hg
  · rw [hg] at hg'
    cases hg'
    exact ht

theorem selfdestruct_imbalance (hT : m.world.state.total < Word.limit)
    (h : selfdestruct env m = .error (.imbalance f) m') : env.fork < Fork.cancun ∧
      (∃ m₁, payDestruction env m = .ok m.frame.message.currentTarget m₁) ∧
      Word.half ≤ m.world.state.balance m.frame.message.currentTarget := by
  cases hp : payDestruction env m with
  | error e m₁ =>
    have hs := (Made.kept : Keeps Still 0 payDestruction).within env m
    rw [hp] at hs
    unfold selfdestruct at h
    rw [bind_of_error hp] at h
    cases h
    exact absurd hs.2 id
  | ok beneficiary m₁ =>
    have hs := still_of_paid hp
    rw [selfdestruct_of_paid hp] at h
    rw [← hs.state] at hT
    rcases giveAway_total_le env m₁.frame.message.currentTarget beneficiary hT with
      ⟨hf, rfl, hb⟩ | ⟨m₂, hg, -⟩
    · rw [hs.state, hs.message] at hb
      rw [hs.message]
      exact ⟨hf, ⟨m₁, rfl⟩, hb⟩
    · have hend := (endDestruction_still beneficiary).within env m₂
      rw [bind_of_ok hg] at h
      rw [h] at hend
      exact absurd hend.2 id

theorem selfdestruct_overflow (hf : env.fork < Fork.cancun)
    (hp : payDestruction env m = .ok m.frame.message.currentTarget m')
    (hb : Word.half ≤ m.world.state.balance m.frame.message.currentTarget) :
    selfdestruct env m = .error (.imbalance .overflow) m' := by
  have hs := still_of_paid hp
  rw [selfdestruct_of_paid hp, hs.message]
  rw [← hs.state] at hb
  exact bind_of_error (giveAway_overflow hf hb) _

end Destruction

/-! ## Instructions -/

section Instructions
variable {env : Environment} {m m' : Machine}

theorem trace_of_untraced (hu : m.world.tracer = none) (event : Trace.Event) :
    trace event env m = .ok () m := by
  unfold trace
  rw [hu]

theorem fetch_of_selfdestruct (hu : m.world.tracer = none) (h : m.opcode? env = some .selfdestruct)
    : fetch env m = (selfdestruct >>= fun _ => pure none) env m := by
  rw [fetch_of_some h, bind_of_ok (trace_of_untraced hu _)]
  rfl

def Settled {α : Type} (m : Machine) : EStateM.Result Stop Machine α → Prop
  | .ok _ m' => Steady m m'
  | .error stop _ => ∀ f, stop ≠ .imbalance f

theorem Settled.of_within {α : Type} {cost : Int} {r : EStateM.Result Stop Machine α}
    (h : Within Steady cost m r) : Settled m r := by
  rcases r with ⟨_, m'⟩ | ⟨stop, m'⟩
  · exact h.1
  · rintro f rfl
    exact h.2

theorem Settled.of_prepared {cost : Int} {r : EStateM.Result Stop Machine (Option Pending)}
    (h : Prepared env cost m r) : Settled m r := by
  rcases r with ⟨_ | pending, m'⟩ | ⟨stop, m'⟩
  · exact h.1
  · exact h.1
  · rintro f rfl
    exact h.2

theorem Settled.skip {α β : Type} {x : Exec α} {f : α → Exec β} (hx : Keeps Steady 0 x)
    (hf : ∀ v m', Settled m' (f v env m')) : Settled m ((x >>= f) env m) := by
  have hw := hx.within env m
  cases h : x env m with
  | ok v m₁ =>
    rw [h] at hw
    rw [bind_of_ok h]
    have hv := hf v m₁
    cases hr : f v env m₁ with
    | ok u m₂ =>
      rw [hr] at hv
      exact IsTrans.trans _ _ _ hw.1 hv
    | error stop m₂ =>
      rw [hr] at hv
      exact hv
  | error stop m₁ =>
    rw [h] at hw
    rw [bind_of_error h]
    rintro f rfl
    exact hw.2

theorem fetch_settled (hd : m.opcode? env ≠ some .selfdestruct) : Settled m (fetch env m) := by
  cases hop : m.opcode? env with
  | none =>
    rw [fetch_of_none hop]
    exact fun _ => by simp
  | some op =>
    rw [fetch_of_some hop]
    by_cases hstop : op = .stop
    · subst hstop
      exact .of_within ((Made.kept : Keeps Steady 0 (do trace _; stop; return none)).within env m)
    by_cases hret : op = .ret
    · subst hret
      exact .of_within ((Made.kept : Keeps Steady 0 (do trace _; ret; return none)).within env m)
    by_cases hrevert : op = .revert
    · subst hrevert
      refine .skip Made.kept fun _ m' => ?_
      change Settled m' ((revert >>= fun _ => pure none) env m')
      unfold revert
      rw [bind_assoc]
      exact .skip Made.kept fun _ _ _ => by simp
    have hdestroy : op ≠ .selfdestruct := by
      rintro rfl
      exact hd hop
    exact .of_prepared ((Prepares.skip fun _ =>
      execute_prepares (since_le_of_opcode? hop) hstop hret hrevert hdestroy).prepared m)

end Instructions

/-! ## Frames that are kept -/

def Succeeds (env : Environment) (message : Message) (w : World) : Prop :=
  ∃ frame w', launch runMessage message env w = .ok frame w' ∧ frame.error = none

/-- From here on no account is destroyed in a frame that is kept. -/
def Intact (env : Environment) (m : Machine) : Prop :=
  ∀ m', Reaches env (Succeeds env) m m' → ¬Destroys env m'

/-- What a frame does to the sum of all balances. -/
structure Conserved (env : Environment) (message : Message) (w : World) (frame : Frame)
    (w' : World) : Prop where
  total_le : w'.state.total ≤ w.state.total
  total_eq_of_error : frame.error.isSome → w'.state.total = w.state.total
  total_eq : frame.error = none → (∀ m, Opens env message w m → Intact env m) →
    w'.state.total = w.state.total ∧ frame.accountsToDelete = ∅

/-- The result of running a message if the sum of all balances is a word. -/
def Conserving (env : Environment) (message : Message) (w : World) :
    EStateM.Result Stop World Frame → Prop
  | .ok frame w' => Conserved env message w frame w'
  | .error (.imbalance _) _ =>
    ∃ m m', Opens env message w m ∧ Reaches env (fun _ _ => True) m m' ∧ DestroysOntoItself env m'
  | .error _ _ => True

structure Solvent (env : Environment) (message : Message) (w : World) : Prop where
  total_lt : w.state.total < Word.limit
  funded : message.Funded env w.state
  untraced : w.tracer = none

def ConservesBelow (env : Environment) (depth : Nat) : Prop :=
  ∀ message w, message.depth = depth + 1 → message.depth ≤ depthLimit → Solvent env message w →
    Conserving env message w (launch runMessage message env w)

section Steps
variable {env : Environment} {m m' : Machine}

theorem Steady.total_eq (h : Steady m m') : m'.world.state.total = m.world.state.total :=
  State.total_congr h.balances

theorem resume_conserves {pending : Pending} (ha : m.IsActive) {m₁ : Machine} {child : Frame}
    {w : World} (hp : fetch env m = .ok (some pending) m₁)
    (hl : launch runMessage pending.message env m₁.world = .ok child w)
    (hc : Conserved env pending.message m₁.world child w)
    (hr : pending.resume child env { m₁ with world := w } = .ok () m') :
    m'.world.state.total ≤ m₁.world.state.total ∧ (Intact env m →
      m'.world.state.total = m₁.world.state.total ∧
        m'.frame.accountsToDelete = m₁.frame.accountsToDelete) := by
  have hmarks (hd : child.error = none → child.accountsToDelete = ∅) :
      m'.frame.accountsToDelete = m₁.frame.accountsToDelete := by
    obtain ⟨m₂, hq, ⟨-, ha⟩ | ⟨he, ha⟩⟩ := of_resume_ok hr
    · cases ha
      exact hq.accountsToDelete
    · cases ha
      rw [hq.accountsToDelete]
      dsimp only
      rw [hd he, addressUnion_empty, ite_self]
  rw [((resume_still pending child).sustained.of_ok hr).state]
  refine ⟨hc.total_le, fun hi => ?_⟩
  cases he : child.error with
  | some e =>
    refine ⟨hc.total_eq_of_error (by simp [he]), hmarks fun hn => ?_⟩
    rw [he] at hn
    cases hn
  | none =>
    -- The frame is kept, and what it reaches is reached from here.
    have hbelow (m₂ : Machine) (ho : Opens env pending.message m₁.world m₂) : Intact env m₂ :=
      fun m₃ hr => hi m₃ (.enter ha hp ⟨child, w, hl, he⟩ ho hr)
    obtain ⟨ht, hd⟩ := hc.total_eq he hbelow
    exact ⟨ht, hmarks fun _ => hd⟩

theorem StepsTo.conserves (hs : StepsTo runMessage env m m') (hT : m.world.state.total < Word.limit)
    (hu : m.world.tracer = none) (hc : ConservesBelow env m.frame.message.depth) :
    m'.world.state.total ≤ m.world.state.total ∧ (Intact env m →
      m'.world.state.total = m.world.state.total ∧
        m'.frame.accountsToDelete = m.frame.accountsToDelete) := by
  by_cases hd : m.opcode? env = some .selfdestruct
  · obtain ⟨p, m₁, hp, ha⟩ := of_bind_ok hs.step
    rw [fetch_of_selfdestruct hu hd] at hp
    obtain ⟨_, m₂, hs₂, hn⟩ := of_bind_ok hp
    cases hn
    have ht : trace .opEnd env m₁ = .ok () m' := ha
    rw [(quiet_of_ok ht).state]
    exact ⟨selfdestruct_total_le hT hs₂, fun hi => absurd ⟨hs.active, hd⟩ (hi m (.refl m))⟩
  · have hset := fetch_settled hd
    cases hs.done with
    | alone hf ht =>
      rw [hf] at hset
      have hq := quiet_of_ok ht
      have htotal := Steady.total_eq hset
      rw [hq.state, hq.accountsToDelete]
      exact ⟨htotal.le, fun _ => ⟨htotal, hset.accountsToDelete⟩⟩
    | called hf hl hr ht =>
      rw [hf] at hset
      have hq := quiet_of_ok ht
      have htotal := Steady.total_eq hset
      have hasking := asking_of_fetch hf
      have hlaunch := hc _ _ hasking.depth hasking.le_limit
        ⟨by rwa [htotal], hasking.funded, hasking.untraced hu⟩
      rw [hl] at hlaunch
      obtain ⟨hle, heq⟩ := resume_conserves hs.active hf hl hlaunch hr
      rw [hq.state, hq.accountsToDelete]
      refine ⟨hle.trans htotal.le, fun hi => ?_⟩
      obtain ⟨ht, hm⟩ := heq hi
      exact ⟨ht.trans htotal, hm.trans hset.accountsToDelete⟩

theorem attend_none_ne (f : Fault) : attend runMessage none env m ≠ .error (.imbalance f) m' := by
  intro h
  have ht := (trace_quiet .opEnd).within env m
  rw [attend] at h
  rw [h] at ht
  exact ht.2

theorem attend_some_imbalance {pending : Pending}
    (h : attend runMessage (some pending) env m = .error (.imbalance f) m') :
    ∃ w, launch runMessage pending.message env m.world = .error (.imbalance f) w := by
  cases hl : launch runMessage pending.message env m.world with
  | error e w =>
    rw [attend_of_error hl] at h
    cases h
    exact ⟨w, rfl⟩
  | ok child w =>
    rw [attend_of_ok hl] at h
    have hs := ((resume_still pending child).pay fun _ => (trace_quiet .opEnd).still).within env
      { m with world := w }
    rw [h] at hs
    exact absurd hs.2 id

theorem stepInstruction_imbalance (hact : m.IsActive)
    (hs : stepInstruction runMessage env m = .error (.imbalance f) m')
    (hT : m.world.state.total < Word.limit) (hu : m.world.tracer = none)
    (hc : ConservesBelow env m.frame.message.depth) :
    ∃ m'', Reaches env (fun _ _ => True) m m'' ∧ DestroysOntoItself env m'' := by
  by_cases hd : m.opcode? env = some .selfdestruct
  · rcases of_bind_error hs with hf | ⟨p, m₁, hp, ha⟩
    · rw [fetch_of_selfdestruct hu hd] at hf
      rcases of_bind_error hf with hf | ⟨_, _, _, hn⟩
      · obtain ⟨hfork, hpaid, hb⟩ := selfdestruct_imbalance hT hf
        exact ⟨m, .refl m, ⟨hact, hd⟩, hfork, hpaid, hb⟩
      · cases hn
    · rw [fetch_of_selfdestruct hu hd] at hp
      obtain ⟨_, _, _, hn⟩ := of_bind_ok hp
      cases hn
      exact absurd ha (attend_none_ne f)
  · have hset := fetch_settled hd
    rcases of_bind_error hs with hf | ⟨p, m₁, hp, ha⟩
    · rw [hf] at hset
      exact absurd rfl (hset f)
    · rw [hp] at hset
      cases p with
      | none => exact absurd ha (attend_none_ne f)
      | some pending =>
        have hasking := asking_of_fetch hp
        have htotal : m₁.world.state.total = m.world.state.total := Steady.total_eq hset
        have hbelow := hc _ _ hasking.depth hasking.le_limit
          ⟨by rwa [htotal], hasking.funded, hasking.untraced hu⟩
        obtain ⟨w, hlaunch⟩ := attend_some_imbalance ha
        rw [hlaunch] at hbelow
        obtain ⟨m₂, m₃, ho, hr, hdest⟩ := hbelow
        exact ⟨m₃, .enter hact hp trivial ho hr, hdest⟩

/-! ## Runs -/

theorem steps_conserve (h : ReflTransGen (StepsTo runMessage env) m m')
    (hT : m.world.state.total < Word.limit) (hu : m.world.tracer = none)
    (hc : ConservesBelow env m.frame.message.depth) :
    m'.world.state.total ≤ m.world.state.total ∧ (Intact env m →
      m'.world.state.total = m.world.state.total ∧
        m'.frame.accountsToDelete = m.frame.accountsToDelete) := by
  induction h with
  | refl => exact ⟨le_rfl, fun _ => ⟨rfl, rfl⟩⟩
  | tail hr hs ih =>
    obtain ⟨hle, heq⟩ := ih
    obtain ⟨hl, -⟩ := steps_local hr (containsBelow env _)
    obtain ⟨hle', heq'⟩ := hs.conserves (hle.trans_lt hT) (hl.untraced hu) (by rwa [hl.message])
    refine ⟨hle'.trans hle, fun hi => ?_⟩
    obtain ⟨ht, hm⟩ := heq hi
    obtain ⟨ht', hm'⟩ := heq' fun m'' hr' => hi m'' (.of_steps hr hr')
    exact ⟨ht'.trans ht, hm'.trans hm⟩

theorem runCode_imbalance (hT : m.world.state.total < Word.limit) (hu : m.world.tracer = none)
    (hc : ConservesBelow env m.frame.message.depth) {fuel : Nat}
    (h : runCode runMessage fuel env m = .error (.imbalance f) m') :
    ∃ m'', Reaches env (fun _ _ => True) m m'' ∧ DestroysOntoItself env m'' := by
  obtain ⟨m₁, hr, he⟩ := runCode_ends runMessage env fuel m
  rw [h] at he
  obtain ⟨ha, hs⟩ := he.of_imbalance
  obtain ⟨hl, -⟩ := steps_local hr (containsBelow env _)
  have hle := (steps_conserve hr hT hu hc).1
  obtain ⟨m₂, hr₂, hd⟩ := stepInstruction_imbalance ha hs (hle.trans_lt hT) (hl.untraced hu)
    (by rwa [hl.message])
  exact ⟨m₂, .of_steps hr hr₂, hd⟩

end Steps

/-! ## Messages -/

section Messages
variable {env : Environment} {message : Message} {w w' : World} {m m' : Machine}

theorem balance_begin (s : State) (a : Address) : s.begin.balance a = s.balance a := rfl

theorem openMessage_total (h : Solvent env message w) : ∃ w', openMessage message env w = .ok () w' ∧
    w'.state.total = w.state.total ∧ w'.tracer = none := by
  have hbalance (a : Address) :
      (w.begin.state.touch message.currentTarget).balance a = w.state.balance a :=
    (State.balance_touch _ _ _).trans (balance_begin _ _)
  have htotal : (w.begin.state.touch message.currentTarget).total = w.state.total :=
    State.total_congr hbalance
  have hmove (hsends : message.shouldTransferValue = true ∨ env.fork = .frontier) :=
    State.moveEther_of_le (a := message.caller) (b := message.currentTarget) (x := message.value)
      (by rw [htotal]; exact h.total_lt) (by rw [hbalance]; exact h.funded hsends)
  have hopening := openMessage_opening env message w
  generalize openMessage message env w = r at hopening
  cases hopening with
  | plain => exact ⟨_, rfl, htotal, h.untraced⟩
  | paid hsends _ hm =>
    obtain ⟨t, ht, -, hsum⟩ := hmove hsends
    rw [hm] at ht
    cases ht
    exact ⟨_, rfl, hsum.trans htotal, h.untraced⟩
  | failed hsends hm =>
    obtain ⟨t, ht, -⟩ := hmove hsends
    rw [hm] at ht
    cases ht

theorem balance_prepareAccount (fork : Fork) (address a : Address) (s : State) :
    (prepareAccount fork address s).balance a = s.balance a := by
  have hdestroy (s : State) : (s.destroyStorage address).balance a = s.balance a := rfl
  have hmark (s : State) : (s.markCreated address).balance a = s.balance a := rfl
  unfold prepareAccount
  dsimp only
  split <;> split <;> split <;> simp only [hdestroy, hmark, State.balance_incrementNonce]

theorem openFrame_total (h : Solvent env message w) : ∃ w', openFrame message env w = .ok () w' ∧
    w'.state.total = w.state.total ∧ w'.tracer = none := by
  unfold openFrame
  cases message.target with
  | some _ => exact openMessage_total h
  | none =>
    let w₁ := w.begin.modifyState (prepareAccount env.fork message.currentTarget)
    have hcreate : openCreation message env w = .ok () w₁ := rfl
    have hbalance (a : Address) : w₁.state.balance a = w.state.balance a :=
      (balance_prepareAccount _ _ _ _).trans (balance_begin _ _)
    have htotal : w₁.state.total = w.state.total := State.total_congr hbalance
    have hs : Solvent env message w₁ := by
      refine ⟨?_, fun ht => ?_, h.untraced⟩
      · rw [htotal]
        exact h.total_lt
      · rw [hbalance]
        exact h.funded ht
    obtain ⟨w', ho, ht, hu⟩ := openMessage_total hs
    exact ⟨w', (bind_of_ok hcreate _).trans ho, ht.trans htotal, hu⟩

theorem Closes.balance {frame frame' : Frame} (h : Closes message frame w frame' w') (a : Address) :
    w'.state.balance a = w.state.balance a := by
  have hsame {w : World} (h : SameContent w w') : w'.state.balance a = w.state.balance a := by
    rw [State.balance, State.balance, State.account, State.account, State.account?, State.account?,
      h.accounts]
  rcases h.content with hcontent | ⟨-, code, hcontent⟩
  · exact hsame hcontent
  · exact (hsame hcontent).trans (State.balance_setCode _ _ a code)

theorem step_ne {g : World → Except Fault World} (f : Fault) :
    WorldOp.step g env w ≠ .error (.imbalance f) w' := by
  unfold WorldOp.step
  cases g w <;> simp

theorem step_return_ne {g : World → Except Fault World} (f : Fault) :
    (WorldOp.step g >>= fun _ => (pure frame : WorldOp Frame)) env w ≠ .error (.imbalance f) w' := by
  intro h
  rcases of_bind_error h with h₁ | ⟨_, _, _, h₁⟩
  · exact step_ne f h₁
  · cases h₁

theorem depositCode_ne (f : Fault) :
    depositCode message frame env w ≠ .error (.imbalance f) w' := by
  intro h
  rcases depositCode_cases env message frame w with ⟨_, _, _, _, -, -, -, hrun⟩ | ⟨_, _, hrun⟩
  · rw [hrun] at h
    exact step_return_ne f h
  · rw [hrun] at h
    cases h

theorem closeFrame_ne (f : Fault) : closeFrame message frame env w ≠ .error (.imbalance f) w' := by
  intro h
  rcases of_bind_error h with h₁ | ⟨_, w₁, _, h₁⟩
  · exact step_ne f h₁
  · cases ht : message.target with
    | some _ =>
      rw [ht] at h₁
      cases h₁
    | none =>
      rw [ht] at h₁
      dsimp only at h₁
      split at h₁
      · exact step_return_ne f h₁
      · exact depositCode_ne f h₁

theorem runBody_conserves (ho : openFrame message env w = .ok () w')
    (hT : w'.state.total < Word.limit) (hu : w'.tracer = none)
    (hc : ConservesBelow env message.depth)
    (h : runBody runMessage message env ⟨.ofMessage message, w'⟩ = .ok () m) :
    m.world.state.total ≤ w'.state.total ∧ ((∀ m, Opens env message w m → Intact env m) →
      m.world.state.total = w'.state.total ∧ m.frame.accountsToDelete = ∅) := by
  obtain ⟨m₁, hr, hq, hp⟩ := of_runBody_ok h
  rw [hq.state, hq.accountsToDelete]
  rcases hp with hp | rfl
  · obtain ⟨hle, heq⟩ := steps_conserve hr hT hu hc
    exact ⟨hle, fun hi => heq (hi _ ⟨hp, ho, rfl⟩)⟩
  · exact ⟨le_rfl, fun _ => ⟨rfl, rfl⟩⟩

theorem runBody_imbalance (ho : openFrame message env w = .ok () w')
    (hT : w'.state.total < Word.limit) (hu : w'.tracer = none)
    (hc : ConservesBelow env message.depth)
    (h : runBody runMessage message env ⟨.ofMessage message, w'⟩ = .error (.imbalance f) m) :
    ∃ m m', Opens env message w m ∧ Reaches env (fun _ _ => True) m m' ∧
      DestroysOntoItself env m' := by
  cases hp : message.precompile? env with
  | some contract =>
    have hq := runBody_quiet runMessage ⟨.ofMessage message, w'⟩ hp
    rw [h] at hq
    exact absurd hq.2 id
  | none =>
    rw [runBody_of_none hp] at h
    obtain ⟨m', hr, hdest⟩ := runCode_imbalance hT hu hc h
    exact ⟨_, m', ⟨hp, ho, rfl⟩, hr, hdest⟩

theorem of_runFrame_imbalance (h : runFrame runMessage message env w = .error (.imbalance f) w') :
    ∃ m, runBody runMessage message env ⟨.ofMessage message, w⟩ = .error (.imbalance f) m := by
  rcases hb : runBody runMessage message env ⟨.ofMessage message, w⟩ with
    ⟨_, m⟩ | ⟨e | g | g, m⟩
  · rw [runFrame_of_ok hb] at h
    cases h
  · rcases runFrame_of_halt hb with ⟨m', hf, -⟩ | ⟨g, hf⟩
    · rw [hf] at h
      cases h
    · rw [hf] at h
      cases h
  · rw [runFrame_of_stop (fun _ => by simp) hb] at h
    cases h
  · rw [runFrame_of_stop (fun _ => by simp) hb] at h
    cases h
    exact ⟨m, rfl⟩

/-- A message leaves the sum of all balances as it was, if it fails or if no account is destroyed in
a frame that is kept; it is stopped by an imbalance only where an account is destroyed onto
itself. -/
theorem launch_conserving (hd : message.depth ≤ depthLimit) (hs : Solvent env message w) :
    Conserving env message w (launch runMessage message env w) := by
  induction hk : depthLimit - message.depth using Nat.strong_induction_on
    generalizing message w with
  | _ k ih =>
    have hc : ConservesBelow env message.depth := fun message' w' h' hd' hs' =>
      ih (depthLimit - message'.depth) (by omega) hd' hs' rfl
    obtain ⟨w₁, ho, ht, hu⟩ := openFrame_total hs
    have hT : w₁.state.total < Word.limit := by
      rw [ht]
      exact hs.total_lt
    rcases hl : launch runMessage message env w with ⟨frame, w'⟩ | ⟨e | f | f, w'⟩
    · cases he : frame.error with
      | some e =>
        have hsame := (launch_returned hl).unchanged (by simp [he])
        have heq : w'.state.total = w.state.total := by
          unfold State.total
          rw [hsame.accounts]
        refine ⟨heq.le, fun _ => heq, fun hn => ?_⟩
        rw [he] at hn
        cases hn
      | none =>
        rw [launch_eq hd, bind_of_ok ho] at hl
        obtain ⟨frame₁, w₂, hf, hclose⟩ := of_bind_ok hl
        have hclosed := of_closeFrame_ok hclose he
        have htotal : w'.state.total = w₂.state.total := State.total_congr hclosed.balance
        obtain ⟨hle, heq⟩ := runBody_conserves ho hT hu hc (of_runFrame_kept hf hclosed.error)
        rw [← htotal, ht] at hle
        refine ⟨hle, fun hn => ?_, fun _ hi => ?_⟩
        · rw [he] at hn
          cases hn
        · obtain ⟨heq', hmarks⟩ := heq hi
          exact ⟨htotal.trans (heq'.trans ht), hclosed.accountsToDelete.trans hmarks⟩
    · trivial
    · trivial
    · rw [launch_eq hd, bind_of_ok ho] at hl
      rcases of_bind_error hl with hf | ⟨frame₁, w₂, _, hclose⟩
      · obtain ⟨m, hb⟩ := of_runFrame_imbalance hf
        exact runBody_imbalance ho hT hu hc hb
      · exact absurd hclose (closeFrame_ne f)

theorem DestroysOntoItself.raises (h : DestroysOntoItself env m) (hu : m.world.tracer = none) :
    Raises env (.imbalance .overflow) m := by
  obtain ⟨m₁, hp⟩ := h.paid
  have hs := selfdestruct_overflow h.fork hp h.balance
  have hstep : stepInstruction runMessage env m = .error (.imbalance .overflow) m₁ := by
    unfold stepInstruction
    refine bind_of_error ?_ _
    rw [fetch_of_selfdestruct hu h.opcode]
    exact bind_of_error hs _
  exact .of_step h.active hstep

theorem launch_of_destruction {m' : Machine} (hd : message.depth ≤ depthLimit)
    (hu : w.tracer = none) (ho : Opens env message w m)
    (hr : Reaches env (fun _ _ => True) m m') (hdest : DestroysOntoItself env m') :
    ∃ w', launch runMessage message env w = .error (.imbalance .overflow) w' :=
  (hr.raises (by simp) (hdest.raises (hr.untraced (ho.untraced hu)))).launch (by simp) ho hd

theorem launch_imbalance_iff (hd : message.depth ≤ depthLimit) (hs : Solvent env message w) :
    (∃ f w', launch runMessage message env w = .error (.imbalance f) w') ↔
      ∃ m m', Opens env message w m ∧ Reaches env (fun _ _ => True) m m' ∧
        DestroysOntoItself env m' := by
  constructor
  · rintro ⟨f, w', hl⟩
    have hc := launch_conserving hd hs
    rw [hl] at hc
    exact hc
  · rintro ⟨m, m', ho, hr, hdest⟩
    exact ⟨_, launch_of_destruction hd hs.untraced ho hr hdest⟩

end Messages

end ExecutionLayer.Evm
