import ExecutionLayer.Proofs.Evm.Course

/-! # Accounts outside a message

Frames change the account that they act for, and can send ether away from it. An account for which
no frame of a message acts, and which does not send it, keeps code, nonce and storage, and can only
be given ether.
-/
namespace ExecutionLayer.Evm
open Exec Step Relation

/-- An account has kept its code, its nonce and its storage, and has lost no ether. -/
structure Undisturbed (a : Address) (s : State) (t : Transient) (s' : State) (t' : Transient) :
    Prop where
  code : (s'.account a).code = (s.account a).code
  nonce : (s'.account a).nonce = (s.account a).nonce
  storage : ∀ key, s'.getStorage a key = s.getStorage a key
  transient : ∀ key, t'.get a key = t.get a key
  balance : (s.account a).balance.toNat ≤ (s'.account a).balance.toNat

section Undisturbed
variable {a b : Address} {s s' s'' : State} {t t' t'' : Transient} {env : Environment}

theorem Undisturbed.refl (a : Address) (s : State) (t : Transient) : Undisturbed a s t s t :=
  ⟨rfl, rfl, fun _ => rfl, fun _ => rfl, le_rfl⟩

theorem Undisturbed.trans (h : Undisturbed a s t s' t') (h' : Undisturbed a s' t' s'' t'') :
    Undisturbed a s t s'' t'' where
  code := h'.code.trans h.code
  nonce := h'.nonce.trans h.nonce
  storage key := (h'.storage key).trans (h.storage key)
  transient key := (h'.transient key).trans (h.transient key)
  balance := h.balance.trans h'.balance

theorem undisturbed_of_account (ha : s'.account a = s.account a)
    (hs : ∀ key, s'.storage.get a key = s.storage.get a key) : Undisturbed a s t s' t :=
  ⟨by rw [ha], by rw [ha], hs, fun _ => rfl, by rw [ha]⟩

theorem SameContent.undisturbed {w w' : World} (h : SameContent w w') (a : Address) :
    Undisturbed a w.state w.transient w'.state w'.transient := by
  have ha : w'.state.account a = w.state.account a :=
    State.account_of_account? (State.account?_of_accounts h.accounts a)
  refine ⟨by rw [ha], by rw [ha], fun key => ?_, fun key => ?_, by rw [ha]⟩
  · rw [State.getStorage, State.getStorage, h.storage]
  · rw [Transient.get, Transient.get, h.transient]

theorem undisturbed_of_pays {payer payee : Address} (h : s.Pays payer payee s') (ha : a ≠ payer) :
    Undisturbed a s t s' t := by
  refine ⟨h.sameCode.code a, h.nonce a, fun key => ?_, fun _ => rfl, h.balance a ha⟩
  rw [h.rest]
  rfl

theorem undisturbed_incrementNonce (h : a ≠ b) (s : State) (t : Transient) :
    Undisturbed a s t (s.incrementNonce b) t :=
  undisturbed_of_account
    (State.account_of_account? (State.account?_modifyAccount_of_ne (Ne.symm h))) fun _ => rfl

theorem Effect.undisturbed {c c' : Standing} {p : Option Message} (h : Effect env c p c')
    (ha : a ≠ c.current) : Undisturbed a c.state c.transient c'.state c'.transient := by
  cases h with
  | calm => exact .refl _ _ _
  | store key value =>
    refine undisturbed_of_account rfl fun key' => ?_
    dsimp only
    rw [Storage.get_set, if_neg (fun h => ha h.1.symm)]
  | storeTransient key value =>
    refine ⟨rfl, rfl, fun _ => rfl, fun key' => ?_, le_rfl⟩
    change (c.transient.storage.set c.current key value).get a key' = _
    rw [Storage.get_set, if_neg (fun h => ha h.1.symm)]
    rfl
  | collide => exact undisturbed_incrementNonce ha _ _
  | destroy h =>
    rw [h.transient]
    exact undisturbed_of_pays h.pays ha
  | call _ => exact .refl _ _ _
  | create _ => exact undisturbed_incrementNonce ha _ _

end Undisturbed

def Message.Sends (env : Environment) (message : Message) : Prop :=
  message.shouldTransferValue = true ∨ env.fork = .frontier

section Opening
variable {a : Address} {env : Environment} {message : Message} {w w' : World}

theorem openMessage_undisturbed (h : openMessage message env w = .ok () w')
    (ha : message.Sends env → a ≠ message.caller) :
    Undisturbed a w.state w.transient w'.state w'.transient := by
  obtain ⟨s, rfl, hs⟩ := of_openMessage_ok h
  have htouch : Undisturbed a w.state w.transient (w.begin.state.touch message.currentTarget)
      w.begin.transient := by
    refine ⟨?_, ?_, fun key => ?_, fun _ => rfl, ?_⟩
    · rw [State.account_touch]
      rfl
    · rw [State.account_touch]
      rfl
    · unfold State.touch
      split <;> rfl
    · rw [State.account_touch]
      exact le_rfl
  rcases hs with rfl | ⟨hsends, -, hpays⟩
  · exact htouch
  · exact htouch.trans (undisturbed_of_pays hpays (ha hsends))

theorem openCreation_undisturbed (h : openCreation message env w = .ok () w')
    (ha : a ≠ message.currentTarget) : Undisturbed a w.state w.transient w'.state w'.transient := by
  have hw : w' = w.begin.modifyState (prepareAccount env.fork message.currentTarget) :=
    (EStateM.Result.ok.inj h).2.symm
  subst hw
  change Undisturbed a w.state w.transient
    (prepareAccount env.fork message.currentTarget w.begin.state) w.begin.transient
  have hbegin : Undisturbed a w.state w.transient w.begin.state w.begin.transient :=
    ⟨rfl, rfl, fun _ => rfl, fun _ => rfl, le_rfl⟩
  have hstorage (s : State) (t : Transient) : Undisturbed a s t
      (if env.fork = .daoFork then s else s.destroyStorage message.currentTarget) t := by
    split
    · exact .refl _ _ _
    · refine undisturbed_of_account rfl fun key => ?_
      rw [State.destroyStorage, Storage.get_erase, if_neg (Ne.symm ha)]
  have hcreated (s : State) (t : Transient) : Undisturbed a s t
      (if Fork.istanbul ≤ env.fork then s.markCreated message.currentTarget else s) t := by
    split
    · exact undisturbed_of_account rfl fun _ => rfl
    · exact .refl _ _ _
  have hnonce (s : State) (t : Transient) : Undisturbed a s t
      (if Fork.spuriousDragon ≤ env.fork then s.incrementNonce message.currentTarget else s) t := by
    split
    · exact undisturbed_incrementNonce ha _ _
    · exact .refl _ _ _
  unfold prepareAccount
  exact ((hbegin.trans (hstorage _ _)).trans (hcreated _ _)).trans (hnonce _ _)

end Opening

def Machine.Asks (env : Environment) (m : Machine) (message : Message) : Prop :=
  ∃ m' pending m₁, Reaches env (fun _ _ => True) m m' ∧ m'.IsActive ∧
    fetch env m' = .ok (some pending) m₁ ∧ pending.message = message

structure Begins (env : Environment) (message : Message) (w : World) (m : Machine) : Prop where
  code : message.precompile? env = none
  opened : openMessage message env w = .ok () m.world
  frame : m.frame = .ofMessage message

/-- The messages of all frames that run for a message: its own, and those that instructions of
such frames ask for. -/
inductive CallTree (env : Environment) (message : Message) (w : World) : Message → Prop
  | top : CallTree env message w message
  | below {m : Machine} {message' : Message} : Begins env message w m → m.Asks env message' →
      CallTree env message w message'

def Avoids (env : Environment) (a : Address) (message : Message) (w : World) : Prop :=
  ∀ message', CallTree env message w message' → a ≠ message'.currentTarget

section Trees
variable {a : Address} {env : Environment} {message : Message} {w w' : World}
  {m m' m₁ m₂ : Machine} {pending : Pending} {frame : Frame}

theorem Machine.Asks.of_step (hs : StepsTo runMessage env m m') (h : m'.Asks env message) :
    m.Asks env message := by
  obtain ⟨m'', pending, m₁, hr, hrest⟩ := h
  exact ⟨m'', pending, m₁, .next hs hr, hrest⟩

theorem Machine.Asks.of_enter (ha : m.IsActive) (hf : fetch env m = .ok (some pending) m₁)
    (ho : Opens env pending.message m₁.world m₂) (h : m₂.Asks env message) :
    m.Asks env message := by
  obtain ⟨m', pending', m'₁, hr, hrest⟩ := h
  exact ⟨m', pending', m'₁, .enter ha hf trivial ho hr, hrest⟩

theorem avoids_of_asks (hactive : m.IsActive) (hf : fetch env m = .ok (some pending) m₁)
    (hasks : ∀ message', m.Asks env message' → a ≠ message'.currentTarget)
    (ho : ∀ m₂ : Machine, openMessage pending.message env w = .ok () m₂.world →
      openFrame pending.message env m₁.world = .ok () m₂.world) :
    Avoids env a pending.message w := by
  intro message' ht
  cases ht with
  | top => exact hasks _ ⟨m, pending, m₁, .refl m, hactive, hf, rfl⟩
  | @below m₂ _ hb hm₂ =>
    exact hasks _ (.of_enter hactive hf ⟨hb.code, ho m₂ hb.opened, hb.frame⟩ hm₂)

def SparesBelow (env : Environment) (a : Address) (depth : Nat) : Prop :=
  ∀ message w frame w', message.depth = depth + 1 → runMessage message env w = .ok frame w' →
    (message.Sends env → a ≠ message.caller) → Avoids env a message w →
    Undisturbed a w.state w.transient w'.state w'.transient

theorem runCreate_undisturbed (h : runCreate runMessage message env w = .ok frame w')
    (ha : a ≠ message.currentTarget)
    (hrun : ∀ w₁ frame₁ w₂, openCreation message env w = .ok () w₁ →
      runMessage message env w₁ = .ok frame₁ w₂ →
      Undisturbed a w₁.state w₁.transient w₂.state w₂.transient) :
    Undisturbed a w.state w.transient w'.state w'.transient := by
  cases he : frame.error with
  | some e => exact ((runCreate_returned h).unchanged (by rw [he]; rfl)).undisturbed a
  | none =>
    obtain ⟨w₁, frame₁, w₂, ho, hr, ⟨rfl, hfail⟩ | ⟨-, hdeposits⟩⟩ := of_runCreate_ok h
    · rw [he] at hfail
      cases hfail
    · have hrest := (openCreation_undisturbed ho ha).trans (hrun w₁ frame₁ w₂ ho hr)
      rcases hdeposits.content he with ⟨code, hcontent⟩ | ⟨-, hcontent⟩
      · have hcode : Undisturbed a w₂.state w₂.transient
            (w₂.state.setCode message.currentTarget code) w₂.transient :=
          undisturbed_of_account
            (State.account_of_account? (State.account?_modifyAccount_of_ne (Ne.symm ha)))
            fun _ => rfl
        exact hrest.trans (hcode.trans (hcontent.undisturbed a))
      · exact hrest.trans (hcontent.undisturbed a)

theorem StepsTo.undisturbed (h : StepsTo runMessage env m m')
    (ha : a ≠ m.frame.message.currentTarget)
    (hasks : ∀ message', m.Asks env message' → a ≠ message'.currentTarget)
    (hbelow : SparesBelow env a m.frame.message.depth) :
    Undisturbed a m.world.state m.world.transient m'.world.state m'.world.transient := by
  rcases h.cases with heffect | ⟨pending, m₁, child, w, hattends⟩
  · exact heffect.undisturbed ha
  · have hf := hattends.fetched
    have hl := hattends.launched
    rw [hattends.state, hattends.transient]
    refine (hattends.effect.undisturbed ha).trans ?_
    rcases hattends.effect.asks with ⟨hcalls, -⟩ | ⟨hcreates, -⟩
    · have hsends : pending.message.Sends env → a ≠ pending.message.caller := by
        rcases hcalls.parties with ⟨hcaller, -⟩ | ⟨-, hvalue, hfork⟩
        · intro _
          rw [hcaller]
          exact ha
        · rintro (hs | hs)
          · rw [hs] at hvalue
            cases hvalue
          · exact absurd hs hfork
      rw [launch_of_some hcalls.target] at hl
      refine hbelow _ _ _ _ hattends.depth hl hsends
        (avoids_of_asks h.active hf hasks fun m₂ ho => ?_)
      unfold openFrame
      rw [hcalls.target]
      exact ho
    · have hsends : pending.message.Sends env → a ≠ pending.message.caller := by
        intro _
        rw [hcreates.caller]
        exact ha
      rw [launch_of_none hcreates.target] at hl
      refine runCreate_undisturbed hl
        (hasks _ ⟨m, pending, m₁, .refl m, h.active, hf, rfl⟩) fun w₁ frame₁ w₂ ho hr =>
          hbelow _ _ _ _ hattends.depth hr hsends
            (avoids_of_asks h.active hf hasks fun m₂ ho' => ?_)
      unfold openFrame
      rw [hcreates.target]
      exact (bind_of_ok ho _).trans ho'

theorem steps_undisturbed (h : ReflTransGen (StepsTo runMessage env) m m')
    (ha : a ≠ m.frame.message.currentTarget)
    (hasks : ∀ message', m.Asks env message' → a ≠ message'.currentTarget)
    (hbelow : SparesBelow env a m.frame.message.depth) :
    Undisturbed a m.world.state m.world.transient m'.world.state m'.world.transient := by
  induction h using ReflTransGen.head_induction_on with
  | refl => exact .refl _ _ _
  | head hs _ ih =>
    refine (hs.undisturbed ha hasks hbelow).trans (ih ?_ ?_ ?_)
    · rw [hs.message]
      exact ha
    · exact fun message' hm => hasks message' (.of_step hs hm)
    · rw [hs.message]
      exact hbelow

theorem runMessage_undisturbed (h : runMessage message env w = .ok frame w')
    (hsends : message.Sends env → a ≠ message.caller) (havoids : Avoids env a message w) :
    Undisturbed a w.state w.transient w'.state w'.transient := by
  induction hk : depthLimit - message.depth using Nat.strong_induction_on
    generalizing message w frame w' with
  | _ k ih =>
    have hbelow : SparesBelow env a message.depth := by
      intro message' w₁ frame' w₂ hd hrun hsends' havoids'
      have hlimit := depth_of_runMessage hrun
      exact ih (depthLimit - message'.depth) (by omega) hrun hsends' havoids' rfl
    cases he : frame.error with
    | some e => exact ((runMessage_returned h).unchanged (by rw [he]; rfl)).undisturbed a
    | none =>
      obtain ⟨w₁, w₂, ho, hr, hcontent⟩ := of_runMessage_ok h
      obtain ⟨m, hsteps, hcode, halike⟩ := of_runFrame_ok hr he
      have hrun : Undisturbed a w₁.state w₁.transient w₂.state w₂.transient := by
        have hs : w₂.state = m.world.state := congrArg Standing.state halike
        have ht : w₂.transient = m.world.transient := congrArg Standing.transient halike
        rw [hs, ht]
        rcases hcode with hcode | rfl
        · exact steps_undisturbed hsteps (havoids _ .top)
            (fun message' hm => havoids message' (.below ⟨hcode, ho, rfl⟩ hm)) hbelow
        · exact .refl _ _ _
      exact ((openMessage_undisturbed ho hsends).trans hrun).trans ((hcontent he).undisturbed a)

end Trees

/-- When a message or a creation returns, an account that does not send it and that none of its
frames acts for has the code, the nonce, the storage and the transient storage that it had before,
and no less ether. -/
theorem outsiders_undisturbed (env : Environment) (message : Message) (w : World) (frame : Frame)
    (w' : World) (a : Address) (hcaller : a ≠ message.caller)
    (hrun : runMessage message env w = .ok frame w' ∧
        (∀ message', CallTree env message w message' → a ≠ message'.currentTarget) ∨
      runCreate runMessage message env w = .ok frame w' ∧
        ∀ w₁ message', openCreation message env w = .ok () w₁ →
          CallTree env message w₁ message' → a ≠ message'.currentTarget) :
    (w'.state.account a).code = (w.state.account a).code ∧
      (w'.state.account a).nonce = (w.state.account a).nonce ∧
      (∀ key, w'.state.getStorage a key = w.state.getStorage a key) ∧
      (∀ key, w'.transient.get a key = w.transient.get a key) ∧
      (w.state.account a).balance.toNat ≤ (w'.state.account a).balance.toNat := by
  have hu : Undisturbed a w.state w.transient w'.state w'.transient := by
    rcases hrun with ⟨hrun, htree⟩ | ⟨hrun, htree⟩
    · exact runMessage_undisturbed hrun (fun _ => hcaller) htree
    · obtain ⟨w₁, ho, -⟩ := openCreation_begun env message w
      exact runCreate_undisturbed hrun (htree w₁ message ho .top) fun w₁ frame₁ w₂ ho hr =>
        runMessage_undisturbed hr (fun _ => hcaller) fun message' => htree w₁ message' ho
  exact ⟨hu.code, hu.nonce, hu.storage, hu.transient, hu.balance⟩

/-- Whether the frames that come up when a machine runs on, which are given so many instructions
each, all act for other accounts. -/
def avoidsWithin (env : Environment) (a : Address) : Nat → Machine → Bool
  | 0, _ => false
  | fuel + 1, m =>
    if m.frame.running && m.frame.pc < m.frame.code.size then
      match fetch env m with
      | .ok none m₁ =>
        match attend runMessage none env m₁ with
        | .ok _ m' => avoidsWithin env a fuel m'
        | .error _ _ => true
      | .ok (some pending) m₁ =>
        decide (a ≠ pending.message.currentTarget) &&
          (match openFrame pending.message env m₁.world with
          | .ok _ w => avoidsWithin env a fuel ⟨.ofMessage pending.message, w⟩
          | .error _ _ => true) &&
          match attend runMessage (some pending) env m₁ with
          | .ok _ m' => avoidsWithin env a fuel m'
          | .error _ _ => true
      | .error _ _ => true
    else true

theorem avoidsWithin_of_active {env : Environment} {a : Address} {m : Machine} {fuel : Nat}
    (h : avoidsWithin env a fuel m = true) (hm : m.IsActive) : ∃ n, fuel = n + 1 ∧
      match fetch env m with
      | .ok none m₁ =>
        ∀ m', attend runMessage none env m₁ = .ok () m' → avoidsWithin env a n m' = true
      | .ok (some pending) m₁ => a ≠ pending.message.currentTarget ∧
        (∀ w, openFrame pending.message env m₁.world = .ok () w →
          avoidsWithin env a n ⟨.ofMessage pending.message, w⟩ = true) ∧
        ∀ m', attend runMessage (some pending) env m₁ = .ok () m' → avoidsWithin env a n m' = true
      | .error _ _ => True := by
  have hc : (m.frame.running && decide (m.frame.pc < m.frame.code.size)) = true := by
    rw [Bool.and_eq_true, decide_eq_true_eq]
    exact hm
  cases fuel with
  | zero => cases h
  | succ n =>
    refine ⟨n, rfl, ?_⟩
    rw [avoidsWithin, if_pos hc] at h
    rcases hf : fetch env m with ⟨_ | pending, m₁⟩ | ⟨e, m₁⟩
    · rw [hf] at h
      intro m' hm'
      dsimp only at h
      rw [hm'] at h
      exact h
    · rw [hf] at h
      simp only [Bool.and_eq_true, decide_eq_true_eq] at h
      obtain ⟨⟨ha, hopen⟩, hattend⟩ := h
      refine ⟨ha, fun w hw => ?_, fun m' hm' => ?_⟩
      · rw [hw] at hopen
        exact hopen
      · rw [hm'] at hattend
        exact hattend
    · trivial

theorem avoids_of_avoidsWithin {env : Environment} {a : Address} {m : Machine} {fuel : Nat}
    (h : avoidsWithin env a fuel m = true) {message : Message} (hm : m.Asks env message) :
    a ≠ message.currentTarget := by
  obtain ⟨m', pending, m₁, hr, hactive, hf, rfl⟩ := hm
  induction hr generalizing fuel with
  | refl =>
    obtain ⟨n, -, hn⟩ := avoidsWithin_of_active h hactive
    rw [hf] at hn
    exact hn.1
  | @next m₂ m₃ _ hs _ ih =>
    obtain ⟨n, -, hn⟩ := avoidsWithin_of_active h hs.active
    obtain ⟨p, m₄, hp, ha⟩ := of_bind_ok hs.step
    rw [hp] at hn
    cases p with
    | none => exact ih (hn m₃ ha) hactive hf
    | some pending => exact ih (hn.2.2 m₃ ha) hactive hf
  | @enter _ _ m₂ _ pending' ha hf' _ ho _ ih =>
    obtain ⟨n, -, hn⟩ := avoidsWithin_of_active h ha
    rw [hf'] at hn
    have hm₂ : m₂ = ⟨.ofMessage pending'.message, m₂.world⟩ := by rw [← ho.frame]
    have hwithin : avoidsWithin env a n m₂ = true := by
      rw [hm₂]
      exact hn.2.1 m₂.world ho.opened
    exact ih hwithin hactive hf

/-- A contract sends ether to another one, which stores a word. A third one is not concerned. -/
theorem outsiders_undisturbed_call : ∃ (env : Environment) (message : Message) (w : World)
    (frame : Frame) (w' : World),
      runMessage message env w = .ok frame w' ∧ message.caller = 1 ∧
      (∀ message', CallTree env message w message' → 23 ≠ message'.currentTarget) ∧
      (w.state.account 23).balance = 3 ∧ w.state.getStorage 22 2 = 0 ∧ w'.state.getStorage 22 2 = 9 ∧
      (w'.state.account 23).nonce = (w.state.account 23).nonce ∧
      (∀ key, w'.state.getStorage 23 key = w.state.getStorage 23 key) ∧
      (w.state.account 23).balance.toNat ≤ (w'.state.account 23).balance.toNat := by
  let env : Environment := { (default : Environment) with fork := .byzantium }
  let code : Bytes :=
    ⟨#[0x60, 0, 0x60, 0, 0x60, 0, 0x60, 0, 0x60, 1, 0x60, 22, 0x61, 0xff, 0xff, 0xf1]⟩
  let s : State := (((State.setBalance {} 21 2).setCode 21 code).setCode 22
    ⟨#[0x60, 9, 0x60, 2, 0x55]⟩).setBalance 23 3
  let message : Message := { (default : Message) with
    caller := 1, target := some 21, currentTarget := 21, code := code, gas := 200000 }
  have hrun : (match runMessage message env { state := s } with
      | .ok _ w' => decide (w'.state.getStorage 22 2 = 9)
      | .error _ _ => false) = true := by decide +kernel
  have hopen : (match openMessage message env { state := s } with
      | .ok _ w => avoidsWithin env 23 20 ⟨.ofMessage message, w⟩
      | .error _ _ => false) = true := by decide +kernel
  have htree : ∀ message', CallTree env message { state := s } message' →
      23 ≠ message'.currentTarget := by
    intro message' ht
    cases ht with
    | top => decide
    | @below m _ hb hm =>
      rw [hb.opened] at hopen
      have hm' : m = ⟨.ofMessage message, m.world⟩ := by rw [← hb.frame]
      dsimp only at hopen
      rw [← hm'] at hopen
      exact avoids_of_avoidsWithin hopen hm
  split at hrun
  · next frame w' hr =>
    obtain ⟨-, hnonce, hstorage, -, hbalance⟩ := outsiders_undisturbed env message { state := s }
      frame w' 23 (by decide) (Or.inl ⟨hr, htree⟩)
    exact ⟨env, message, { state := s }, frame, w', hr, rfl, htree, by decide +kernel,
      by decide +kernel, of_decide_eq_true hrun, hnonce, hstorage, hbalance⟩
  · cases hrun

end ExecutionLayer.Evm
