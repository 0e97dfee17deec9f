import ExecutionLayer.Proofs.Evm.Isolation

/-! # Nonces and code

Nonces only grow while frames run, and an account that has a nonce or code keeps its code, for
contracts are created only where there is neither. The account of a sender has a nonce but no code:
no frame acts for it, so that its nonce stays, and no frame destroys it.
-/
namespace ExecutionLayer

namespace State
variable {s t u : State} {a b : Address}

/-- Nonces have not become smaller, and accounts with a nonce or code have kept their code. -/
structure Lasts (s t : State) : Prop where
  nonce : ∀ a, (s.account a).nonce ≤ (t.account a).nonce
  code : ∀ a, s.hasCodeOrNonce a = true → (t.account a).code = (s.account a).code

theorem hasCodeOrNonce_iff : s.hasCodeOrNonce a = true ↔
    (s.account a).nonce ≠ 0 ∨ (s.account a).code.size ≠ 0 := by
  simp [hasCodeOrNonce, Account.hasCodeOrNonce]

theorem Lasts.hasCodeOrNonce (h : Lasts s t) (ha : s.hasCodeOrNonce a = true) :
    t.hasCodeOrNonce a = true := by
  have hnonce := h.nonce a
  have hcode := h.code a ha
  rw [hasCodeOrNonce_iff] at ha ⊢
  rw [hcode]
  exact ha.imp_left (by omega)

theorem Lasts.trans (h : Lasts s t) (h' : Lasts t u) : Lasts s u where
  nonce a := (h.nonce a).trans (h'.nonce a)
  code a ha := (h'.code a (h.hasCodeOrNonce ha)).trans (h.code a ha)

theorem lasts_of_account (h : ∀ a, t.account a = s.account a) : Lasts s t :=
  ⟨fun a => by rw [h], fun a _ => by rw [h]⟩

theorem lasts_of_accounts (h : t.accounts = s.accounts) : Lasts s t :=
  lasts_of_account fun a => account_of_account? (account?_of_accounts h a)

theorem Lasts.refl (s : State) : Lasts s s := lasts_of_account fun _ => rfl

theorem Pays.lasts (h : Pays s a b t) : Lasts s t :=
  ⟨fun c => (h.nonce c).ge, fun c _ => h.sameCode.code c⟩

theorem lasts_incrementNonce (s : State) (a : Address) : Lasts s (s.incrementNonce a) := by
  refine ⟨fun b => ?_, fun b _ => sameCode_incrementNonce.code b⟩
  rw [nonce_incrementNonce]
  split <;> omega

/-- The account of a sender: it has sent something, and it has no code. -/
structure IsSender (s : State) (a : Address) : Prop where
  nonce : (s.account a).nonce ≠ 0
  code : (s.account a).code.size = 0

theorem IsSender.of_lasts (h : s.IsSender a) (hl : Lasts s t) : t.IsSender a := by
  have hle := hl.nonce a
  have hnonce := h.nonce
  refine ⟨by omega, ?_⟩
  rw [hl.code a (hasCodeOrNonce_iff.mpr (Or.inl h.nonce))]
  exact h.code

end State

namespace Evm
open Exec Step Relation
open State (Lasts)

variable {env : Environment} {message : Message} {w w' : World} {m m' : Machine} {frame : Frame}
  {a : Address}

theorem Effect.lasts {c c' : Standing} {p : Option Message} (h : Effect env c p c') :
    Lasts c.state c'.state := by
  cases h with
  | calm => exact .refl _
  | store => exact State.lasts_of_accounts rfl
  | storeTransient => exact .refl _
  | collide => exact State.lasts_incrementNonce _ _
  | destroy h => exact h.pays.lasts
  | call _ => exact .refl _
  | create _ => exact State.lasts_incrementNonce _ _

theorem openMessage_lasts (h : openMessage message env w = .ok () w') : Lasts w.state w'.state := by
  obtain ⟨s, rfl, hs⟩ := of_openMessage_ok h
  have htouch : Lasts w.state (w.begin.state.touch message.currentTarget) :=
    State.lasts_of_account fun a => State.account_touch _ _ a
  rcases hs with rfl | ⟨-, -, hpays⟩
  · exact htouch
  · exact htouch.trans hpays.lasts

theorem of_openCreation_ok (h : openCreation message env w = .ok () w') :
    w'.state.accounts = (if Fork.spuriousDragon ≤ env.fork
      then w.state.incrementNonce message.currentTarget else w.state).accounts := by
  have hw : w' = w.begin.modifyState (prepareAccount env.fork message.currentTarget) :=
    (EStateM.Result.ok.inj h).2.symm
  rw [hw]
  dsimp only [World.modifyState, prepareAccount]
  split <;> split <;> split <;> rfl

theorem openCreation_lasts (h : openCreation message env w = .ok () w') :
    Lasts w.state w'.state := by
  refine Lasts.trans ?_ (State.lasts_of_accounts (of_openCreation_ok h))
  split
  · exact State.lasts_incrementNonce _ _
  · exact .refl _

theorem openCreation_nonce (hfork : Fork.spuriousDragon ≤ env.fork)
    (h : openCreation message env w = .ok () w') :
    (w'.state.account message.currentTarget).nonce ≠ 0 := by
  have hs := of_openCreation_ok h
  rw [if_pos hfork] at hs
  rw [State.account_of_account? (State.account?_of_accounts hs _), State.nonce_incrementNonce,
    if_pos rfl]
  omega

theorem openFrame_lasts (h : openFrame message env w = .ok () w') : Lasts w.state w'.state := by
  obtain ⟨w₁, ⟨-, hc⟩ | ⟨-, rfl⟩, ho⟩ := of_openFrame_ok h
  · exact (openCreation_lasts hc).trans (openMessage_lasts ho)
  · exact openMessage_lasts ho

/-- What a message leaves of all accounts but the one that it creates. -/
structure LastsBeside (message : Message) (w : World) (_ : Frame) (w' : World) : Prop where
  nonce : ∀ a, (w.state.account a).nonce ≤ (w'.state.account a).nonce
  code : ∀ a, (message.target = none → a ≠ message.currentTarget) →
    w.state.hasCodeOrNonce a = true → (w'.state.account a).code = (w.state.account a).code

theorem Effect.free {c c' : Standing} (h : Effect env c (some message) c')
    (ht : message.target = none) : c.state.hasCodeOrNonce message.currentTarget = false := by
  rcases h.asks with ⟨hcalls, -⟩ | ⟨hcreates, -⟩
  · rw [hcalls.target] at ht
    cases ht
  · exact hcreates.free

theorem StepsTo.lasts_of (h : StepsTo runMessage env m m')
    (hbelow : Below env LastsBeside m.frame.message.depth) :
    Lasts m.world.state m'.world.state := by
  rcases h.cases with heffect | ⟨pending, m₁, child, w, hattends⟩
  · exact heffect.lasts
  · have hfirst := hattends.effect.lasts
    have hlast := hbelow _ _ _ _ hattends.depth hattends.launched
    rw [hattends.state]
    refine ⟨fun a => (hfirst.nonce a).trans (hlast.nonce a), fun a ha => ?_⟩
    have hne : pending.message.target = none → a ≠ pending.message.currentTarget := by
      rintro ht rfl
      exact absurd (ha.symm.trans (hattends.effect.free ht)) (by decide)
    exact (hlast.code a hne (hfirst.hasCodeOrNonce ha)).trans (hfirst.code a ha)

theorem steps_lasts_of (h : ReflTransGen (StepsTo runMessage env) m m')
    (hbelow : Below env LastsBeside m.frame.message.depth) :
    Lasts m.world.state m'.world.state := by
  induction h using ReflTransGen.head_induction_on with
  | refl => exact .refl _
  | head hs _ ih =>
    refine (hs.lasts_of hbelow).trans (ih ?_)
    rw [hs.message]
    exact hbelow

theorem Course.nonce {w₁ : World} (h : Course env message w frame w' w₁ m) (a : Address) :
    (w'.state.account a).nonce = (m.world.state.account a).nonce := by
  rcases h.content with hcontent | ⟨-, code, hcontent⟩
  · rw [State.account_of_account? (State.account?_of_accounts hcontent.accounts a)]
  · rw [State.account_of_account? (State.account?_of_accounts hcontent.accounts a),
      State.nonce_setCode]

theorem launch_lastsBeside (h : launch runMessage message env w = .ok frame w') :
    LastsBeside message w frame w' := by
  refine launch_ok_induction (fun message w frame w' hbelow h => ?_) h
  obtain ⟨-, hsame⟩ | ⟨w₁, m, hs⟩ := launch_cases h
  · have hlasts := State.lasts_of_accounts hsame.accounts
    exact ⟨hlasts.nonce, fun a _ => hlasts.code a⟩
  · have hrun := (openFrame_lasts hs.opened).trans (steps_lasts_of hs.steps hbelow)
    refine ⟨fun a => hs.nonce a ▸ hrun.nonce a, fun a ha hused => ?_⟩
    rw [← hrun.code a hused]
    rcases hs.content with hcontent | ⟨ht, code, hcontent⟩
    · rw [State.account_of_account? (State.account?_of_accounts hcontent.accounts a)]
    · rw [State.account_of_account? (State.account?_of_accounts hcontent.accounts a),
        State.code_setCode_of_ne code (Ne.symm (ha ht))]

theorem launch_lasts (h : launch runMessage message env w = .ok frame w')
    (hfree : message.target = none → w.state.hasCodeOrNonce message.currentTarget = false) :
    Lasts w.state w'.state := by
  have hlast := launch_lastsBeside h
  refine ⟨hlast.nonce, fun a ha => hlast.code a ?_ ha⟩
  rintro ht rfl
  exact absurd (ha.symm.trans (hfree ht)) (by decide)

theorem steps_lasts (h : ReflTransGen (StepsTo runMessage env) m m') :
    Lasts m.world.state m'.world.state :=
  steps_lasts_of h fun _ _ _ _ _ => launch_lastsBeside

/-- While a message runs, nonces only grow and no code is overwritten. -/
theorem runMessage_lasts (h : runMessage message env w = .ok frame w') :
    Lasts w.state w'.state := by
  cases he : frame.error with
  | some e =>
    exact State.lasts_of_accounts ((runMessage_returned h).unchanged (by rw [he]; rfl)).accounts
  | none =>
    obtain ⟨w₁, w₂, ho, hr, hcontent⟩ := of_runMessage_ok h
    obtain ⟨m, hsteps, -, halike⟩ := of_runFrame_ok hr he
    have hs : w₂.state = m.world.state := congrArg Standing.state halike
    have hrun : Lasts w₁.state w₂.state := hs ▸ steps_lasts hsteps
    exact ((openMessage_lasts ho).trans hrun).trans
      (State.lasts_of_accounts (hcontent he).accounts)

/-- Since Spurious Dragon, whatever the first code of an account does, code is deposited only where
there was none. -/
theorem code_before_deposit {w₁ w₂ : World} (hfork : Fork.spuriousDragon ≤ env.fork)
    (ho : openCreation message env w = .ok () w₁) (hr : runMessage message env w₁ = .ok frame w₂) :
    (w₂.state.account message.currentTarget).code =
      (w.state.account message.currentTarget).code ∧
    (w₂.state.account message.currentTarget).nonce ≠ 0 := by
  have hopen : w₁.state.account message.currentTarget =
      (w.state.incrementNonce message.currentTarget).account message.currentTarget := by
    have hs := of_openCreation_ok ho
    rw [if_pos hfork] at hs
    exact State.account_of_account? (State.account?_of_accounts hs _)
  have hnonce := openCreation_nonce hfork ho
  have hlasts := runMessage_lasts hr
  refine ⟨?_, ?_⟩
  · rw [hlasts.code _ (State.hasCodeOrNonce_iff.mpr (Or.inl hnonce)), hopen]
    exact State.sameCode_incrementNonce.code _
  · have hle := hlasts.nonce message.currentTarget
    omega

/-- No code runs for the account, and it is not marked for deletion. -/
structure Message.Omits (message : Message) (a : Address) : Prop where
  code : message.code.size ≠ 0 → a ≠ message.currentTarget
  created : message.target = none → a ≠ message.currentTarget
  deleted : a ∉ message.deletedAbove

structure Omitted (a : Address) (w : World) (frame : Frame) (w' : World) : Prop where
  nonce : (w'.state.account a).nonce = (w.state.account a).nonce
  deleted : frame.error = none → a ∉ frame.accountsToDelete

theorem openFrame_nonce (h : openFrame message env w = .ok () w')
    (ha : message.target = none → a ≠ message.currentTarget) :
    (w'.state.account a).nonce = (w.state.account a).nonce := by
  obtain ⟨w₁, hc, ho⟩ := of_openFrame_ok h
  have hcreated : (w₁.state.account a).nonce = (w.state.account a).nonce := by
    rcases hc with ⟨ht, hc⟩ | ⟨-, rfl⟩
    · exact (openCreation_undisturbed hc (ha ht)).nonce
    · rfl
  obtain ⟨s, rfl, hs⟩ := of_openMessage_ok ho
  have htouch : ((w₁.begin.state.touch message.currentTarget).account a).nonce =
      (w₁.state.account a).nonce := by
    rw [State.account_touch]
    rfl
  rcases hs with rfl | ⟨-, -, hpays⟩
  · exact htouch.trans hcreated
  · exact (hpays.nonce a).trans (htouch.trans hcreated)

theorem Effect.omits {c c' : Standing} (h : Effect env c (some message) c')
    (hs : c.state.IsSender a) (ha : a ≠ c.current) (hd : a ∉ c.accountsToDelete)
    (hd' : a ∉ c.message.deletedAbove) : message.Omits a := by
  have hunion : a ∉ addressUnion c.message.deletedAbove c.accountsToDelete := by
    rw [mem_addressUnion]
    exact not_or.mpr ⟨hd', hd⟩
  rcases h.asks with ⟨hcalls, -⟩ | ⟨hcreates, -⟩
  · refine ⟨fun hcode => ?_, fun hn => ?_, hcalls.deletedAbove ▸ hunion⟩
    · rcases hcalls.parties with ⟨-, hself | hown⟩ | ⟨hself, -⟩
      · exact hself ▸ ha
      · rintro rfl
        rw [hown] at hcode
        exact hcode hs.code
      · exact hself ▸ ha
    · rw [hcalls.target] at hn
      cases hn
  · have hne : a ≠ message.currentTarget := by
      rintro rfl
      have hused := State.hasCodeOrNonce_iff.mpr (Or.inl hs.nonce)
      exact absurd (hused.symm.trans hcreates.free) (by decide)
    exact ⟨fun _ => hne, fun _ => hne, hcreates.deletedAbove ▸ hunion⟩

structure Ignores (a : Address) (m m' : Machine) : Prop where
  nonce : (m'.world.state.account a).nonce = (m.world.state.account a).nonce
  deleted : a ∉ m'.frame.accountsToDelete

def Passes (a : Address) (message : Message) (w : World) (frame : Frame) (w' : World) : Prop :=
  w.state.IsSender a → message.Omits a → Omitted a w frame w'

theorem StepsTo.ignores (h : StepsTo runMessage env m m') (hs : m.world.state.IsSender a)
    (ha : a ≠ m.frame.message.currentTarget) (hd : a ∉ m.frame.accountsToDelete)
    (hd' : a ∉ m.frame.message.deletedAbove)
    (hbelow : Below env (Passes a) m.frame.message.depth) : Ignores a m m' := by
  have heffect {p : Option Message} {c' : Standing} (h : Effect env m.standing p c') :
      (c'.state.account a).nonce = (m.world.state.account a).nonce ∧ a ∉ c'.accountsToDelete := by
    refine ⟨(h.undisturbed ha).nonce, ?_⟩
    cases h with
    | destroy h =>
      intro hmem
      rcases h.deleted a hmem with rfl | hmem | hmem
      · exact ha rfl
      · exact hd hmem
      · exact hd' hmem
    | calm | store | storeTransient | collide | call | create => exact hd
  rcases h.cases with hnone | ⟨pending, m₁, child, w, hattends⟩
  · exact ⟨(heffect hnone).1, (heffect hnone).2⟩
  · obtain ⟨hnonce₁, hdeleted₁⟩ := heffect hattends.effect
    have hchild := hbelow _ _ _ _ hattends.depth hattends.launched
      (hs.of_lasts hattends.effect.lasts) (hattends.effect.omits hs ha hd hd')
    refine ⟨?_, ?_⟩
    · rw [hattends.state]
      exact hchild.nonce.trans hnonce₁
    · have hresumed : m'.frame.accountsToDelete = _ :=
        congrArg Standing.accountsToDelete hattends.resumed
      rw [hresumed]
      unfold Standing.resumed
      split
      · exact hdeleted₁
      · next he =>
        dsimp only
        split
        · exact hdeleted₁
        · rw [mem_addressUnion]
          exact not_or.mpr ⟨hdeleted₁, hchild.deleted (by simpa using he)⟩

theorem steps_ignores (h : ReflTransGen (StepsTo runMessage env) m m')
    (hs : m.world.state.IsSender a) (ha : a ≠ m.frame.message.currentTarget)
    (hd : a ∉ m.frame.accountsToDelete) (hd' : a ∉ m.frame.message.deletedAbove)
    (hbelow : Below env (Passes a) m.frame.message.depth) : Ignores a m m' := by
  induction h using ReflTransGen.head_induction_on with
  | refl => exact ⟨rfl, hd⟩
  | head hstep _ ih =>
    have hi := hstep.ignores hs ha hd hd' hbelow
    have hrest := ih (hs.of_lasts (steps_lasts (.single hstep))) (by rw [hstep.message]; exact ha)
      hi.deleted (by rw [hstep.message]; exact hd') (by rw [hstep.message]; exact hbelow)
    exact ⟨hrest.nonce.trans hi.nonce, hrest.deleted⟩

theorem launch_omitted (h : launch runMessage message env w = .ok frame w')
    (hs : w.state.IsSender a) (ho : message.Omits a) : Omitted a w frame w' := by
  refine launch_ok_induction (P := Passes a) (fun message w frame w' hbelow h hs ho => ?_) h hs ho
  obtain ⟨he, hsame⟩ | ⟨w₁, m, hcourse⟩ := launch_cases h
  · refine ⟨?_, fun hn => by rw [hn] at he; cases he⟩
    rw [State.account_of_account? (State.account?_of_accounts hsame.accounts a)]
  · have hstart : a ∉ (∅ : AddressSet) := Std.ExtTreeSet.not_mem_empty
    have hignores : Ignores a ⟨.ofMessage message, w₁⟩ m := by
      rcases hcourse.code with rfl | hcode
      · exact ⟨rfl, hstart⟩
      · exact steps_ignores hcourse.steps (hs.of_lasts (openFrame_lasts hcourse.opened))
          (ho.code hcode) hstart ho.deleted hbelow
    refine ⟨?_, fun _ => hcourse.accountsToDelete ▸ hignores.deleted⟩
    rw [hcourse.nonce, hignores.nonce]
    exact openFrame_nonce hcourse.opened ho.created

end Evm
end ExecutionLayer
