import ExecutionLayer.Proofs.Evm.Lasting

/-! # Touched accounts

A frame that succeeds names all accounts that have been left empty among those it has touched; its
own account is named by the frame above. Empty accounts are called and get nothing, or inherit
nothing, for the accounts that pay have code or a nonce.
-/
namespace ExecutionLayer.Evm
open Exec Step Relation
open State (EmptiesOnly Lasts)

variable {env : Environment} {message : Message} {w w' : World} {m m' : Machine} {frame : Frame}

/-- The account is one that the frame has touched, or its own, and the frame has succeeded. -/
def Frame.Touches (frame : Frame) (a : Address) : Prop :=
  frame.error = none ∧ (a ∈ frame.touchedAccounts ∨ a = frame.message.currentTarget)

def Message.IsBacked (env : Environment) (message : Message) (s : State) : Prop :=
  message.Sends env → s.hasCodeOrNonce message.caller = true

def Message.IsSettled (message : Message) (s : State) : Prop :=
  message.code.size ≠ 0 → s.hasCodeOrNonce message.currentTarget = true

theorem Message.IsBacked.of_lasts {s t : State} (h : message.IsBacked env s) (hl : Lasts s t) :
    message.IsBacked env t := fun hsends => hl.hasCodeOrNonce (h hsends)

theorem Message.IsSettled.of_lasts {s t : State} (h : message.IsSettled s) (hl : Lasts s t) :
    message.IsSettled t := fun hcode => hl.hasCodeOrNonce (h hcode)

theorem openMessage_emptiesOnly (h : openMessage message env w = .ok () w')
    (hb : message.IsBacked env w.state) :
    EmptiesOnly (· = message.currentTarget) w.state w'.state := by
  obtain ⟨s, rfl, hs⟩ := of_openMessage_ok h
  have htouch : EmptiesOnly (· = message.currentTarget) w.state
      (w.begin.state.touch message.currentTarget) := State.emptiesOnly_touch w.begin.state _
  rcases hs with rfl | ⟨hsends, -, hpays⟩
  · exact htouch
  · have hcaller : (w.begin.state.touch message.currentTarget).hasCodeOrNonce message.caller =
        true := by
      rw [State.hasCodeOrNonce, State.account_touch]
      exact hb hsends
    exact htouch.trans (hpays.emptiesOnly hcaller)

theorem openCreation_emptiesOnly (hfork : Fork.spuriousDragon ≤ env.fork)
    (h : openCreation message env w = .ok () w') :
    EmptiesOnly (fun _ => False) w.state w'.state := by
  have hs := of_openCreation_ok h
  rw [if_pos hfork] at hs
  exact (State.emptiesOnly_incrementNonce _ _).trans (State.emptiesOnly_of_accounts hs)

theorem openFrame_emptiesOnly (hfork : Fork.spuriousDragon ≤ env.fork)
    (h : openFrame message env w = .ok () w') (hb : message.IsBacked env w.state)
    (hs : message.target ≠ none → message.IsSettled w.state) :
    EmptiesOnly (· = message.currentTarget) w.state w'.state ∧ message.IsSettled w'.state := by
  obtain ⟨w₁, ⟨-, hc⟩ | ⟨ht, rfl⟩, ho⟩ := of_openFrame_ok h
  · have hused := State.hasCodeOrNonce_iff.mpr (Or.inl (openCreation_nonce hfork hc))
    exact ⟨((openCreation_emptiesOnly hfork hc).mono fun _ => False.elim).trans
      (openMessage_emptiesOnly ho (hb.of_lasts (openCreation_lasts hc))),
      fun _ => (openMessage_lasts ho).hasCodeOrNonce hused⟩
  · exact ⟨openMessage_emptiesOnly ho hb, (hs ht).of_lasts (openMessage_lasts ho)⟩

/-- The accounts that have become empty have been touched, and those that were touched still are. -/
structure Standing.Tracks (c c' : Standing) : Prop where
  touched : ∀ a ∈ c.touchedAccounts, a ∈ c'.touchedAccounts
  empties : EmptiesOnly (· ∈ c'.touchedAccounts) c.state c'.state

theorem Standing.Tracks.refl (c : Standing) : Tracks c c := ⟨fun _ => id, .refl _⟩

theorem Standing.Tracks.trans {c c' c'' : Standing} (h : Tracks c c') (h' : Tracks c' c'') :
    Tracks c c'' :=
  ⟨fun a ha => h'.touched a (h.touched a ha), (h.empties.mono h'.touched).trans h'.empties⟩

theorem mem_ite_insert {p : Prop} [Decidable p] {s : AddressSet} {a b : Address} (h : a ∈ s) :
    a ∈ if p then s.insert b else s := by
  split
  · exact Std.ExtTreeSet.mem_insert.mpr (Or.inr h)
  · exact h

theorem Effect.tracks {c c' : Standing} {p : Option Message} (h : Effect env c p c')
    (hc : c.state.hasCodeOrNonce c.current = true) : c.Tracks c' := by
  cases h with
  | calm | storeTransient | call => exact ⟨fun _ => id, .refl _⟩
  | store => exact ⟨fun _ => id, State.emptiesOnly_of_accounts rfl⟩
  | collide | create => exact ⟨fun _ => id, State.emptiesOnly_incrementNonce _ _⟩
  | destroy h =>
    rename_i beneficiary
    refine ⟨fun a ha => ?_, fun a ha => (h.pays.emptiesOnly hc a ha).imp_right ?_⟩
    · rw [h.touched]
      exact mem_ite_insert ha
    · rintro rfl
      rw [h.touched, if_pos ha]
      exact Std.ExtTreeSet.mem_insert_self

theorem Effect.backs {c c' : Standing} (h : Effect env c (some message) c')
    (hc : c.state.hasCodeOrNonce c.current = true) :
    message.IsBacked env c'.state ∧ (message.target ≠ none → message.IsSettled c'.state) := by
  rcases h.asks with ⟨hcalls, rfl⟩ | ⟨hcreates, rfl⟩
  · rcases hcalls.parties with ⟨hcaller, hown⟩ | ⟨hcurrent, hsends, hfrontier⟩
    · refine ⟨fun _ => hcaller ▸ hc, fun _ hcode => ?_⟩
      rcases hown with hcurrent | hown
      · rw [hcurrent]
        exact hc
      · rw [hown] at hcode
        exact State.hasCodeOrNonce_iff.mpr (Or.inr hcode)
    · refine ⟨fun h => ?_, fun _ _ => ?_⟩
      · rcases h with h | h
        · rw [hsends] at h
          cases h
        · exact absurd h hfrontier
      · rw [hcurrent]
        exact hc
  · refine ⟨fun _ => ?_, fun ht => absurd hcreates.target ht⟩
    rw [hcreates.caller]
    exact (State.lasts_incrementNonce _ _).hasCodeOrNonce hc

theorem Standing.tracks_resumed {c : Standing} {s : State} {t : Transient} {child : Frame}
    {fork : Fork} (h : EmptiesOnly child.Touches c.state s) :
    c.Tracks (Standing.resumed fork { c with state := s, transient := t } child) := by
  unfold Standing.resumed
  split
  · next he =>
    refine ⟨fun a ha => mem_ite_insert ha, fun a ha => (h a ha).imp_right fun htouches => ?_⟩
    rw [htouches.1] at he
    cases he
  · refine ⟨fun a ha => mem_ite_insert (mem_addressUnion.mpr (Or.inl ha)), fun a ha =>
      (h a ha).imp_right fun htouches => ?_⟩
    rcases htouches.2 with hmem | rfl
    · exact mem_ite_insert (mem_addressUnion.mpr (Or.inr hmem))
    · dsimp only at ha ⊢
      rw [if_pos ha]
      exact Std.ExtTreeSet.mem_insert_self

def Tracked (env : Environment) (message : Message) (w : World) (frame : Frame) (w' : World) :
    Prop :=
  message.IsBacked env w.state → (message.target ≠ none → message.IsSettled w.state) →
    EmptiesOnly frame.Touches w.state w'.state

theorem StepsTo.tracks_of (h : StepsTo runMessage env m m')
    (hbelow : Below env (Tracked env) m.frame.message.depth)
    (hc : m.world.state.hasCodeOrNonce m.frame.message.currentTarget = true) :
    m.standing.Tracks m'.standing := by
  rcases h.cases with heffect | ⟨pending, m₁, child, w, hattends⟩
  · exact heffect.tracks hc
  · obtain ⟨hb, hs⟩ := hattends.effect.backs hc
    have hchild := hbelow _ _ _ _ hattends.depth hattends.launched hb hs
    rw [hattends.resumed]
    exact (hattends.effect.tracks hc).trans (Standing.tracks_resumed hchild)

theorem steps_track_of (h : ReflTransGen (StepsTo runMessage env) m m')
    (hbelow : Below env (Tracked env) m.frame.message.depth)
    (hc : m.world.state.hasCodeOrNonce m.frame.message.currentTarget = true) :
    m.standing.Tracks m'.standing := by
  induction h using ReflTransGen.head_induction_on with
  | refl => exact .refl _
  | head hs _ ih =>
    refine (hs.tracks_of hbelow hc).trans (ih ?_ ?_)
    · rw [hs.message]
      exact hbelow
    · rw [hs.message]
      exact (steps_lasts (.single hs)).hasCodeOrNonce hc

/-- A message that succeeds has touched whatever it leaves empty, up to its own account. -/
theorem launch_emptiesOnly (hfork : Fork.spuriousDragon ≤ env.fork)
    (h : launch runMessage message env w = .ok frame w') (hb : message.IsBacked env w.state)
    (hs : message.target ≠ none → message.IsSettled w.state) :
    EmptiesOnly frame.Touches w.state w'.state := by
  refine launch_ok_induction (P := Tracked env) (fun message w frame w' hbelow h hb hs => ?_) h hb hs
  have hcurrent := congrArg Message.currentTarget (message_of_launch h)
  obtain ⟨-, hsame⟩ | ⟨w₁, m, hcourse⟩ := launch_cases h
  · exact State.emptiesOnly_of_accounts hsame.accounts
  · have hown : ∀ a, a = message.currentTarget → frame.Touches a := fun a ha =>
      ⟨hcourse.error, Or.inr (ha.trans hcurrent.symm)⟩
    obtain ⟨hopen, hsettled⟩ := openFrame_emptiesOnly hfork hcourse.opened hb hs
    have htracks : Standing.Tracks (Machine.standing ⟨.ofMessage message, w₁⟩) m.standing := by
      rcases hcourse.code with rfl | hcode
      · exact .refl _
      · exact steps_track_of hcourse.steps hbelow (hsettled hcode)
    have hrun : EmptiesOnly frame.Touches w₁.state m.world.state := htracks.empties.mono fun a ha =>
      ⟨hcourse.error, Or.inl (hcourse.touchedAccounts ▸ ha)⟩
    refine ((hopen.mono hown).trans hrun).trans ?_
    rcases hcourse.content with hcontent | ⟨-, code, hcontent⟩
    · exact State.emptiesOnly_of_accounts hcontent.accounts
    · exact ((State.emptiesOnly_setCode _ _ code).mono hown).trans
        (State.emptiesOnly_of_accounts hcontent.accounts)

theorem launch_hasNonce (hfork : Fork.spuriousDragon ≤ env.fork)
    (h : launch runMessage message env w = .ok frame w') (ht : message.target = none)
    (he : frame.error = none) : w'.state.hasCodeOrNonce message.currentTarget = true := by
  obtain ⟨hfail, -⟩ | ⟨w₁, m, hs⟩ := launch_cases h
  · rw [he] at hfail
    cases hfail
  · obtain ⟨w₂, hc, ho⟩ := of_openFrame_ok hs.opened
    obtain ⟨-, hc⟩ := hc.resolve_right fun hsome => hsome.1 ht
    have hnonce := openCreation_nonce hfork hc
    have hle := ((openMessage_lasts ho).trans (steps_lasts hs.steps)).nonce message.currentTarget
    refine State.hasCodeOrNonce_iff.mpr (Or.inl ?_)
    rw [hs.nonce]
    omega

end ExecutionLayer.Evm
