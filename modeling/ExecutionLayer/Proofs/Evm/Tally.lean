import ExecutionLayer.Proofs.Evm.Course
import ExecutionLayer.Proofs.Evm.Due

/-! # Sums over the frames that are kept

A frame that fails hands nothing on, and neither do the frames below it. What single instructions
bring in all the other frames is summed up along a run, and is known from the frame in the end if
some quantity of frames changes by what is brought.
-/
namespace ExecutionLayer.Evm
open Exec Step Relation

section Sums
variable (env : Environment) (weight : Machine → Machine → Int)

/-- What the instruction at the current place brings: by itself, or through the frame that it asks
for, if that one succeeds. -/
def tallyStep (below : Message → World → Int) (m : Machine) : Int :=
  match fetch env m with
  | .ok none m₁ => weight m m₁
  | .ok (some pending) m₁ =>
    match launch runMessage pending.message env m₁.world with
    | .ok child _ => if child.error.isSome then 0 else below pending.message m₁.world
    | .error _ _ => 0
  | .error _ _ => 0

/-- What the instructions bring that are executed from here on. -/
def tallyCode (below : Message → World → Int) : Nat → Machine → Int
  | 0, _ => 0
  | fuel + 1, m =>
    if m.frame.running ∧ m.frame.pc < m.frame.code.size then
      tallyStep env weight below m +
        match stepInstruction runMessage env m with
        | .ok _ m' => tallyCode below fuel m'
        | .error _ _ => 0
    else 0

/-- What a message brings below which so many levels of frames are allowed, itself included. -/
def tallyWithin : Nat → Message → World → Int
  | 0, _, _ => 0
  | levels + 1, message, w =>
    match message.precompile? env with
    | some _ => 0
    | none =>
      match openFrame message env w with
      | .ok _ w₁ => tallyCode env weight (tallyWithin levels) (fuelFor message.gas)
          ⟨.ofMessage message, w₁⟩
      | .error _ _ => 0

/-- What all instructions bring that are executed for a message, apart from those in frames that
fail and in frames below these. -/
def tally (message : Message) (w : World) : Int :=
  tallyWithin env weight (depthLimit + 1 - message.depth) message w

variable (weight' : Machine → Machine → Int) (c : Int)

theorem tallyStep_add_mul (below below' : Message → World → Int) (m : Machine) :
    tallyStep env (fun m m' => weight m m' + c * weight' m m')
        (fun message w => below message w + c * below' message w) m =
      tallyStep env weight below m + c * tallyStep env weight' below' m := by
  unfold tallyStep
  split
  · rfl
  · split
    · split
      · rw [mul_zero, add_zero]
      · rfl
    · rw [mul_zero, add_zero]
  · rw [mul_zero, add_zero]

theorem tallyCode_add_mul (below below' : Message → World → Int) (fuel : Nat) (m : Machine) :
    tallyCode env (fun m m' => weight m m' + c * weight' m m')
        (fun message w => below message w + c * below' message w) fuel m =
      tallyCode env weight below fuel m + c * tallyCode env weight' below' fuel m := by
  induction fuel generalizing m with
  | zero => exact (by rw [mul_zero, add_zero] : (0 : Int) = 0 + c * 0)
  | succ fuel ih =>
    unfold tallyCode
    split
    · rw [tallyStep_add_mul]
      split
      · next m' _ =>
        rw [ih m']
        ring
      · ring
    · rw [mul_zero, add_zero]

theorem tally_add_mul (message : Message) (w : World) :
    tally env (fun m m' => weight m m' + c * weight' m m') message w =
      tally env weight message w + c * tally env weight' message w := by
  unfold tally
  generalize depthLimit + 1 - message.depth = levels
  induction levels generalizing message w with
  | zero => exact (by rw [mul_zero, add_zero] : (0 : Int) = 0 + c * 0)
  | succ levels ih =>
    have hbelow : tallyWithin env (fun m m' => weight m m' + c * weight' m m') levels =
        fun message w => tallyWithin env weight levels message w +
          c * tallyWithin env weight' levels message w := by
      funext message w
      exact ih message w
    unfold tallyWithin
    split
    · rw [mul_zero, add_zero]
    · split
      · rw [hbelow, tallyCode_add_mul]
      · rw [mul_zero, add_zero]

end Sums

/-- What a frame hands on to the one above it, and what it has been told by that one. -/
structure Ledger where
  refund : Int
  accountsToDelete : AddressSet
  message : Message

def Frame.ledger (f : Frame) : Ledger := ⟨f.refund, f.accountsToDelete, f.message⟩

def Ledger.resumed (fork : Fork) (l : Ledger) (child : Frame) : Ledger :=
  if child.error.isSome then l
  else { l with
    refund := l.refund + child.refund
    accountsToDelete := if fork = .daoFork then l.accountsToDelete
      else addressUnion l.accountsToDelete child.accountsToDelete }

theorem Ledger.resumed_of_kept {fork : Fork} (l : Ledger) {child : Frame}
    (he : child.error = none) : l.resumed fork child = { l with
      refund := l.refund + child.refund
      accountsToDelete := if fork = .daoFork then l.accountsToDelete
        else addressUnion l.accountsToDelete child.accountsToDelete } := by
  unfold Ledger.resumed
  rw [if_neg (by rw [he]; decide)]

section Ledger
variable {env : Environment} {message : Message} {w w' : World} {m m' : Machine} {frame : Frame}

theorem Quiet.ledger (h : Quiet m m') : m'.frame.ledger = m.frame.ledger := by
  unfold Frame.ledger
  rw [h.refund, h.accountsToDelete, h.message]

theorem Idle.ledger (h : Idle m m') : m'.frame.ledger = m.frame.ledger := by
  unfold Frame.ledger
  rw [h.refund, h.accountsToDelete, h.message]

theorem resume_ledger {pending : Pending} {child : Frame}
    (h : pending.resume child env m = .ok () m') :
    m'.frame.ledger = m.frame.ledger.resumed env.fork child := by
  have hrefund := resume_refund h
  have hstanding := resume_of_ok h
  have hdeleted : m'.frame.accountsToDelete = _ := congrArg Standing.accountsToDelete hstanding
  have hmessage : m'.frame.message = _ := congrArg Standing.message hstanding
  unfold Frame.ledger
  rw [hrefund, hdeleted, hmessage]
  unfold Ledger.resumed Standing.resumed
  split
  · rw [add_zero]
    rfl
  · rfl

theorem StepsTo.ledger (h : StepsTo runMessage env m m') :
    (∃ m₁, fetch env m = .ok none m₁ ∧ m'.frame = m₁.frame) ∨
      ∃ pending m₁ child w, fetch env m = .ok (some pending) m₁ ∧
        launch runMessage pending.message env m₁.world = .ok child w ∧
        m'.frame.ledger = m.frame.ledger.resumed env.fork child := by
  cases h.done with
  | alone hf ht => exact Or.inl ⟨_, hf, of_trace_ok ht⟩
  | called hf hl hr ht =>
    refine Or.inr ⟨_, _, _, _, hf, hl, ?_⟩
    rw [of_trace_ok ht, resume_ledger hr, ← (fetch_some_idle hf).ledger]

theorem Closes.ledger {frame' : Frame} (h : Closes message frame w frame' w') :
    frame'.ledger = frame.ledger := by
  unfold Frame.ledger
  rw [h.refund, h.accountsToDelete, h.message]

end Ledger

structure Invariant (env : Environment) (I : Frame → Prop) : Prop where
  next : ∀ {m m'}, StepsTo runMessage env m m' → I m.frame → m'.IsActive → I m'.frame
  enter : ∀ {m pending m₁}, m.IsActive → I m.frame → fetch env m = .ok (some pending) m₁ →
    I (.ofMessage pending.message)

theorem invariant_true (env : Environment) : Invariant env fun _ => True :=
  ⟨fun _ _ _ => trivial, fun _ _ _ => trivial⟩

/-- A quantity of frames that an instruction changes by what it brings, or by what the frame has
that it asks for. -/
structure Potential (env : Environment) (I : Frame → Prop) (weight : Machine → Machine → Int)
    (value : Ledger → Int) : Prop where
  start : ∀ message, value (Frame.ofMessage message).ledger = 0
  alone : ∀ {m m'}, m.IsActive → I m.frame → fetch env m = .ok none m' →
    value m'.frame.ledger = value m.frame.ledger + weight m m'
  resumed : ∀ {m pending m₁ child}, m.IsActive → I m.frame →
    fetch env m = .ok (some pending) m₁ → child.message = pending.message → child.error = none →
    value (m.frame.ledger.resumed env.fork child) = value m.frame.ledger + value child.ledger

section Potential
variable {env : Environment} {I : Frame → Prop} {weight : Machine → Machine → Int}
  {value : Ledger → Int} {message : Message} {w w' : World} {m m' : Machine} {frame : Frame}

theorem Invariant.steps (hI : Invariant env I) (h : ReflTransGen (StepsTo runMessage env) m m')
    (hm : m.IsActive → I m.frame) : m'.IsActive → I m'.frame := by
  induction h with
  | refl => exact hm
  | tail _ hs ih => exact hI.next hs (ih hs.active)

def TalliesBelow (env : Environment) (I : Frame → Prop) (value : Ledger → Int) (depth : Nat)
    (below : Message → World → Int) : Prop :=
  ∀ message w frame w', message.depth = depth + 1 → I (.ofMessage message) →
    launch runMessage message env w = .ok frame w' → frame.error = none →
    below message w = value frame.ledger

variable {below : Message → World → Int}

theorem Potential.tallyStep (hv : Potential env I weight value) (hI : Invariant env I)
    (hbelow : TalliesBelow env I value m.frame.message.depth below)
    (h : StepsTo runMessage env m m') (hm : I m.frame) :
    value m'.frame.ledger = value m.frame.ledger + tallyStep env weight below m := by
  rcases h.ledger with ⟨m₁, hfetch, hl⟩ | ⟨pending, m₁, child, w, hfetch, hlaunch, hl⟩
  · simp only [Evm.tallyStep, hfetch]
    rw [hl, hv.alone h.active hm hfetch]
  · simp only [Evm.tallyStep, hfetch, hlaunch]
    rw [hl]
    by_cases he : child.error.isSome
    · rw [if_pos he, Ledger.resumed, if_pos he, add_zero]
    · have hkept : child.error = none := by simpa using he
      rw [if_neg he, hv.resumed h.active hm hfetch (message_of_launch hlaunch) hkept,
        hbelow _ _ _ _ (asking_of_fetch hfetch).depth (hI.enter h.active hm hfetch) hlaunch hkept]

theorem Potential.tallyCode (hv : Potential env I weight value) (hI : Invariant env I) {fuel : Nat}
    (hbelow : TalliesBelow env I value m.frame.message.depth below)
    (hm : m.IsActive → I m.frame) (h : runCode runMessage fuel env m = .ok () m') :
    value m'.frame.ledger = value m.frame.ledger + tallyCode env weight below fuel m := by
  induction fuel generalizing m with
  | zero => cases h
  | succ fuel ih =>
    unfold Evm.tallyCode
    by_cases ha : m.IsActive
    · rw [runCode_of_active ha] at h
      obtain ⟨_, m₁, hs, h⟩ := of_bind_ok h
      have hstep : StepsTo runMessage env m m₁ := ⟨ha, hs⟩
      have hmessage : m₁.frame.message = m.frame.message := hstep.message
      have hrest := ih (hmessage ▸ hbelow) (hI.next hstep (hm ha)) h
      rw [if_pos (show m.frame.running = true ∧ m.frame.pc < m.frame.code.size from ha)]
      simp only [hs]
      rw [hrest, hv.tallyStep hI hbelow hstep (hm ha), add_assoc]
    · rw [runCode_of_not_active ha] at h
      rw [if_neg (show ¬(m.frame.running = true ∧ m.frame.pc < m.frame.code.size) from ha),
        add_zero, (quiet_of_ok h).ledger]

theorem Potential.tally_eq (hv : Potential env I weight value) (hI : Invariant env I)
    (hm : I (.ofMessage message)) (h : launch runMessage message env w = .ok frame w')
    (he : frame.error = none) : tally env weight message w = value frame.ledger := by
  -- The levels that are allowed below a message are as many as its depth leaves.
  suffices hlevels : ∀ levels message w frame w', depthLimit + 1 - message.depth = levels →
      I (.ofMessage message) → launch runMessage message env w = .ok frame w' →
      frame.error = none → tallyWithin env weight levels message w = value frame.ledger from
    hlevels _ message w frame w' rfl hm h he
  intro levels
  induction levels with
  | zero =>
    intro message w frame w' hlevels _ h
    have hd := depth_of_launch h
    omega
  | succ levels ih =>
    intro message w frame w' hlevels hm h he
    rw [launch_eq (depth_of_launch h)] at h
    obtain ⟨_, w₁, hopen, h⟩ := of_bind_ok h
    obtain ⟨frame₁, w₂, hrun, hclose⟩ := of_bind_ok h
    have hclosed := of_closeFrame_ok hclose he
    have hbody := of_runFrame_kept hrun hclosed.error
    rw [tallyWithin, hclosed.ledger]
    cases hp : message.precompile? env with
    | some contract =>
      have hq := runBody_quiet runMessage ⟨.ofMessage message, w₁⟩ hp
      rw [hbody] at hq
      have hend : frame₁.ledger = (Frame.ofMessage message).ledger := hq.1.ledger
      rw [hend, hv.start]
    | none =>
      rw [runBody_of_none hp] at hbody
      have hbelow : TalliesBelow env I value message.depth (tallyWithin env weight levels) :=
        fun message' w₁ frame' w₂ hd => ih message' w₁ frame' w₂ (by omega)
      have hcode := hv.tallyCode hI hbelow (fun _ => hm) hbody
      rw [hv.start, zero_add] at hcode
      simp only [hopen]
      exact hcode.symm

end Potential

end ExecutionLayer.Evm
