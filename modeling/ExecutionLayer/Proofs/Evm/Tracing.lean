import ExecutionLayer.Proofs.Evm.Boundaries
import ExecutionLayer.Proofs.Evm.Tally
import ExecutionLayer.Proofs.Transaction.Conservation

/-! # Tracing does not interfere

A tracer is told what happens and keeps lines of it. It finds each event in order: whatever the
program does, the last line is the one that the event is about. So a run goes on as it would without
the tracer, and in the end there is a line for each instruction that was fetched.
-/
set_option synthInstance.maxSize 100000
namespace ExecutionLayer.Evm
open Exec Step

/-! ## Instructions that are fetched -/

/-- An instruction that is fetched: the depth of its frame, counted from one, the place in the code
and the byte there. -/
structure Fetch where
  (depth pc op : Nat)
deriving DecidableEq

/-- What is fetched next. Behind the code there are zeros, which are stops. -/
def Frame.fetching (f : Frame) : Fetch := ⟨f.message.depth + 1, f.pc, (f.code.get f.pc).toNat⟩

section Fetches
variable (env : Environment) (below : Message → World → List Fetch)

/-- The instruction at the current place, and those of the frame that it asks for. -/
def fetchesStep (m : Machine) : List Fetch :=
  m.frame.fetching ::
    match fetch env m with
    | .ok none _ => []
    | .ok (some pending) m₁ => below pending.message m₁.world
    | .error _ _ => []

/-- The instructions from here on. Code that is not empty has a stop behind its end. -/
def fetchesCode : Nat → Machine → List Fetch
  | 0, _ => []
  | fuel + 1, m =>
    if m.frame.running ∧ m.frame.pc < m.frame.code.size then
      fetchesStep env below m ++
        match stepInstruction runMessage env m with
        | .ok _ m' => fetchesCode fuel m'
        | .error _ _ => []
    else if m.frame.running ∧ m.frame.code.size ≠ 0 then [m.frame.fetching]
    else []

/-- The instructions of a message below which so many levels of frames are allowed, itself
included. -/
def fetchesWithin : Nat → Message → World → List Fetch
  | 0, _, _ => []
  | levels + 1, message, w =>
    match message.precompile? env with
    | some _ => []
    | none =>
      match openFrame message env w with
      | .ok _ w₁ =>
        fetchesCode env (fetchesWithin levels) (fuelFor message.gas) ⟨.ofMessage message, w₁⟩
      | .error _ _ => []

/-- All instructions that are fetched for a message, in any frame and in their order. -/
def fetches (message : Message) (w : World) : List Fetch :=
  fetchesWithin env (depthLimit + 1 - message.depth) message w

end Fetches

set_option maxRecDepth 4000 in
theorem toByte_of_ofByte? {b : UInt8} {op : Opcode} (h : Opcode.ofByte? b = some op) :
    op.toByte = b := by
  have hall : ∀ k : Fin 256, ((Opcode.ofByte? (UInt8.ofNat k)).map Opcode.toByte).getD
      (UInt8.ofNat k) = UInt8.ofNat k := by decide
  have hb := hall ⟨b.toNat, b.toNat_lt⟩
  rwa [UInt8.ofNat_toNat, h] at hb

/-! ## Outlines of traces -/

namespace Trace

/-- What is fetched in a line; nothing if it is a precompiled contract's. -/
def Step.fetch? (s : Step) : Option Fetch :=
  if s.precompile then none else some ⟨s.depth, s.pc, s.op⟩

/-- What matters of a trace that is being written: what has been fetched, and the depth of the last
line and whether its error is known. -/
structure Outline where
  fetched : List Fetch
  last : Option (Nat × Bool)

namespace Outline

def ofSteps (steps : List Step) : Outline where
  fetched := steps.filterMap Step.fetch?
  last := steps.getLast?.map fun s => (s.depth, s.errorKnown)

def isFresh (o : Outline) (depth : Nat) : Bool := o.last.all fun p => p.2 || p.1 = depth

def start (o : Outline) (v : View) (op : Nat) : Outline :=
  ⟨o.fetched ++ [⟨v.depth + 1, v.pc, op⟩], some (v.depth + 1, false)⟩

def finish (o : Outline) : Outline := ⟨o.fetched, o.last.map fun p => (p.1, true)⟩

/-- The byte at which a frame has halted, if it is no instruction. -/
def byteOf : Halt → Nat
  | .invalidOpcode code => code.toNat
  | _ => 0

def record (o : Outline) (v : View) : Event → Outline
  | .precompileStart => ⟨o.fetched, some (v.depth + 1, false)⟩
  | .opStart op => o.start v op.toByte.toNat
  | .precompileEnd | .opEnd => o.finish
  | .halted h => if o.isFresh v.depth then (o.start v (byteOf h)).finish else o.finish
  | .codeEnd => if !v.running || v.codeSize = 0 then o else o.start v Opcode.stop.toByte.toNat
  | .gas _ | .transactionEnd _ _ _ => o

def Accepts (o : Outline) (v : View) : Event → Prop
  | .precompileEnd | .opEnd => o.last.isSome
  | .halted h => o.isFresh v.depth → ∃ code, h = .invalidOpcode code
  | .transactionEnd _ _ _ => False
  | _ => True

end Outline

/-- There are only lines of steps, with this outline. -/
def Tracer.Shows (t : Tracer) (o : Outline) : Prop :=
  ∃ steps : List Step, t.lines = (steps.map Line.step).toArray ∧ Outline.ofSteps steps = o

namespace Tracer
variable {t : Tracer} {o : Outline} {v : View}

theorem Shows.last? (h : t.Shows o) : ∃ s?, t.last? = Option.map Line.step s? ∧
    o.last = s?.map fun s => (s.depth, s.errorKnown) := by
  obtain ⟨steps, hlines, rfl⟩ := h
  exact ⟨steps.getLast?, by simp [last?, hlines], rfl⟩

theorem Shows.last_isSome (h : t.Shows o) (hne : t.lines.isEmpty = false ∨ o.fetched ≠ []) :
    o.last.isSome := by
  obtain ⟨steps, hlines, rfl⟩ := h
  cases steps with
  | nil => simp [hlines, Outline.ofSteps] at hne
  | cons s steps => simp [Outline.ofSteps]

theorem Shows.push (h : t.Shows o) (s : Step) :
    (t.push (.step s)).Shows ⟨o.fetched ++ s.fetch?.toList, some (s.depth, s.errorKnown)⟩ := by
  obtain ⟨steps, hlines, rfl⟩ := h
  refine ⟨steps ++ [s], by simp [Tracer.push, hlines], ?_⟩
  cases hs : s.fetch? <;> simp [Outline.ofSteps, hs]

theorem Shows.amend (h : t.Shows o) (hlast : o.last.isSome) {f : Step → Step} {g : Bool → Bool}
    (hf : ∀ s, (f s).fetch? = s.fetch? ∧ (f s).depth = s.depth ∧
      (f s).errorKnown = g s.errorKnown) :
    ∃ t', t.amend f = .ok t' ∧ t'.Shows ⟨o.fetched, o.last.map fun p => (p.1, g p.2)⟩ := by
  obtain ⟨steps, hlines, rfl⟩ := h
  rcases List.eq_nil_or_concat' steps with rfl | ⟨init, s, rfl⟩
  · cases hlast
  · refine ⟨{ t with lines := ((init ++ [f s]).map Line.step).toArray }, ?_, init ++ [f s], rfl, ?_⟩
    · simp [Tracer.amend, Tracer.last?, hlines]
    · obtain ⟨hfetch, hdepth, herror⟩ := hf s
      cases hs : s.fetch? <;> rw [hs] at hfetch <;>
        simp [Outline.ofSteps, hs, hfetch, hdepth, herror]

theorem Shows.finish (h : t.Shows o) (hlast : o.last.isSome) {f : Step → Step}
    (hf : ∀ s, (f s).fetch? = s.fetch? ∧ (f s).depth = s.depth ∧ (f s).errorKnown = true) :
    ∃ t', t.amend f = .ok t' ∧ t'.Shows o.finish := h.amend hlast (g := fun _ => true) hf

theorem Shows.halted (h : t.Shows o) {e : Halt} (ha : o.Accepts v (.halted e)) :
    ∃ t', t.halted v e = .ok t' ∧ t'.Shows (o.record v (.halted e)) := by
  -- A frame without a line of its own gets one now.
  have hnew (hfresh : o.isFresh v.depth) :
      ∃ t', halted.newLine t v e = .ok t' ∧ t'.Shows (o.record v (.halted e)) := by
    obtain ⟨code, rfl⟩ := ha hfresh
    refine ⟨_, rfl, ?_⟩
    rw [Outline.record, if_pos hfresh]
    exact h.push _
  obtain ⟨s?, hs, hlast⟩ := h.last?
  rw [Tracer.halted, hs]
  cases s? with
  | none => exact hnew (by rw [Outline.isFresh, hlast]; rfl)
  | some s =>
    have hfresh : o.isFresh v.depth = (s.errorKnown || s.depth = v.depth) := by
      rw [Outline.isFresh, hlast]
      rfl
    dsimp only [Option.map_some]
    rw [← hfresh]
    split
    · next hf => exact hnew hf
    · next hf =>
      rw [Outline.record, if_neg hf]
      exact h.finish (by rw [hlast]; rfl) fun s => ⟨rfl, rfl, rfl⟩

theorem Shows.record (h : t.Shows o) {event : Event} (ha : o.Accepts v event) :
    ∃ t', t.record v event = .ok t' ∧ t'.Shows (o.record v event) := by
  cases event with
  | precompileStart =>
    refine ⟨_, rfl, ?_⟩
    have hshows := h.push { t.newStep v 0 "" with precompile := true }
    rwa [Step.fetch?, if_pos rfl, Option.toList_none, List.append_nil] at hshows
  | opStart op => exact ⟨_, rfl, h.push _⟩
  | precompileEnd | opEnd => exact h.finish ha fun s => ⟨rfl, rfl, rfl⟩
  | halted e => exact h.halted ha
  | codeEnd =>
    refine ⟨_, rfl, ?_⟩
    unfold Outline.record
    split
    · exact h
    · exact h.push _
  | gas cost =>
    rw [Tracer.record]
    split
    · exact ⟨t, rfl, h⟩
    · next hne =>
      have hlast := h.last_isSome (Or.inl (by simpa using hne))
      have hsame : (⟨o.fetched, o.last.map fun p => (p.1, id p.2)⟩ : Outline) = o := by simp
      have hshows := h.amend hlast (g := id) (f := fun s =>
        if s.gasCostKnown then s
        else { s with gasCost := cost, refund := v.refund, gasCostKnown := true }) fun s => by
          split <;> exact ⟨rfl, rfl, rfl⟩
      rwa [hsame] at hshows
  | transactionEnd gasUsed output error => exact absurd ha id

end Tracer
end Trace

/-! ## Runs with and without a tracer -/

open Trace (Tracer Outline)

def World.retrace (w : World) (tracer : Option Tracer) : World := { w with tracer }

def Machine.retrace (m : Machine) (tracer : Option Tracer) : Machine :=
  { m with world := m.world.retrace tracer }

/-- What a tracer is part of. -/
class Traceable (σ : Type) where
  tracer : σ → Option Tracer
  retrace : σ → Option Tracer → σ
  retrace_tracer : ∀ s, retrace s (tracer s) = s
  tracer_retrace : ∀ s t, tracer (retrace s t) = t

instance : Traceable World := ⟨World.tracer, World.retrace, fun _ => rfl, fun _ _ => rfl⟩
instance : Traceable Machine := ⟨(·.world.tracer), Machine.retrace, fun _ => rfl, fun _ _ => rfl⟩

section Mirrors
open Traceable
variable {σ α β : Type} [Traceable σ] {env : Environment} {s : σ} {o : Outline}

def mapEnd (f : σ → σ) : EStateM.Result Stop σ α → EStateM.Result Stop σ α
  | .ok a s => .ok a (f s)
  | .error e s => .error e (f s)

/-- Begun without a tracer, the operation ends without one. With a tracer it has the same result,
and the trace then shows what is demanded of that result. -/
def Mirrors (op : ReaderT Environment (EStateM Stop σ) α) (env : Environment) (s : σ)
    (o : Outline) (Q : EStateM.Result Stop σ α → Outline → Prop) : Prop :=
  ∀ t : Tracer, t.Shows o → ∃ t' : Tracer, ∃ o', t'.Shows o' ∧ Q (op env s) o' ∧
    tracer (endOf (op env s)) = none ∧
    op env (retrace s (some t)) = mapEnd (retrace · (some t')) (op env s)

variable {op : ReaderT Environment (EStateM Stop σ) α}
  {P : EStateM.Result Stop σ α → Outline → Prop}
  {f : α → ReaderT Environment (EStateM Stop σ) β} {Q : EStateM.Result Stop σ β → Outline → Prop}

theorem Mirrors.of_blind (hs : tracer s = none)
    (h : ∀ t, op env (retrace s t) = mapEnd (retrace · t) (op env s)) (hP : P (op env s) o) :
    Mirrors op env s o P := by
  refine fun t ht => ⟨t, o, ht, hP, ?_, h (some t)⟩
  have hsame := h none
  rw [← hs, retrace_tracer, hs] at hsame
  rw [hsame]
  cases op env s <;> exact tracer_retrace _ _

theorem Mirrors.mono {P' : EStateM.Result Stop σ α → Outline → Prop} (h : Mirrors op env s o P)
    (hP : ∀ o', P (op env s) o' → P' (op env s) o') : Mirrors op env s o P' := by
  intro t ht
  obtain ⟨t', o', hs, hp, he⟩ := h t ht
  exact ⟨t', o', hs, hP o' hp, he⟩

theorem Mirrors.congr {op' : ReaderT Environment (EStateM Stop σ) α} (hs : tracer s = none)
    (h : Mirrors op env s o P) (he : ∀ t, op' env (retrace s t) = op env (retrace s t)) :
    Mirrors op' env s o P := by
  have hsame := he none
  rw [← hs, retrace_tracer] at hsame
  intro t ht
  rw [he, hsame]
  exact h t ht

theorem Mirrors.bind (h : Mirrors op env s o P)
    (hok : ∀ a s' o', op env s = .ok a s' → tracer s' = none → (∃ t : Tracer, t.Shows o') →
      P (.ok a s') o' → Mirrors (f a) env s' o' Q)
    (herror : ∀ e s' o', op env s = .error e s' → P (.error e s') o' → Q (.error e s') o') :
    Mirrors (op >>= f) env s o Q := by
  intro t ht
  obtain ⟨t', o', hs, hp, hu, he⟩ := h t ht
  cases hr : op env s with
  | ok a s' =>
    rw [hr] at hp hu he
    rw [bind_of_ok hr, bind_of_ok he]
    exact hok a s' o' hr hu ⟨t', hs⟩ hp t' hs
  | error e s' =>
    rw [hr] at hp hu he
    rw [bind_of_error hr, bind_of_error he]
    exact ⟨t', o', hs, herror e s' o' hr hp, hu, rfl⟩

end Mirrors

theorem trace_mirrors {env : Environment} {m : Machine} {o : Outline} (event : Trace.Event)
    (hm : m.world.tracer = none) (ha : o.Accepts m.frame.view event) :
    Mirrors (trace event) env m o fun r o' => r = .ok () m ∧ o' = o.record m.frame.view event := by
  intro t ht
  obtain ⟨t', hr, hs⟩ := ht.record ha
  rw [trace_of_untraced hm]
  refine ⟨t', _, hs, ⟨rfl, rfl⟩, hm, ?_⟩
  change trace event env (m.retrace (some t)) = .ok () (m.retrace (some t'))
  simp only [trace, Machine.retrace, World.retrace, hr]

/-! ## Operations that a trace tells nothing of -/

section Discreet
open Traceable
variable {σ α β : Type} [Traceable σ]

/-- The operation does the same with and without a tracer, and a trace shows no more for it. -/
def Discreet (op : ReaderT Environment (EStateM Stop σ) α) : Prop :=
  ∀ (env : Environment) (s : σ) (o : Outline), tracer s = none →
    Mirrors op env s o fun _ o' => o' = o

theorem discreet_of_blind {op : ReaderT Environment (EStateM Stop σ) α}
    (h : ∀ env s t, op env (retrace s t) = mapEnd (retrace · t) (op env s) := by
      exact fun _ _ _ => rfl) : Discreet op :=
  fun env s _ hs => .of_blind hs (h env s) rfl

theorem Discreet.bind {x : ReaderT Environment (EStateM Stop σ) α}
    {f : α → ReaderT Environment (EStateM Stop σ) β} (hx : Discreet x)
    (hf : ∀ a, Discreet (f a)) : Discreet (x >>= f) :=
  fun env s o hs => (hx env s o hs).bind
    (fun a s' o' _ hs' _ ho => by rw [ho]; exact hf a env s' o hs') fun _ _ _ _ ho => ho

def Logic.discreet : Logic where
  holds := Discreet
  pure _ := discreet_of_blind
  bind := Discreet.bind
  halt _ := discreet_of_blind

theorem frame_discreet : Discreet frame := discreet_of_blind

instance : Logic.discreet.Moving where
  fault _ := discreet_of_blind
  read := discreet_of_blind
  frame := frame_discreet
  state := discreet_of_blind
  transient := discreet_of_blind
  pop := frame_discreet.bind fun f => by
    split <;> exact discreet_of_blind
  push x := frame_discreet.bind fun f => by
    split <;> exact discreet_of_blind
  chargeGas amount := by
    refine Discreet.bind (fun env m o hm => ?_) fun _ => frame_discreet.bind fun f => ?_
    · exact (trace_mirrors (.gas amount) hm trivial).mono fun _ h => h.2
    · split
      · exact discreet_of_blind
      · split <;> exact discreet_of_blind
  takeGas _ := discreet_of_blind
  note _ := discreet_of_blind
  change _ := discreet_of_blind
  move _ := discreet_of_blind

instance : Logic.discreet.Writing where
  addGas _ := discreet_of_blind
  revert := discreet_of_blind
  tally _ := discreet_of_blind
  modifyState _ := discreet_of_blind
  modifyTransient _ := discreet_of_blind
  onState stop op := discreet_of_blind fun env m t => by
    change onWorld _ env (m.retrace t) = _
    dsimp only [onWorld, WorldOp.onState, Machine.retrace, World.retrace]
    cases op m.world.state <;> rfl

theorem Made.discreet {op : Exec α} [h : Made .discreet op] : Discreet op := h.holds

theorem execute_discreet (op : Opcode) : Discreet (execute op) :=
  (execute_made (fun _ => inferInstance) fun _ => inferInstance : Made .discreet _).discreet

theorem resume_discreet (pending : Pending) (child : Frame) : Discreet (pending.resume child) := by
  rw [resume_eq]
  exact Made.discreet

end Discreet

/-! ## Room for an answer -/

section Room

instance : IsSize fun f => f.stack.size :=
  ⟨fun _ _ => Nat.le_refl _, fun f => by simp, fun _ _ _ _ => Nat.le_refl _⟩

abbrev Sinks : Machine → Machine → Prop := Shrinks fun f => f.stack.size

theorem of_pop_ok {env : Environment} {m m' : Machine} {x : Word} (h : pop env m = .ok x m') :
    m'.frame.stack.size + 1 = m.frame.stack.size := by
  cases hb : m.frame.stack.back? with
  | none =>
    rw [pop_of_none hb] at h
    cases h
  | some y =>
    rw [pop_of_some hb] at h
    cases h
    obtain ⟨rest, hrest⟩ := Array.back?_eq_some_iff.mp hb
    simp [hrest]

/-- An operation that asks for a frame has taken so many words from the stack. -/
class Asks (n : Nat) (op : Exec (Option Pending)) : Prop where
  room : ∀ {env m pending m'}, op env m = .ok (some pending) m' →
    m'.frame.stack.size + n ≤ m.frame.stack.size

variable {α : Type} {n : Nat} {x : Exec α} {f : α → Exec (Option Pending)}

instance (pending : Pending) : Asks 0 (pure (some pending)) := ⟨fun h => by
  cases h
  exact Nat.le_refl _⟩

instance (priority := high) : Asks n (x >>= fun _ => pure none) := ⟨fun h => by
  obtain ⟨_, _, -, h⟩ := of_bind_ok h
  cases h⟩

instance (priority := high) : Asks n (x >>= fun _ => decline) := ⟨fun h => by
  obtain ⟨_, _, -, h⟩ := of_bind_ok h
  obtain ⟨_, _, -, h⟩ := of_bind_ok h
  obtain ⟨_, _, -, h⟩ := of_bind_ok h
  cases h⟩

instance [hx : Made (.keeping Sinks) x] [hf : ∀ a, Asks n (f a)] : Asks n (x >>= f) := ⟨fun h => by
  obtain ⟨a, _, ha, h⟩ := of_bind_ok h
  exact ((hf a).room h).trans (hx.kept.sustained.of_ok ha)⟩

instance {c : Prop} [Decidable c] {y z : Exec (Option Pending)} [hy : Asks n y] [hz : Asks n z] :
    Asks n (if c then y else z) := by
  split
  · exact hy
  · exact hz

instance (priority := high) {f : Word → Exec (Option Pending)} [hf : ∀ a, Asks 0 (f a)] :
    Asks 1 (pop >>= f) := ⟨fun h => by
  obtain ⟨a, _, ha, h⟩ := of_bind_ok h
  have := (hf a).room h
  have := of_pop_ok ha
  omega⟩

instance (priority := high) {f : Nat → Exec (Option Pending)} [hf : ∀ a, Asks 0 (f a)] :
    Asks 1 (popNat >>= f) := by
  unfold popNat
  rw [bind_assoc]
  infer_instance

theorem execute_asks (op : Opcode) : Asks 1 (execute op) := by
  have (size : Nat) : Made (.keeping Sinks) (expandMemory size) := by
    have : Made (.keeping Sinks) (modifyFrame fun f =>
        { f with memory := f.memory ++ Bytes.zeros size }) :=
      ⟨keeps_modifyFrame (fun _ => Nat.le_refl _) (by simp)⟩
    have : Made (.keeping Sinks) (ofExcept (Capacity.allot size)) := ⟨keeps_ofExcept _⟩
    unfold expandMemory
    infer_instance
  have (b : Bytes) : Made (.keeping Sinks) (setReturnData b) :=
    ⟨keeps_modifyFrame (fun _ => Nat.le_refl _) (by simp)⟩
  have (g : State → State) : Made (.keeping Sinks) (modifyState g) :=
    ⟨⟨fun _ _ => ⟨Nat.le_refl _, by simp⟩⟩⟩
  cases op
  all_goals
    dsimp only [execute, create, create2, createAt, call, callcode, delegatecall, staticcall,
      enterWithValue, enter, chargeWithMemory]
    infer_instance

theorem room_of_pending {env : Environment} {m m' : Machine} {pending : Pending}
    (h : fetch env m = .ok (some pending) m') : m'.frame.stack.size < m.frame.stack.size := by
  cases hop : m.opcode? env with
  | none =>
    rw [fetch_of_none hop] at h
    cases h
  | some op =>
    rw [fetch_of_some hop] at h
    obtain ⟨_, m₁, htrace, h⟩ := of_bind_ok h
    rw [← of_trace_ok htrace]
    exact (execute_asks op).room h

theorem resume_ok (env : Environment) {m : Machine} (h : m.frame.stack.size < stackLimit)
    (pending : Pending) (child : Frame) : ∃ m', pending.resume child env m = .ok () m' := by
  have hrespond {m : Machine} (h : m.frame.stack.size < stackLimit) :
      ∃ m', pending.respond child env m = .ok () m' := by
    have hpush (b : Bytes) (x : Word) (f : Unit → Exec Unit) :
        ∃ m', (setReturnData b >>= fun _ => push x >>= f) env m = f () env m' :=
      ⟨_, bind_of_ok (push_of_lt (m := { m with frame := { m.frame with returnData := b } }) x h) f⟩
    unfold Pending.respond
    cases pending.message.target with
    | none | some _ =>
      obtain ⟨m', h'⟩ := hpush _ _ _
      exact ⟨_, h'⟩
  rw [resume_eq]
  split
  · exact hrespond (m := endOf (absorbFailure child env m)) h
  · exact hrespond (m := endOf (absorb child env m)) h

end Room

/-! ## Instructions -/

section Steps
variable {env : Environment} {m m' : Machine} {o o' : Outline} {new : List Fetch} {α : Type}

theorem isFresh_finish (o : Outline) (depth : Nat) : o.finish.isFresh depth = true := by
  unfold Outline.finish Outline.isFresh
  cases o.last <;> rfl

/-- The trace goes on with these instructions; if there is a halt, then once it is recorded. -/
def Tells (o : Outline) (new : List Fetch) : EStateM.Result Stop Machine α → Outline → Prop
  | .ok _ _, o' => o'.fetched = o.fetched ++ new
  | .error (.halt h) m, o' => o'.Accepts m.frame.view (.halted h) ∧
      (o'.record m.frame.view (.halted h)).fetched = o.fetched ++ new
  | .error _ _, _ => True

theorem Tells.of_last (hlast : o'.last = some (m.frame.message.depth + 1, false))
    (h : o'.fetched = o.fetched ++ new) (e : Stop) :
    Tells o new (.error e m : EStateM.Result Stop Machine α) o' := by
  have hfresh : ¬o'.isFresh m.frame.view.depth = true := by
    rw [Outline.isFresh, hlast]
    simp [Frame.view]
  cases e with
  | halt e =>
    refine ⟨fun hf => absurd hf hfresh, ?_⟩
    rw [Outline.record, if_neg hfresh]
    exact h
  | fault | imbalance => trivial

theorem Tells.trans {o₁ : Outline} {new' : List Fetch} {r : EStateM.Result Stop Machine α}
    (h : o₁.fetched = o.fetched ++ new) (h' : Tells o₁ new' r o') : Tells o (new ++ new') r o' := by
  rcases r with ⟨_, m'⟩ | ⟨e | f | f, m'⟩
  · rw [Tells, ← List.append_assoc, ← h]
    exact h'
  · rw [Tells, ← List.append_assoc, ← h]
    exact h'
  · trivial
  · trivial

/-- Fetching starts a line, except where there is no instruction: that is known by a halt. -/
theorem fetch_mirrors (hm : m.world.tracer = none) (hfresh : o.isFresh m.frame.view.depth) :
    Mirrors fetch env m o fun r o' => Tells o [m.frame.fetching] r o' ∧
      ∀ p m', r = .ok p m' → o' = o.start m.frame.view (m.frame.code.get m.frame.pc).toNat := by
  cases hop : m.opcode? env with
  | none =>
    have hr := fetch_of_none hop
    refine .of_blind hm (fun t => ?_) ?_
    · rw [hr]
      exact fetch_of_none (m := m.retrace t) hop
    · rw [hr]
      refine ⟨⟨fun _ => ⟨_, rfl⟩, ?_⟩, fun _ _ h => by cases h⟩
      rw [Outline.record, if_pos hfresh]
      rfl
  | some op =>
    have hbyte := toByte_of_ofByte? (of_opcode? hop).1
    have hfetched := fetch_fetched env m
    rw [fetch_of_some hop, bind_of_ok (trace_of_untraced hm _)] at hfetched
    refine .congr hm ?_ fun t => fetch_of_some (m := m.retrace t) hop
    refine (trace_mirrors (.opStart op) hm trivial).bind (fun _ m₁ o₁ _ _ _ h => ?_)
      fun _ _ _ _ h => by cases h.1
    obtain ⟨h, rfl⟩ := h
    cases h
    refine (execute_discreet op env m _ hm).mono fun o₁ ho => ?_
    have hstart : o₁ = o.start m.frame.view (m.frame.code.get m.frame.pc).toNat := by
      rw [ho, Outline.record, hbyte]
    refine ⟨?_, fun _ _ _ => hstart⟩
    rw [hstart]
    cases hr : execute op env m with
    | ok p m' => rfl
    | error e m' =>
      rw [hr] at hfetched
      cases e with
      | halt e => exact Tells.of_last (by rw [hfetched.1.message]; rfl) rfl _
      | fault | imbalance => trivial

/-- If the frame comes to its end, it leaves a trace of these instructions. -/
def Recounts (o : Outline) (new : List Fetch) : EStateM.Result Stop World α → Outline → Prop
  | .ok _ _, o' => o'.fetched = o.fetched ++ new
  | .error _ _, _ => True

variable {below : Message → World → List Fetch}

/-- The frames that are asked for at this depth leave a trace of all their instructions. -/
def RecountsBelow (env : Environment) (below : Message → World → List Fetch) (depth : Nat) : Prop :=
  ∀ message w o, message.depth = depth + 1 → message.depth ≤ depthLimit → w.tracer = none →
    o.isFresh message.depth →
      Mirrors (launch runMessage message) env w o (Recounts o (below message w))

theorem onWorld_mirrors {op : WorldOp α} {P : EStateM.Result Stop World α → Outline → Prop}
    (h : Mirrors op env m.world o P) : Mirrors (onWorld op) env m o fun r o' =>
      (∀ a m', r = .ok a m' → m'.frame = m.frame ∧ P (.ok a m'.world) o') ∧
        ∀ e m', r = .error e m' → op env m.world = .error e m'.world := by
  intro t ht
  obtain ⟨t', o', hs, hp, hu, he⟩ := h t ht
  refine ⟨t', o', hs, ?_⟩
  cases hr : op env m.world with
  | ok a w =>
    rw [hr] at hp hu he
    rw [onWorld_of_ok hr]
    refine ⟨⟨fun a' m' h => ?_, fun _ _ h => by cases h⟩, hu,
      onWorld_of_ok (m := m.retrace (some t)) he⟩
    cases h
    exact ⟨rfl, hp⟩
  | error e w =>
    rw [hr] at hu he
    rw [onWorld_of_error hr]
    refine ⟨⟨fun _ _ h => (by cases h), fun e' m' h => ?_⟩, hu,
      onWorld_of_error (m := m.retrace (some t)) he⟩
    cases h
    rfl

/-- A step shows its instruction and those of the frame that it asks for. If it goes on, its line is
closed. -/
theorem step_mirrors (hm : m.world.tracer = none) (hfresh : o.isFresh m.frame.message.depth)
    (hstack : m.frame.stack.size ≤ stackLimit)
    (hbelow : RecountsBelow env below m.frame.message.depth) :
    Mirrors (stepInstruction runMessage) env m o fun r o' =>
      Tells o (fetchesStep env below m) r o' ∧
        ∀ a m', r = .ok a m' → o'.isFresh m.frame.message.depth := by
  refine (fetch_mirrors hm hfresh).bind (fun p m₁ o₁ hf hm₁ hshown h => ?_) fun e m₁ o₁ hf h => ?_
  · have hstart := h.2 p m₁ rfl
    cases p with
    | none =>
      refine (trace_mirrors .opEnd hm₁ (by rw [hstart]; rfl)).mono fun o₂ h₂ => ?_
      obtain ⟨hr, rfl⟩ := h₂
      rw [hr, fetchesStep, hf]
      exact ⟨h.1, fun _ _ _ => isFresh_finish _ _⟩
    | some pending =>
      -- The line of this instruction stays open while the frame below it writes its own ones.
      have hasking := asking_of_fetch hf
      have hfresh₁ : o₁.isFresh pending.message.depth := by
        rw [hstart, hasking.depth]
        simp [Outline.isFresh, Outline.start, Frame.view]
      refine (onWorld_mirrors (hbelow _ _ _ hasking.depth hasking.le_limit hm₁ hfresh₁)).bind
        (fun child m₂ o₂ _ hm₂ hshown₂ h₂ => ?_) fun e m₂ o₂ _ h₂ => ?_
      · obtain ⟨hframe, hfetched₂⟩ := h₂.1 child m₂ rfl
        obtain ⟨m₃, hresume⟩ := resume_ok env (m := m₂)
          (by rw [hframe]; exact (room_of_pending hf).trans_le hstack) pending child
        have hall : o₂.fetched = o.fetched ++ fetchesStep env below m := by
          rw [hfetched₂, hstart, fetchesStep, hf]
          exact List.append_assoc _ _ _
        refine (resume_discreet pending child env m₂ o₂ hm₂).bind (fun _ m₄ o₃ _ hm₄ _ ho => ?_)
          fun e m₄ _ he _ => ?_
        · rw [ho]
          have hlast : o₂.last.isSome := by
            obtain ⟨t, ht⟩ := hshown₂
            exact ht.last_isSome (Or.inr (by rw [hall, fetchesStep]; simp))
          refine (trace_mirrors .opEnd hm₄ hlast).mono fun o₄ h₄ => ?_
          obtain ⟨hr, rfl⟩ := h₄
          rw [hr]
          exact ⟨hall, fun _ _ _ => isFresh_finish _ _⟩
        · rw [hresume] at he
          cases he
      · have hcontained := launch_contained env hasking.le_limit m₁.world
        rw [h₂.2 e m₂ rfl] at hcontained
        refine ⟨?_, fun _ _ h => by cases h⟩
        cases e with
        | halt e => exact absurd hcontained id
        | fault | imbalance => trivial
  · refine ⟨?_, fun _ _ h => by cases h⟩
    rw [fetchesStep, hf]
    cases e <;> exact h.1

theorem record_codeEnd (ha : ¬(m.frame.running = true ∧ m.frame.pc < m.frame.code.size)) :
    (o.record m.frame.view .codeEnd).fetched = o.fetched ++
      if m.frame.running ∧ m.frame.code.size ≠ 0 then [m.frame.fetching] else [] := by
  have hcond : (!m.frame.view.running || decide (m.frame.view.codeSize = 0)) = true ↔
      ¬(m.frame.running = true ∧ m.frame.code.size ≠ 0) := by
    change (!m.frame.running || decide (m.frame.code.size = 0)) = true ↔ _
    cases m.frame.running <;> simp
  rw [Outline.record]
  by_cases hend : m.frame.running = true ∧ m.frame.code.size ≠ 0
  · have hbyte : m.frame.code.get m.frame.pc = 0 := dif_neg fun hlt => ha ⟨hend.1, hlt⟩
    rw [if_neg (fun h => hcond.mp h hend), if_pos hend, Frame.fetching, hbyte]
    rfl
  · rw [if_pos (hcond.mpr hend), if_neg hend, List.append_nil]

theorem runCode_mirrors (fuel : Nat) (hm : m.world.tracer = none)
    (hfresh : o.isFresh m.frame.message.depth) (hordered : m.frame.Ordered env.fork)
    (hbelow : RecountsBelow env below m.frame.message.depth) :
    Mirrors (runCode runMessage fuel) env m o (Tells o (fetchesCode env below fuel m)) := by
  -- Between two instructions the last line is closed, so that the frame may start a new one.
  induction fuel generalizing m o with
  | zero => exact .of_blind hm (fun _ => rfl) trivial
  | succ fuel ih =>
    by_cases ha : m.frame.running = true ∧ m.frame.pc < m.frame.code.size
    · refine .congr hm ?_ fun t => runCode_of_active (m := m.retrace t) ha fuel
      refine (step_mirrors hm hfresh hordered.stack hbelow).bind (fun _ m₁ o₁ hs hm₁ _ h => ?_)
        fun e m₁ o₁ hs h => ?_
      · have hstep : StepsTo runMessage env m m₁ := ⟨ha, hs⟩
        rw [fetchesCode, if_pos ha, hs]
        refine (ih hm₁ ?_ (hordered.of_step hstep) ?_).mono fun o' h' => .trans h.1 h'
        · rw [hstep.message]
          exact h.2 () m₁ rfl
        · rwa [hstep.message]
      · rw [fetchesCode, if_pos ha, hs, List.append_nil]
        exact h.1
    · refine .congr hm ?_ fun t => runCode_of_not_active (m := m.retrace t) ha fuel
      refine (trace_mirrors .codeEnd hm trivial).mono fun o' h => ?_
      obtain ⟨hr, rfl⟩ := h
      rw [hr, fetchesCode, if_neg ha]
      exact record_codeEnd ha

theorem runBody_mirrors {message : Message} {w : World} (hw : w.tracer = none)
    (hfresh : o.isFresh message.depth) (hbelow : RecountsBelow env below message.depth) :
    Mirrors (runBody runMessage message) env ⟨.ofMessage message, w⟩ o (Tells o
      (if (message.precompile? env).isSome then []
        else fetchesCode env below (fuelFor message.gas) ⟨.ofMessage message, w⟩)) := by
  cases hp : message.precompile? env with
  | none =>
    exact .congr hw (runCode_mirrors _ hw hfresh (Frame.ordered_ofMessage _ _) hbelow) fun t =>
      runBody_of_none (m := ⟨.ofMessage message, w.retrace t⟩) hp
  | some contract =>
    refine .congr hw ?_ fun t => runBody_of_some (m := ⟨.ofMessage message, w.retrace t⟩) hp
    refine (trace_mirrors .precompileStart hw trivial).bind (fun _ m₁ o₁ _ _ _ h => ?_)
      fun _ _ _ _ h => by cases h.1
    obtain ⟨h, rfl⟩ := h
    cases h
    have hquiet := (Made.kept : Keeps Quiet 0 contract.run).within env ⟨.ofMessage message, w⟩
    refine (Made.discreet env _ _ hw).bind (fun _ m₂ o₂ _ hm₂ _ ho => ?_) fun e m₂ o₂ hr ho => ?_
    · rw [ho]
      refine (trace_mirrors .precompileEnd hm₂ (by rw [Outline.record]; rfl)).mono
        fun o₃ h => ?_
      obtain ⟨hr, rfl⟩ := h
      rw [hr]
      exact (List.append_nil _).symm
    · rw [hr] at hquiet
      rw [ho]
      exact .of_last (by rw [hquiet.1.message]; rfl) (List.append_nil _).symm e

end Steps

/-! ## Messages -/

section Messages
variable {env : Environment} {message : Message} {w : World} {o : Outline} {α : Type}

theorem discreet_pure (a : α) : Discreet (pure a : WorldOp α) := discreet_of_blind

theorem discreet_fork : Discreet WorldOp.fork := discreet_of_blind

theorem discreet_modify {g : World → World} (hg : ∀ w t, g (w.retrace t) = (g w).retrace t) :
    Discreet (modify g : WorldOp Unit) :=
  discreet_of_blind fun _ w t => congrArg (EStateM.Result.ok ()) (hg w t)

theorem discreet_close {f : State → Except Fault State} {g : Transient → Except Fault Transient} :
    Discreet (WorldOp.step fun w => do
      return { w with state := ← f w.state, transient := ← g w.transient }) := by
  refine discreet_of_blind fun env w t => ?_
  change WorldOp.step _ env (w.retrace t) = _
  dsimp only [WorldOp.step, World.retrace]
  cases f w.state with
  | error e => rfl
  | ok s => cases g w.transient <;> rfl

theorem commit_discreet : Discreet (WorldOp.step (·.commit)) :=
  discreet_close (f := State.commit) (g := Transient.commit)

theorem rollback_discreet : Discreet (WorldOp.step (·.rollback)) :=
  discreet_close (f := State.rollback) (g := Transient.rollback)

theorem openFrame_discreet (message : Message) : Discreet (openFrame message) := by
  have htransfer : Discreet (transferValue message) := discreet_fork.bind fun fork => by
    split
    · refine discreet_of_blind fun env w t => ?_
      change WorldOp.changeBalances _ env (w.retrace t) = _
      dsimp only [WorldOp.changeBalances, WorldOp.onState, World.retrace]
      cases State.moveEther message.caller message.currentTarget message.value w.state <;> rfl
    · exact discreet_pure ()
  have hopen : Discreet (openMessage message) := (discreet_modify fun _ _ => rfl).bind fun _ =>
    (discreet_modify fun _ _ => rfl).bind fun _ => htransfer
  unfold openFrame
  cases message.target with
  | none =>
    exact Discreet.bind (discreet_fork.bind fun _ => (discreet_modify fun _ _ => rfl).bind fun _ =>
      discreet_modify fun _ _ => rfl) fun _ => hopen
  | some _ => exact hopen

def answerOf : EStateM.Result Stop Machine Unit → EStateM.Result Stop World (Frame × Option Halt)
  | .ok _ m => .ok (m.frame, none) m.world
  | .error (.halt h) m => .ok (m.frame, some h) m.world
  | .error stop m => .error stop m.world

theorem attempt_eq (frame : Frame) (body : Exec Unit) (env : Environment) (w : World) :
    WorldOp.attempt frame body env w = answerOf (body env ⟨frame, w⟩) := by
  unfold WorldOp.attempt
  rcases body env ⟨frame, w⟩ with ⟨_, m⟩ | ⟨h | f | f, m⟩ <;> rfl

theorem attempt_mirrors {frame : Frame} {body : Exec Unit}
    {P : EStateM.Result Stop Machine Unit → Outline → Prop} (h : Mirrors body env ⟨frame, w⟩ o P) :
    Mirrors (WorldOp.attempt frame body) env w o fun r o' => ∃ r', r = answerOf r' ∧ P r' o' := by
  intro t ht
  obtain ⟨t', o', hs, hp, hu, he⟩ := h t ht
  rw [attempt_eq, attempt_eq]
  refine ⟨t', o', hs, ⟨_, rfl, hp⟩, ?_⟩
  change body env ⟨frame, w.retrace (some t)⟩ = _ at he
  change _ ∧ answerOf (body env ⟨frame, w.retrace (some t)⟩) = _
  rw [he]
  rcases hr : body env ⟨frame, w⟩ with ⟨_, m⟩ | ⟨h | f | f, m⟩ <;> rw [hr] at hu <;> exact ⟨hu, rfl⟩

theorem attempt_discreet {body : Exec Unit} (h : Discreet body) (frame : Frame) :
    Discreet (WorldOp.attempt frame body) := fun env w o hw =>
  (attempt_mirrors (h env ⟨frame, w⟩ o hw)).mono fun _ ⟨_, _, ho⟩ => ho

theorem depositCode_discreet (message : Message) (frame : Frame) :
    Discreet (depositCode message frame) := by
  refine (attempt_discreet Made.discreet frame).bind fun answer => ?_
  obtain ⟨frame, _ | h⟩ := answer
  · exact (discreet_modify fun _ _ => rfl).bind fun _ => commit_discreet.bind fun _ =>
      discreet_pure _
  · refine discreet_fork.bind fun fork => ?_
    split
    · exact commit_discreet.bind fun _ => discreet_pure _
    · exact rollback_discreet.bind fun _ => discreet_pure _

theorem closeFrame_discreet (message : Message) (frame : Frame) :
    Discreet (closeFrame message frame) := by
  refine Discreet.bind ?_ fun _ => ?_
  · cases frame.error.isSome
    · exact commit_discreet
    · exact rollback_discreet
  · cases message.target with
    | some _ => exact discreet_pure frame
    | none =>
      dsimp only
      split
      · exact rollback_discreet.bind fun _ => discreet_pure _
      · exact depositCode_discreet message frame

variable {new : List Fetch}

theorem runFrame_mirrors (hbody : Mirrors (runBody runMessage message) env ⟨.ofMessage message, w⟩ o
    (Tells o new)) : Mirrors (runFrame runMessage message) env w o (Recounts o new) := by
  refine (attempt_mirrors hbody).bind (fun answer w₁ o₁ _ hw₁ _ h => ?_) fun _ _ _ _ _ => trivial
  obtain ⟨r, hr, h⟩ := h
  rcases r with ⟨_, m⟩ | ⟨e | f | f, m⟩ <;> cases hr
  · exact .of_blind hw₁ (fun _ => rfl) h
  · refine (attempt_mirrors (trace_mirrors (m := m) _ hw₁ h.1)).bind (fun _ w₂ o₂ _ hw₂ _ h₂ => ?_)
      fun _ _ _ _ _ => trivial
    obtain ⟨_, hr, rfl, rfl⟩ := h₂
    cases hr
    exact .of_blind hw₂ (fun _ => rfl) h.2

theorem launch_of_below (hd : message.depth ≤ depthLimit) (hw : w.tracer = none)
    (hfresh : o.isFresh message.depth)
    (hbelow : RecountsBelow env (fetchesWithin env (depthLimit - message.depth)) message.depth) :
    Mirrors (launch runMessage message) env w o (Recounts o (fetches env message w)) := by
  have hlevels : depthLimit + 1 - message.depth = depthLimit - message.depth + 1 := by omega
  rw [launch_eq hd, fetches, hlevels, fetchesWithin]
  refine (openFrame_discreet message env w o hw).bind (fun _ w₁ o₁ ho hw₁ _ h => ?_)
    fun _ _ _ _ _ => trivial
  rw [h, ho]
  refine (runFrame_mirrors (runBody_mirrors hw₁ hfresh hbelow)).bind
    (fun frame w₂ o₂ _ hw₂ _ h₂ => ?_) fun _ _ _ _ _ => trivial
  refine (closeFrame_discreet message frame env w₂ o₂ hw₂).mono fun o₃ h₃ => ?_
  cases hr : closeFrame message frame env w₂ with
  | error e w' => trivial
  | ok f w' =>
    rw [Recounts, h₃, h₂]
    cases message.precompile? env <;> rfl

/-- A message leaves a trace of the instructions of all frames that are run for it. -/
theorem launch_mirrors (hd : message.depth ≤ depthLimit) (hw : w.tracer = none)
    (hfresh : o.isFresh message.depth) :
    Mirrors (launch runMessage message) env w o (Recounts o (fetches env message w)) := by
  -- By induction on the number of levels that are left below the message.
  induction hk : depthLimit - message.depth generalizing message w o with
  | zero => exact launch_of_below hd hw hfresh fun message' _ _ h hd' => absurd hk (by omega)
  | succ k ih =>
    refine launch_of_below hd hw hfresh fun message' w' o' h hd' hw' hfresh' => ?_
    have hlevels : depthLimit + 1 - message'.depth = depthLimit - message.depth := by omega
    rw [← hlevels]
    exact ih hd' hw' hfresh' (by omega)

theorem conclude_traced {frame : Frame} {outcome : Outcome} {w' : World} (hw : w.tracer = none)
    (h : conclude message frame env w = .ok outcome w') (t : Tracer) :
    conclude message frame env (w.retrace (some t)) = .ok outcome (w'.retrace (some (t.push
      (.final frame.output (message.gas - frame.gasLeft) (frame.error.map Halt.name))))) := by
  unfold conclude at h ⊢
  cases ho : Outcome.ofFrame frame with
  | error f =>
    rw [ho] at h
    cases h
  | ok o =>
    rw [ho] at h
    dsimp only at h ⊢
    split at h
    · cases h
    · next hgas =>
      rw [bind_of_ok (attempt_of_ok (trace_of_untraced (m := ⟨frame, w⟩) hw _))] at h
      cases h
      rw [if_neg hgas]
      rfl

end Messages

end ExecutionLayer.Evm
