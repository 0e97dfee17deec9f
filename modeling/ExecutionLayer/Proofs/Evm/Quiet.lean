import ExecutionLayer.Proofs.Sequence
import Mathlib.Tactic.Ring

/-! # Operations that keep to their frame

What an operation changes is described by a relation between the machines before and after it, and
what it costs by a lower bound on the gas that it takes. Both add up along a sequence. The
operations of which instructions are made are quiet: they only change how far the frame has come.
-/
namespace ExecutionLayer.Evm
variable {α : Type} {c : Prop} {h : Halt} {m m' : Machine} {env : Environment} {cost : Int}
  {g : Frame → Frame}

/-! ## Looking up -/

section LookUp

theorem get_ok : (get : Exec Machine) env m = .ok m m := rfl

theorem fork_ok : Exec.fork env m = .ok env.fork m := rfl

theorem frame_ok : Exec.frame env m = .ok m.frame m := rfl

theorem message_ok : Exec.message env m = .ok m.frame.message m := rfl

theorem state_ok : Exec.state env m = .ok m.world.state m := rfl

theorem WorldOp.fork_ok {w : World} : WorldOp.fork env w = .ok env.fork w := rfl

end LookUp

/-! ## Relations that add up -/

/-- Neither a revert nor an imbalance. -/
def Stop.IsPlain : Stop → Prop
  | .halt h => h ≠ .revert
  | .fault _ => True
  | .imbalance _ => False

def Within (R : Machine → Machine → Prop) (cost : Int) (m : Machine) {α : Type} :
    EStateM.Result Stop Machine α → Prop
  | .ok _ m' => R m m' ∧ m'.frame.gasLeft + cost ≤ (m.frame.gasLeft : Int)
  | .error stop m' => R m m' ∧ stop.IsPlain

/-- An operation that changes a machine only as `R` allows, costs at least so much, and does not
stop in an unusual way. -/
structure Keeps (R : Machine → Machine → Prop) (cost : Int) {α : Type} (op : Exec α) : Prop where
  within : ∀ env m, Within R cost m (op env m)

def Yields {α : Type} (P : α → Prop) (op : Exec α) : Prop :=
  ∀ env m v m', op env m = .ok v m' → P v

theorem yields_pure {P : α → Prop} {v : α} (h : P v) : Yields P (pure v : Exec α) := by
  intro env m w m' hw
  cases hw
  exact h

theorem Yields.bindOf {α β : Type} {P : β → Prop} {Q : α → Prop} {x : Exec α} {f : α → Exec β}
    (hx : Yields Q x) (hf : ∀ v, Q v → Yields P (f v)) : Yields P (x >>= f) := by
  intro env m w m' hw
  obtain ⟨v, m₁, hv, hfv⟩ := of_bind_ok hw
  exact hf v (hx env m v m₁ hv) env m₁ w m' hfv

theorem Yields.bind {α β : Type} {P : β → Prop} {x : Exec α} {f : α → Exec β}
    (hf : ∀ v, Yields P (f v)) : Yields P (x >>= f) :=
  .bindOf (Q := fun _ => True) (fun _ _ _ _ _ => trivial) fun v _ => hf v

theorem Yields.ite {P : α → Prop} [Decidable c] {x y : Exec α}
    (hx : c → Yields P x) (hy : ¬c → Yields P y) : Yields P (if c then x else y) := by
  split
  · next h => exact hx h
  · next h => exact hy h

theorem Yields.unless {P : α → Prop} [Decidable c] {f : Unit → Exec α} (hf : Yields P (f ())) :
    Yields P (if c then (Exec.halt h >>= fun r => f r) else f ()) := by
  split
  · exact fun env m v m' hv => by cases hv
  · exact hf

section Keeps
variable {R : Machine → Machine → Prop} {a b : Int} {β : Type}

theorem Within.mono {S : Machine → Machine → Prop} (hRS : ∀ {m m'}, R m m' → S m m') (hab : b ≤ a)
    {r : EStateM.Result Stop Machine α} (h : Within R a m r) : Within S b m r := by
  cases r with
  | ok x m' => exact ⟨hRS h.1, by have := h.2; omega⟩
  | error e m' => exact ⟨hRS h.1, h.2⟩

theorem Keeps.mono {S : Machine → Machine → Prop} (hRS : ∀ {m m'}, R m m' → S m m') (hab : b ≤ a)
    {op : Exec α} (h : Keeps R a op) : Keeps S b op := ⟨fun env m => (h.within env m).mono hRS hab⟩

theorem Keeps.le {op : Exec α} (h : Keeps R a op) (hab : b ≤ a) : Keeps R b op := h.mono id hab

theorem Keeps.ite [Decidable c] {x y : Exec α} (hx : Keeps R a x) (hy : Keeps R a y) :
    Keeps R a (if c then x else y) := by
  split
  · exact hx
  · exact hy

variable [IsPreorder Machine R]

theorem Within.bind {x : Exec α} {f : α → Exec β} (hx : Within R a m (x env m))
    (hf : ∀ v m', x env m = .ok v m' → Within R b m' (f v env m')) :
    Within R (a + b) m ((x >>= f) env m) := by
  cases h : x env m with
  | ok v m' =>
    rw [h] at hx
    have hv := hf v m' h
    rw [bind_of_ok h]
    cases hr : f v env m' with
    | ok w m'' =>
      rw [hr] at hv
      exact ⟨IsTrans.trans _ _ _ hx.1 hv.1, by have := hx.2; have := hv.2; omega⟩
    | error e m'' =>
      rw [hr] at hv
      exact ⟨IsTrans.trans _ _ _ hx.1 hv.1, hv.2⟩
  | error e m' =>
    rw [h] at hx
    rw [bind_of_error h]
    exact hx

theorem Keeps.skip {x : Exec α} {f : α → Exec β} (hx : Keeps R 0 x) (hf : ∀ v, Keeps R b (f v)) :
    Keeps R b (x >>= f) := ⟨fun env m =>
  (Within.bind (hx.within env m) fun v m' _ => (hf v).within env m').mono id (by omega)⟩

theorem Keeps.pay {x : Exec α} {f : α → Exec β} (hx : Keeps R a x) (hf : ∀ v, Keeps R 0 (f v)) :
    Keeps R a (x >>= f) := ⟨fun env m =>
  (Within.bind (hx.within env m) fun v m' _ => (hf v).within env m').mono id (by omega)⟩

theorem Keeps.skipOf {P : α → Prop} {x : Exec α} {f : α → Exec β} (hx : Keeps R 0 x)
    (hP : Yields P x) (hf : ∀ v, P v → Keeps R b (f v)) : Keeps R b (x >>= f) := ⟨fun env m =>
  (Within.bind (hx.within env m) fun v m' h =>
    (hf v (hP env m v m' h)).within env m').mono id (by omega)⟩

theorem keeps_pure (v : α) : Keeps R 0 (pure v : Exec α) :=
  ⟨fun _ m => ⟨refl m, by omega⟩⟩

theorem keeps_get : Keeps R 0 (get : Exec Machine) :=
  ⟨fun _ m => ⟨refl m, by omega⟩⟩

theorem keeps_read : Keeps R 0 (read : Exec Environment) :=
  ⟨fun _ m => ⟨refl m, by omega⟩⟩

theorem keeps_throw {e : Stop} (he : e.IsPlain) : Keeps R a (throw e : Exec α) :=
  ⟨fun _ m => ⟨refl m, he⟩⟩

theorem keeps_halt (hh : h ≠ .revert) : Keeps R a (Exec.halt h : Exec α) :=
  keeps_throw hh

theorem keeps_ofExcept (r : Except Fault α) : Keeps R 0 (Exec.ofExcept r) := by
  cases r with
  | ok v => exact keeps_pure v
  | error f => exact keeps_throw (e := .fault f) trivial

end Keeps

/-! ## However an operation ends -/

/-- In every environment, and however the operation ends, it has changed things as `R` allows. -/
structure Sustains {σ α : Type} (R : σ → σ → Prop) (op : ReaderT Environment (EStateM Stop σ) α) :
    Prop where
  carries : ∀ env, Carries R (op env)

section Sustains
variable {σ β : Type} {R : σ → σ → Prop} {x y : ReaderT Environment (EStateM Stop σ) α}
  {f : α → ReaderT Environment (EStateM Stop σ) β}

theorem Sustains.ends (h : Sustains R x) (env : Environment) (s : σ) : R s (endOf (x env s)) :=
  (h.carries env).carried s

theorem Sustains.of_ok (h : Sustains R x) {s s' : σ} {a : α}
    (hx : x env s = .ok a s') : R s s' := (h.carries env).of_ok hx

theorem Sustains.ite [Decidable c] (hx : Sustains R x) (hy : Sustains R y) :
    Sustains R (if c then x else y) := by
  split
  · exact hx
  · exact hy

theorem Sustains.mono {S : σ → σ → Prop} (h : Sustains R x) (hRS : ∀ {s s'}, R s s' → S s s') :
    Sustains S x := ⟨fun env => ⟨fun s => hRS (h.ends env s)⟩⟩

variable [IsPreorder σ R]

theorem endOf_readBind {s : σ} (hx : R s (endOf (x env s)))
    (hf : ∀ a s', x env s = .ok a s' → R s' (endOf (f a env s'))) :
    R s (endOf ((x >>= f) env s)) := endOf_bind hx hf

theorem Sustains.bind (hx : Sustains R x) (hf : ∀ a, Sustains R (f a)) : Sustains R (x >>= f) :=
  ⟨fun env => (hx.carries env).bind fun a => (hf a).carries env⟩

theorem Sustains.when [Decidable c] {z : ReaderT Environment (EStateM Stop σ) β}
    (hx : Sustains R x) (hf : ∀ a, f a = z) (hz : Sustains R z) :
    Sustains R (if c then x >>= f else z) := .ite (hx.bind fun a => (hf a).symm ▸ hz) hz

theorem sustains_pure (a : α) : Sustains R (pure a) := ⟨fun _ => carries_pure a⟩

theorem sustains_throw (e : Stop) :
    Sustains R (throw e : ReaderT Environment (EStateM Stop σ) α) := ⟨fun _ => carries_throw e⟩

end Sustains

theorem Keeps.sustained {R : Machine → Machine → Prop} {op : Exec α}
    (h : Keeps R cost op) : Sustains R op := by
  refine ⟨fun env => ⟨fun m => ?_⟩⟩
  have hw := h.within env m
  cases hr : op env m <;> rw [hr] at hw <;> exact hw.1

/-! ## Quiet operations -/

/-- The world is the same, up to the trace, and so is what the frame leaves behind. -/
structure Quiet (m m' : Machine) : Prop where
  state : m'.world.state = m.world.state
  transient : m'.world.transient = m.world.transient
  untraced : m.world.tracer = none → m'.world.tracer = none
  message : m'.frame.message = m.frame.message
  logs : m'.frame.logs = m.frame.logs
  refund : m'.frame.refund = m.frame.refund
  accountsToDelete : m'.frame.accountsToDelete = m.frame.accountsToDelete
  touchedAccounts : m'.frame.touchedAccounts = m.frame.touchedAccounts
  error : m'.frame.error = m.frame.error

instance : IsPreorder Machine Quiet where
  refl _ := ⟨rfl, rfl, id, rfl, rfl, rfl, rfl, rfl, rfl⟩
  trans _ _ _ h h' :=
    ⟨h'.state.trans h.state, h'.transient.trans h.transient, h'.untraced ∘ h.untraced,
      h'.message.trans h.message, h'.logs.trans h.logs, h'.refund.trans h.refund,
      h'.accountsToDelete.trans h.accountsToDelete, h'.touchedAccounts.trans h.touchedAccounts,
      h'.error.trans h.error⟩

/-- The frame is where it was, with the same memory, and its stack is not too high, if it was not. -/
structure InPlace (m m' : Machine) : Prop where
  pc : m'.frame.pc = m.frame.pc
  code : m'.frame.code = m.frame.code
  destinations : m'.frame.destinations = m.frame.destinations
  memory : m'.frame.memory = m.frame.memory
  stack : m.frame.stack.size ≤ Exec.stackLimit → m'.frame.stack.size ≤ Exec.stackLimit

instance : IsPreorder Machine InPlace where
  refl _ := ⟨rfl, rfl, rfl, rfl, id⟩
  trans _ _ _ h h' :=
    ⟨h'.pc.trans h.pc, h'.code.trans h.code, h'.destinations.trans h.destinations,
      h'.memory.trans h.memory, h'.stack ∘ h.stack⟩

structure Resting (m m' : Machine) : Prop extends Quiet m m', InPlace m m'

instance : IsPreorder Machine Resting where
  refl m := ⟨refl m, refl m⟩
  trans _ _ _ h h' :=
    ⟨IsTrans.trans _ _ _ h.toQuiet h'.toQuiet, IsTrans.trans _ _ _ h.toInPlace h'.toInPlace⟩

/-- The code is the same, the stack is not too high, and the memory has not shrunk and is made of
words, if all this was so. -/
structure Orderly (m m' : Machine) : Prop where
  code : m'.frame.code = m.frame.code
  destinations : m'.frame.destinations = m.frame.destinations
  stack : m.frame.stack.size ≤ Exec.stackLimit → m'.frame.stack.size ≤ Exec.stackLimit
  words : 32 ∣ m.frame.memory.size → 32 ∣ m'.frame.memory.size
  grows : m.frame.memory.size ≤ m'.frame.memory.size

instance : IsPreorder Machine Orderly where
  refl _ := ⟨rfl, rfl, id, id, le_rfl⟩
  trans _ _ _ h h' :=
    ⟨h'.code.trans h.code, h'.destinations.trans h.destinations, h'.stack ∘ h.stack,
      h'.words ∘ h.words, h.grows.trans h'.grows⟩

structure Unmoved (m m' : Machine) : Prop extends Orderly m m' where
  pc : m'.frame.pc = m.frame.pc

instance : IsPreorder Machine Unmoved where
  refl m := ⟨refl m, rfl⟩
  trans _ _ _ h h' := ⟨IsTrans.trans _ _ _ h.toOrderly h'.toOrderly, h'.pc.trans h.pc⟩

theorem InPlace.unmoved (h : InPlace m m') : Unmoved m m' := by
  refine ⟨⟨h.code, h.destinations, h.stack, ?_, ?_⟩, h.pc⟩
  · rw [h.memory]
    exact id
  · rw [h.memory]

theorem Keeps.quiet {op : Exec α} (h : Keeps Resting cost op) :
    Keeps Quiet cost op := h.mono Resting.toQuiet le_rfl

namespace Exec

section Looking
variable {R : Machine → Machine → Prop} [IsPreorder Machine R]

theorem keeps_fork : Keeps R 0 fork := keeps_read.skip fun _ => keeps_pure _

theorem keeps_frame : Keeps R 0 frame := keeps_get.skip fun _ => keeps_pure _

theorem keeps_message : Keeps R 0 message := keeps_frame.skip fun _ => keeps_pure _

theorem keeps_state : Keeps R 0 state := keeps_get.skip fun _ => keeps_pure _

theorem keeps_transient : Keeps R 0 transient := keeps_get.skip fun _ => keeps_pure _

end Looking

theorem keeps_modifyFrame {R : Machine → Machine → Prop}
    (hR : ∀ m : Machine, R m { m with frame := g m.frame })
    (hg : ∀ f : Frame, (g f).gasLeft + cost ≤ (f.gasLeft : Int)) : Keeps R cost (modifyFrame g) :=
  ⟨fun _ m => ⟨hR m, hg m.frame⟩⟩

theorem modifyFrame_quiet (h : ∀ f, g f = { f with
      pc := (g f).pc, stack := (g f).stack, memory := (g f).memory, running := (g f).running
      output := (g f).output, returnData := (g f).returnData
      accessedAddresses := (g f).accessedAddresses, accessedSlots := (g f).accessedSlots }) :
    Keeps Quiet 0 (modifyFrame g) := by
  refine keeps_modifyFrame (fun m => ?_) fun f => ?_
  · have hf {β : Type} (p : Frame → β) := congrArg p (h m.frame)
    exact ⟨rfl, rfl, id, hf (·.message), hf (·.logs), hf (·.refund), hf (·.accountsToDelete),
      hf (·.touchedAccounts), hf (·.error)⟩
  · have hg := congrArg Frame.gasLeft (h f)
    simp only at hg
    omega

theorem trace_cases (event : Trace.Event) (env : Environment) (m : Machine) :
    (∃ t, trace event env m = .ok () { m with world := { m.world with tracer := t } } ∧
      (m.world.tracer = none → t = none)) ∨
    ∃ f, trace event env m = .error (.fault f) m := by
  obtain ⟨frame, state, transient, _ | t⟩ := m
  · exact Or.inl ⟨none, rfl, id⟩
  · cases hr : t.record frame.view event with
    | ok t' => exact Or.inl ⟨some t', by simp only [trace, hr], nofun⟩
    | error f => exact Or.inr ⟨f, by simp only [trace, hr]⟩

theorem of_trace_ok {event : Trace.Event}
    (h : trace event env m = .ok () m') : m'.frame = m.frame := by
  rcases trace_cases event env m with ⟨t, ht, -⟩ | ⟨f, ht⟩
  · rw [ht] at h
    cases h
    rfl
  · rw [ht] at h
    cases h

theorem trace_keeps {R : Machine → Machine → Prop} [IsPreorder Machine R]
    (hR : ∀ m t, (m.world.tracer = none → t = none) →
      R m { m with world := { m.world with tracer := t } }) (event : Trace.Event) :
    Keeps R 0 (trace event) := by
  refine ⟨fun env m => ?_⟩
  rcases trace_cases event env m with ⟨t, h, ht⟩ | ⟨f, h⟩
  · rw [h]
    exact ⟨hR m t ht, by simp⟩
  · rw [h]
    exact ⟨refl m, trivial⟩

theorem modifyFrame_rests (h : ∀ f, g f = { f with
      running := (g f).running, output := (g f).output, returnData := (g f).returnData
      accessedAddresses := (g f).accessedAddresses, accessedSlots := (g f).accessedSlots }) :
    Keeps Resting 0 (modifyFrame g) := by
  refine keeps_modifyFrame (fun m => ?_) fun f => ?_
  · have hf {β : Type} (p : Frame → β) := congrArg p (h m.frame)
    exact ⟨⟨rfl, rfl, id, hf (·.message), hf (·.logs), hf (·.refund), hf (·.accountsToDelete),
      hf (·.touchedAccounts), hf (·.error)⟩, hf (·.pc), hf (·.code), hf (·.destinations),
      hf (·.memory), (hf (·.stack.size)).trans_le⟩
  · have hg := congrArg Frame.gasLeft (h f)
    simp only at hg
    omega

theorem trace_rests (event : Trace.Event) : Keeps Resting 0 (trace event) :=
  trace_keeps (fun _ _ ht =>
    ⟨⟨rfl, rfl, ht, rfl, rfl, rfl, rfl, rfl, rfl⟩, rfl, rfl, rfl, rfl, id⟩) event

theorem trace_quiet (event : Trace.Event) : Keeps Quiet 0 (trace event) := (trace_rests event).quiet

theorem chargeGas_rests (amount : Nat) : Keeps Resting amount (chargeGas amount) := by
  refine (trace_rests _).skip fun _ => ⟨fun env m => ?_⟩
  change Within Resting amount m ((if m.frame.gasLeft < amount then halt .outOfGas
    else if Word.limit ≤ amount then fault .overflow
    else modifyFrame fun f => { f with gasLeft := f.gasLeft - amount }) env m)
  split
  · exact ⟨refl m, nofun⟩
  · split
    · exact ⟨refl m, trivial⟩
    · next h _ =>
      refine ⟨⟨⟨rfl, rfl, id, rfl, rfl, rfl, rfl, rfl, rfl⟩, rfl, rfl, rfl, rfl, id⟩, ?_⟩
      change ((m.frame.gasLeft - amount : Nat) : Int) + amount ≤ m.frame.gasLeft
      omega

theorem chargeGas_quiet (amount : Nat) : Keeps Quiet amount (chargeGas amount) :=
  (chargeGas_rests amount).quiet

theorem pop_rests : Keeps Resting 0 pop := by
  refine keeps_frame.skip fun f => ?_
  cases f.stack.back? with
  | none => exact keeps_halt (by decide)
  | some x =>
    refine (keeps_modifyFrame (fun m => ⟨⟨rfl, rfl, id, rfl, rfl, rfl, rfl, rfl, rfl⟩, rfl, rfl, rfl,
      rfl, fun h => ?_⟩) (by simp)).skip fun _ => keeps_pure x
    rw [Array.size_pop]
    omega

theorem pop_of_none (h : m.frame.stack.back? = none) :
    pop env m = .error (.halt .stackUnderflow) m := by
  unfold pop
  rw [bind_of_ok frame_ok, h]
  rfl

theorem pop_of_some {x : Word} (h : m.frame.stack.back? = some x) :
    pop env m = .ok x { m with frame := { m.frame with stack := m.frame.stack.pop } } := by
  unfold pop
  rw [bind_of_ok frame_ok, h]
  rfl

theorem push_rests (x : Word) : Keeps Resting 0 (push x) := by
  refine ⟨fun env m => ?_⟩
  change Within Resting 0 m ((if m.frame.stack.size = stackLimit then halt .stackOverflow
    else modifyFrame fun f => { f with stack := f.stack.push x }) env m)
  split
  · exact ⟨refl m, nofun⟩
  · next hne =>
    refine ⟨⟨⟨rfl, rfl, id, rfl, rfl, rfl, rfl, rfl, rfl⟩, rfl, rfl, rfl, rfl, fun h => ?_⟩,
      by simp⟩
    change (m.frame.stack.push x).size ≤ stackLimit
    rw [Array.size_push]
    omega

theorem push_of_lt (x : Word) (h : m.frame.stack.size < stackLimit) :
    push x env m = .ok () { m with frame := { m.frame with stack := m.frame.stack.push x } } := by
  unfold push
  rw [bind_of_ok frame_ok, if_neg h.ne]
  rfl

theorem accountAccessCost_pos {before : Fork → Nat} (h : ∀ fork, 1 ≤ before fork)
    (address : Address) : Yields (1 ≤ ·) (accountAccessCost before address) :=
  .bind fun fork => .ite (fun _ => yields_pure (h fork)) fun _ =>
    .bind fun _ => .ite (fun _ => yields_pure (by decide)) fun _ => yields_pure (by decide)

end Exec

/-! ## Logics -/

open Exec

/-- A property of operations that a sequence has if its parts have it. Halts do not take it away,
except perhaps a revert. -/
structure Logic where
  holds : ∀ {α : Type}, Exec α → Prop
  pure : ∀ {α : Type} (a : α), holds (pure a)
  bind : ∀ {α β : Type} {x : Exec α} {f : α → Exec β}, holds x → (∀ a, holds (f a)) →
    holds (x >>= f)
  halt : ∀ {α : Type} {h : Halt}, h ≠ .revert → holds (Exec.halt h : Exec α)

/-- The operation has the property. Instances follow how the operation is made. -/
class Made (L : Logic) {α : Type} (op : Exec α) : Prop where
  holds : L.holds op

class Halt.IsPlain (h : Halt) : Prop where
  ne : h ≠ .revert

instance : Halt.IsPlain .stackUnderflow := ⟨nofun⟩
instance : Halt.IsPlain .stackOverflow := ⟨nofun⟩
instance : Halt.IsPlain .outOfGas := ⟨nofun⟩
instance {code : UInt8} : Halt.IsPlain (.invalidOpcode code) := ⟨nofun⟩
instance : Halt.IsPlain .invalidJumpDestination := ⟨nofun⟩
instance : Halt.IsPlain .writeInStaticContext := ⟨nofun⟩
instance : Halt.IsPlain .outOfBoundsRead := ⟨nofun⟩
instance : Halt.IsPlain .invalidParameter := ⟨nofun⟩
instance : Halt.IsPlain .kzgProof := ⟨nofun⟩
instance : Halt.IsPlain .invalidContractPrefix := ⟨nofun⟩

section Made
variable {L : Logic} {β : Type} {x y : Exec α} {f : α → Exec β}

instance (a : α) : Made L (pure a : Exec α) := ⟨L.pure a⟩

instance [hx : Made L x] [hf : ∀ a, Made L (f a)] : Made L (x >>= f) :=
  ⟨L.bind hx.holds fun a => (hf a).holds⟩

instance [hh : h.IsPlain] : Made L (Exec.halt h : Exec α) := ⟨L.halt hh.ne⟩

instance [Decidable c] [hx : Made L x] [hy : Made L y] : Made L (if c then x else y) := by
  split
  · exact hx
  · exact hy

end Made

def Logic.keeping (R : Machine → Machine → Prop) [IsPreorder Machine R] : Logic where
  holds := Keeps R 0
  pure := keeps_pure
  bind := Keeps.skip
  halt := keeps_halt

def Logic.sustaining (R : Machine → Machine → Prop) [IsPreorder Machine R] : Logic where
  holds := Sustains R
  pure := sustains_pure
  bind := Sustains.bind
  halt _ := sustains_throw _

theorem Made.kept {R : Machine → Machine → Prop} [IsPreorder Machine R] {op : Exec α}
    [h : Made (.keeping R) op] : Keeps R 0 op := h.holds

theorem quiet_of_ok {op : Exec α} [hq : Made (.keeping Quiet) op] {v : α}
    (h : op env m = .ok v m') : Quiet m m' := by
  have hw := hq.kept.within env m
  rw [h] at hw
  exact hw.1

theorem Made.sustained {R : Machine → Machine → Prop} [IsPreorder Machine R] {op : Exec α}
    [h : Made (.sustaining R) op] : Sustains R op := h.holds

/-- Lookups have the property, and so has what takes words from the stack, charges gas, stops the
frame or counts an access. -/
class Logic.Taking (L : Logic) : Prop where
  read : L.holds (read : Exec Environment)
  frame : L.holds frame
  state : L.holds state
  transient : L.holds transient
  pop : L.holds pop
  chargeGas : ∀ amount, L.holds (chargeGas amount)
  takeGas : ∀ amount, L.holds (modifyFrame fun f => { f with gasLeft := f.gasLeft - amount })
  note : ∀ {g : Frame → Frame}, (∀ f, g f = { f with
      running := (g f).running, accessedAddresses := (g f).accessedAddresses
      accessedSlots := (g f).accessedSlots }) → L.holds (modifyFrame g)

/-- Besides, there may be faults, words may be put on the stack, and the frame may be changed in a way
which the next instruction does not depend on. -/
class Logic.Basic (L : Logic) : Prop extends L.Taking where
  fault : ∀ {α : Type} (f : Fault), L.holds (fault f : Exec α)
  push : ∀ x, L.holds (push x)
  change : ∀ {g : Frame → Frame}, (∀ f, g f = { f with
      running := (g f).running, output := (g f).output, returnData := (g f).returnData
      accessedAddresses := (g f).accessedAddresses, accessedSlots := (g f).accessedSlots }) →
    L.holds (modifyFrame g)

/-- Besides, the frame may be moved in its code, and its stack and memory may be changed. -/
class Logic.Moving (L : Logic) : Prop extends L.Basic where
  move : ∀ {g : Frame → Frame}, (∀ f, g f = { f with
      pc := (g f).pc, stack := (g f).stack, memory := (g f).memory }) → L.holds (modifyFrame g)

/-- Besides, the frame may be given gas, and may revert. -/
class Logic.Giving (L : Logic) : Prop extends L.Basic where
  addGas : ∀ amount, L.holds (addGas amount)
  revert : L.holds (Exec.halt .revert : Exec Unit)

section Relations
variable {R : Machine → Machine → Prop} [IsPreorder Machine R]

class AllowsRest (R : Machine → Machine → Prop) : Prop where
  rest : ∀ {m m'}, Resting m m' → R m m'

class AllowsQuiet (R : Machine → Machine → Prop) : Prop where
  quiet : ∀ {m m'}, Quiet m m' → R m m'

instance [h : AllowsQuiet R] : AllowsRest R := ⟨fun hr => h.quiet hr.toQuiet⟩
instance : AllowsRest Resting := ⟨id⟩
instance : AllowsQuiet Quiet := ⟨id⟩

theorem Logic.basic_of_rests {L : Logic}
    (h : ∀ {α : Type} {op : Exec α}, Keeps Resting 0 op → L.holds op) : L.Basic where
  fault f := h (keeps_ofExcept (.error f))
  read := h keeps_read
  frame := h keeps_frame
  state := h keeps_state
  transient := h keeps_transient
  pop := h pop_rests
  push x := h (push_rests x)
  chargeGas amount := h ((chargeGas_rests amount).le (by omega))
  takeGas amount := h (keeps_modifyFrame
    (fun _ => ⟨⟨rfl, rfl, id, rfl, rfl, rfl, rfl, rfl, rfl⟩, rfl, rfl, rfl, rfl, id⟩) (by simp))
  note hg := h (modifyFrame_rests fun f => by rw [hg f])
  change hg := h (modifyFrame_rests hg)

instance [hR : AllowsRest R] : (Logic.keeping R).Basic :=
  Logic.basic_of_rests fun h => h.mono hR.rest le_rfl

instance [hR : AllowsQuiet R] : (Logic.keeping R).Moving where
  move h := (modifyFrame_quiet fun f => by rw [h f]).mono hR.quiet le_rfl

instance [hR : AllowsRest R] : (Logic.sustaining R).Giving where
  toBasic := Logic.basic_of_rests fun h => h.sustained.mono hR.rest
  addGas _ := ⟨fun _ => carries_modify fun _ => hR.rest
    ⟨⟨rfl, rfl, id, rfl, rfl, rfl, rfl, rfl, rfl⟩, rfl, rfl, rfl, rfl, id⟩⟩
  revert := sustains_throw _

instance [hR : AllowsQuiet R] : (Logic.sustaining R).Moving where
  move h := (modifyFrame_quiet fun f => by rw [h f]).sustained.mono hR.quiet

instance [hR : AllowsRest R] (event : Trace.Event) : Made (.keeping R) (trace event) :=
  ⟨(trace_rests event).mono hR.rest le_rfl⟩

instance [hR : AllowsRest R] (event : Trace.Event) : Made (.sustaining R) (trace event) :=
  ⟨(trace_rests event).sustained.mono hR.rest⟩

end Relations

section Taking
variable {L : Logic} [hL : L.Taking]

instance : Made L (read : Exec Environment) := ⟨hL.read⟩
instance : Made L frame := ⟨hL.frame⟩
instance : Made L state := ⟨hL.state⟩
instance : Made L transient := ⟨hL.transient⟩
instance : Made L fork := by unfold fork; infer_instance
instance : Made L message := by unfold message; infer_instance
instance : Made L pop := ⟨hL.pop⟩
instance : Made L popNat := by unfold popNat; infer_instance
instance : Made L popAddress := by unfold popAddress; infer_instance
instance (amount : Nat) : Made L (chargeGas amount) := ⟨hL.chargeGas amount⟩
instance : Made L finish := ⟨hL.note fun _ => rfl⟩
instance : Made L requireMutable := by unfold requireMutable; infer_instance

instance (ranges : List (Nat × Nat)) : Made L (memoryExtension ranges) := by
  unfold memoryExtension
  infer_instance

instance (start size : Nat) : Made L (readMemory start size) := by
  unfold readMemory
  infer_instance

instance (address : Address) : Made L (accessAccount address) := by
  have : Made L (modifyFrame fun f =>
      { f with accessedAddresses := f.accessedAddresses.insert address }) := ⟨hL.note fun _ => rfl⟩
  unfold accessAccount
  infer_instance

instance (key : Word) : Made L (accessSlot key) := by
  have (slot : SlotKey) : Made L (modifyFrame fun f =>
      { f with accessedSlots := f.accessedSlots.insert slot }) := ⟨hL.note fun _ => rfl⟩
  dsimp only [accessSlot]
  infer_instance

instance (before : Fork → Nat) (address : Address) : Made L (accountAccessCost before address) := by
  unfold accountAccessCost
  infer_instance

end Taking

section Basic
variable {L : Logic} [hL : L.Basic]

instance (f : Fault) : Made L (fault f : Exec α) := ⟨hL.fault f⟩

instance (r : Except Fault α) : Made L (Exec.ofExcept r) := by
  cases r <;> unfold Exec.ofExcept <;> infer_instance

instance (x : Word) : Made L (push x) := ⟨hL.push x⟩
instance (n : Nat) : Made L (pushNat n) := by unfold pushNat; infer_instance

end Basic

section Moving
variable {L : Logic} [hL : L.Moving]

instance (size : Nat) : Made L (advance size) := ⟨hL.move fun _ => rfl⟩
instance : Made L next := by unfold next; infer_instance
instance (start : Nat) (value : Bytes) : Made L (writeMemory start value) := ⟨hL.move fun _ => rfl⟩

instance (size : Nat) : Made L (expandMemory size) := by
  have : Made L (modifyFrame fun f => { f with memory := f.memory ++ Bytes.zeros size }) :=
    ⟨hL.move fun _ => rfl⟩
  unfold expandMemory
  infer_instance

instance (amount : Nat) (ranges : List (Nat × Nat)) : Made L (chargeWithMemory amount ranges) := by
  unfold chargeWithMemory
  infer_instance

theorem chargeWithMemory_quiet (amount : Nat) (ranges : List (Nat × Nat)) :
    Keeps Quiet amount (chargeWithMemory amount ranges) :=
  Made.kept.skip fun _ => ((chargeGas_quiet _).pay fun _ => Made.kept).le (by omega)

end Moving

instance {L : Logic} [hL : L.Giving] (amount : Nat) : Made L (addGas amount) := ⟨hL.addGas amount⟩

end ExecutionLayer.Evm
