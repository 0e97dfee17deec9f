import ExecutionLayer.Evm.Exec
import ExecutionLayer.Rejection
import Mathlib.Order.Defs.Unbundled

/-! # Results of sequences

Operations of the machine and of blocks change a state and may stop. The result of a sequence is
that of its second part, begun where the first one ended, unless the first one stops.
-/
namespace ExecutionLayer

section Plain
variable {ε σ α β : Type}

theorem seq_apply (x : EStateM ε σ α) (f : α → EStateM ε σ β) (s : σ) :
    (x >>= f) s = match x s with
      | .ok a s' => f a s'
      | .error e s' => .error e s' := by
  change EStateM.bind x f s = _
  unfold EStateM.bind
  cases x s <;> rfl

theorem seq_of_ok {x : EStateM ε σ α} {s s' : σ} {a : α} (h : x s = .ok a s')
    (f : α → EStateM ε σ β) : (x >>= f) s = f a s' := by
  rw [seq_apply, h]

theorem seq_of_error {x : EStateM ε σ α} {s s' : σ} {e : ε} (h : x s = .error e s')
    (f : α → EStateM ε σ β) : (x >>= f) s = .error e s' := by
  rw [seq_apply, h]

theorem of_seq_ok {x : EStateM ε σ α} {f : α → EStateM ε σ β} {s s'' : σ} {b : β}
    (h : (x >>= f) s = .ok b s'') : ∃ a s', x s = .ok a s' ∧ f a s' = .ok b s'' := by
  cases hx : x s with
  | ok a s' => exact ⟨a, s', rfl, by rwa [seq_of_ok hx] at h⟩
  | error e s' =>
    rw [seq_of_error hx] at h
    cases h

theorem of_seq_error {x : EStateM ε σ α} {f : α → EStateM ε σ β} {s s'' : σ} {e : ε}
    (h : (x >>= f) s = .error e s'') :
    x s = .error e s'' ∨ ∃ a s', x s = .ok a s' ∧ f a s' = .error e s'' := by
  cases hx : x s with
  | ok a s' => exact Or.inr ⟨a, s', rfl, by rwa [seq_of_ok hx] at h⟩
  | error e' s' =>
    rw [seq_of_error hx] at h
    cases h
    exact Or.inl rfl

theorem of_foldlM_error {f : β → α → EStateM ε σ β} {l : List α} {b : β} {s s' : σ} {e : ε}
    (h : l.foldlM f b s = .error e s') : ∃ n a b' s₁, l[n]? = some a ∧
      (l.take n).foldlM f b s = .ok b' s₁ ∧ f b' a s₁ = .error e s' := by
  induction l generalizing b s with
  | nil => cases h
  | cons a l ih =>
    rw [List.foldlM_cons] at h
    rcases of_seq_error h with ha | ⟨b₁, s₁, ha, hl⟩
    · exact ⟨0, a, b, s, rfl, rfl, ha⟩
    · obtain ⟨n, a', b', s₂, hn, htake, he⟩ := ih hl
      refine ⟨n + 1, a', b', s₂, hn, ?_, he⟩
      rw [List.take_succ_cons, List.foldlM_cons, seq_of_ok ha]
      exact htake

/-- Whether an operation succeeds with a result and a state that pass the test. -/
def okWith (test : α → σ → Bool) : EStateM.Result ε σ α → Bool
  | .ok a s => test a s
  | .error _ _ => false

theorem of_okWith {test : α → σ → Bool} {r : EStateM.Result ε σ α} (h : okWith test r = true) :
    ∃ a s, r = .ok a s ∧ test a s = true := by
  cases r with
  | ok a s => exact ⟨a, s, rfl, h⟩
  | error e s => cases h

def errorWith (test : ε → Bool) : EStateM.Result ε σ α → Bool
  | .ok _ _ => false
  | .error e _ => test e

theorem of_errorWith {test : ε → Bool} {r : EStateM.Result ε σ α} (h : errorWith test r = true) :
    ∃ e s, r = .error e s ∧ test e = true := by
  cases r with
  | ok a s => cases h
  | error e s => exact ⟨e, s, rfl, h⟩

/-! Likewise for results that change no state. -/

theorem except_of_ok {x : Except ε α} {a : α} (h : x = .ok a) (f : α → Except ε β) :
    (x >>= f) = f a := by
  rw [h]
  rfl

theorem except_of_error {x : Except ε α} {e : ε} (h : x = .error e) (f : α → Except ε β) :
    (x >>= f) = .error e := by
  rw [h]
  rfl

theorem of_except_ok {x : Except ε α} {f : α → Except ε β} {b : β} (h : (x >>= f) = .ok b) :
    ∃ a, x = .ok a ∧ f a = .ok b := by
  cases x with
  | ok a => exact ⟨a, rfl, h⟩
  | error e => cases h

theorem except_ok_iff {x : Except ε α} {f : α → Except ε β} {b : β} :
    (x >>= f) = .ok b ↔ ∃ a, x = .ok a ∧ f a = .ok b :=
  ⟨of_except_ok, fun ⟨_, hx, hf⟩ => (except_of_ok hx f).trans hf⟩

theorem of_except_error {x : Except ε α} {f : α → Except ε β} {e : ε} (h : (x >>= f) = .error e) :
    x = .error e ∨ ∃ a, x = .ok a ∧ f a = .error e := by
  cases x with
  | ok a => exact Or.inr ⟨a, rfl, h⟩
  | error e' =>
    cases h
    exact Or.inl rfl

theorem of_map_ok {x : Except ε α} {f : α → β} {b : β} (h : x.map f = .ok b) :
    ∃ a, x = .ok a ∧ f a = b := by
  cases x with
  | ok a => exact ⟨a, rfl, Except.ok.inj h⟩
  | error e => cases h

theorem of_map_error {x : Except ε α} {f : α → β} {e : ε} (h : x.map f = .error e) :
    x = .error e := by
  cases x with
  | ok a => cases h
  | error e' =>
    cases h
    rfl

end Plain

theorem Rejection.of_check_ok {b : Bool} {u : Unit} (h : Rejection.check b = .ok u) : b = true := by
  unfold Rejection.check at h
  split at h
  · assumption
  · cases h

theorem Rejection.check_ok_iff {c : Prop} [Decidable c] {u : Unit} :
    Rejection.check c = .ok u ↔ c :=
  ⟨fun h => of_decide_eq_true (of_check_ok h), fun h => if_pos (decide_eq_true h)⟩

theorem Rejection.of_ofFault_ok {α : Type} {r : Except Fault α} {a : α}
    (h : Rejection.ofFault r = .ok a) : r = .ok a := by
  cases r with
  | ok b =>
    cases h
    rfl
  | error f => cases h

theorem Rejection.ofFault_ok_iff {α : Type} {r : Except Fault α} {a : α} :
    Rejection.ofFault r = .ok a ↔ r = .ok a :=
  ⟨of_ofFault_ok, fun h => congrArg ofFault h⟩

section Carries
variable {ε σ α β : Type} {R : σ → σ → Prop}

/-- Where an operation leaves the state, whether it succeeds or stops. -/
def endOf : EStateM.Result ε σ α → σ
  | .ok _ s => s
  | .error _ s => s

/-- However the operation ends, it has changed the state as `R` allows. -/
structure Carries (R : σ → σ → Prop) (op : EStateM ε σ α) : Prop where
  carried : ∀ s, R s (endOf (op s))

theorem Carries.of_ok {op : EStateM ε σ α} (h : Carries R op) {s s' : σ} {a : α}
    (hop : op s = .ok a s') : R s s' := by
  have he := h.carried s
  rw [hop] at he
  exact he

theorem Carries.ite {c : Prop} [Decidable c] {x y : EStateM ε σ α} (hx : Carries R x)
    (hy : Carries R y) : Carries R (if c then x else y) := by
  split
  · exact hx
  · exact hy

theorem carries_modify {g : σ → σ} (h : ∀ s, R s (g s)) :
    Carries R (modify g : EStateM ε σ Unit) := ⟨h⟩

variable [IsPreorder σ R]

theorem endOf_bind {x : EStateM ε σ α} {f : α → EStateM ε σ β} {s : σ} (hx : R s (endOf (x s)))
    (hf : ∀ a s', x s = .ok a s' → R s' (endOf (f a s'))) : R s (endOf ((x >>= f) s)) := by
  cases h : x s with
  | ok a s' =>
    rw [h] at hx
    rw [seq_of_ok h]
    exact IsTrans.trans _ _ _ hx (hf a s' h)
  | error e s' =>
    rw [h] at hx
    rw [seq_of_error h]
    exact hx

theorem Carries.bind {x : EStateM ε σ α} {f : α → EStateM ε σ β} (hx : Carries R x)
    (hf : ∀ a, Carries R (f a)) : Carries R (x >>= f) :=
  ⟨fun s => endOf_bind (hx.carried s) fun a s' _ => (hf a).carried s'⟩

theorem Carries.when {c : Prop} [Decidable c] {x : EStateM ε σ α} {f : α → EStateM ε σ β}
    {y : EStateM ε σ β} (hx : Carries R x) (hf : ∀ a, f a = y) (hy : Carries R y) :
    Carries R (if c then x >>= f else y) := .ite (hx.bind fun a => (hf a).symm ▸ hy) hy

theorem carries_pure (a : α) : Carries R (pure a : EStateM ε σ α) := ⟨fun s => refl s⟩

theorem carries_throw (e : ε) : Carries R (throw e : EStateM ε σ α) := ⟨fun s => refl s⟩

theorem carries_get : Carries R (get : EStateM ε σ σ) := ⟨fun s => refl s⟩

theorem Carries.forM {g : β → EStateM ε σ Unit} (hg : ∀ b, Carries R (g b)) (l : List β) :
    Carries R (l.forM g) := by
  induction l with
  | nil => exact carries_pure ()
  | cons b l ih => exact (hg b).bind fun _ => ih

theorem Carries.foldlM {g : β → α → EStateM ε σ β} (hg : ∀ b a, Carries R (g b a)) (l : List α)
    (b : β) : Carries R (l.foldlM g b) := by
  induction l generalizing b with
  | nil => exact carries_pure b
  | cons a l ih => exact (hg b a).bind fun b => ih b

end Carries

namespace Evm

section Reading
variable {σ α β : Type} {x : ReaderT Environment (EStateM Stop σ) α} {env : Environment} {s s' : σ}
  {e : Stop}

theorem bind_of_ok {a : α} (h : x env s = .ok a s')
    (f : α → ReaderT Environment (EStateM Stop σ) β) : (x >>= f) env s = f a env s' :=
  seq_of_ok h fun a => f a env

theorem bind_of_error (h : x env s = .error e s')
    (f : α → ReaderT Environment (EStateM Stop σ) β) : (x >>= f) env s = .error e s' :=
  seq_of_error h fun a => f a env

variable {f : α → ReaderT Environment (EStateM Stop σ) β} {s'' : σ}

theorem of_bind_ok {b : β} (h : (x >>= f) env s = .ok b s'') :
    ∃ a s', x env s = .ok a s' ∧ f a env s' = .ok b s'' := of_seq_ok h

theorem of_bind_error (h : (x >>= f) env s = .error e s'') :
    x env s = .error e s'' ∨ ∃ a s', x env s = .ok a s' ∧ f a env s' = .error e s'' :=
  of_seq_error h

end Reading

end Evm

end ExecutionLayer
